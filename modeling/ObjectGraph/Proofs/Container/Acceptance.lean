import ObjectGraph.Proofs.Container.Envelope
import ObjectGraph.Rebuild.Session

/-! The reader of envelopes takes no bytes but those that are written for a valid container
(`toBytes_of_ofBytes`). -/
namespace ObjectGraph.Container

section Table

variable {α : Type} {encode : α → Except Wire.Error Bytes} {read : Wire.Read α}
  {tooLarge : (index len limit : Nat) → Error} {xs : List α} {parts : List Bytes}

/-- What has been read is written as the bytes in front of those left. -/
def Reproduces (encode : α → Except Wire.Error Bytes) (read : Wire.Read α) : Prop :=
  ∀ ⦃bs x rest⦄, read bs = (.ok x, rest) → ∃ front, encode x = .ok front ∧ bs = front ++ rest

theorem encodeAll_of_parts (h : List.Forall₂ (fun x part => encode x = .ok part) xs parts)
    (done : List Bytes) :
    encodeAll encode xs done = .ok (done.reverse.flatten ++ parts.flatten) := by
  induction h generalizing done with
  | nil => simp [encodeAll]
  | cons hx _ ih => simp [encodeAll, hx, ih]

theorem encodeTable_of_parts {count : UInt32} (hc : count.toNat = xs.length)
    (h : List.Forall₂ (fun x part => encode x = .ok part) xs parts) :
    encodeTable encode xs = .ok (Wire.encodeU32 count ++ parts.flatten) := by
  have hbody := encodeAll_of_parts h []
  rw [encodeTable, ← hc, Wire.encodeCount_toNat, hbody]
  rfl

theorem lift_ok {step : Except Wire.Error α × Bytes} {x : α} {rest : Bytes}
    (h : lift step = .ok (x, rest)) : step = (.ok x, rest) := by
  obtain ⟨e | y, rest'⟩ := step <;> cases h
  rfl

theorem liftEntry_ok {tooLarge : (len limit : Nat) → Error} {step : Except Wire.Error α × Bytes}
    {x : α} {rest : Bytes} (h : liftEntry tooLarge step = .ok (x, rest)) :
    step = (.ok x, rest) := by
  unfold liftEntry at h
  split at h
  · cases h
  · exact lift_ok h

/-- The entries of a table have been written one after another. -/
theorem readEntries_ok (hr : Reproduces encode read) {n index : Nat} {bs rest : Bytes}
    {done : List α} (h : readEntries read tooLarge n index bs done = .ok (xs, rest)) :
    ∃ new parts, xs = done.reverse ++ new ∧ new.length = n ∧
      List.Forall₂ (fun x part => encode x = .ok part) new parts ∧ bs = parts.flatten ++ rest := by
  induction n generalizing index bs done with
  | zero =>
    cases h
    exact ⟨[], [], by simp, rfl, .nil, rfl⟩
  | succ n ih =>
    unfold readEntries at h
    cases he : liftEntry (tooLarge index) (read bs) with
    | error e =>
      rw [he] at h
      cases h
    | ok step =>
      obtain ⟨x, after⟩ := step
      rw [he] at h
      obtain ⟨part, hx, rfl⟩ := hr (liftEntry_ok he)
      obtain ⟨new, parts, rfl, hlen, hparts, rfl⟩ := ih h
      exact ⟨x :: new, part :: parts, by simp, by rw [List.length_cons, hlen], .cons hx hparts,
        by rw [List.flatten_cons, List.append_assoc]⟩

/-- A table is written as its count and the entries that have been read. -/
theorem encodeTable_of_readEntries (hr : Reproduces encode read) {count : UInt32}
    {bs rest : Bytes} (h : readEntries read tooLarge count.toNat 0 bs [] = .ok (xs, rest)) :
    ∃ front, encodeTable encode xs = .ok front ∧ Wire.encodeU32 count ++ bs = front ++ rest := by
  obtain ⟨new, parts, rfl, hlen, hparts, rfl⟩ := readEntries_ok hr h
  exact ⟨_, encodeTable_of_parts hlen.symm hparts, by rw [List.append_assoc]⟩

end Table

variable {limits : Limits} {bs rest : Bytes}

theorem readRecords_ok {records : List Bytes} (h : readRecords limits bs = .ok (records, rest)) :
    ∃ front, encodeTable Wire.encodeBytes records = .ok front ∧ bs = front ++ rest := by
  unfold readRecords at h
  obtain ⟨⟨count, after⟩, hc, h⟩ := bind_eq_ok.1 h
  dsimp only at h
  split at h
  · cases h
  · obtain ⟨front, hfront, hsplit⟩ := encodeTable_of_readEntries (fun _ _ _ => Wire.readBytes_ok) h
    exact ⟨front, hfront, (Wire.readU32_ok (lift_ok hc)).trans hsplit⟩

theorem readTypeNames_ok {records : Nat} {names : Option (List String)}
    (h : readTypeNames limits records bs = .ok (names, rest)) :
    ∃ front, encodeTypeNames names = .ok front ∧
      bs = Wire.encodeFlag names.isSome ++ (front ++ rest) := by
  unfold readTypeNames at h
  obtain ⟨⟨present, after⟩, hp, hnames⟩ := bind_eq_ok.1 h
  have hflag := Wire.readFlag_ok (lift_ok hp)
  cases present with
  | false =>
    cases hnames
    exact ⟨[], rfl, hflag⟩
  | true =>
    obtain ⟨⟨count, more⟩, hc, htable⟩ := bind_eq_ok.1 hnames
    dsimp only at htable
    split at htable
    · cases htable
    · obtain ⟨⟨read, last⟩, hr, hend⟩ := bind_eq_ok.1 htable
      cases hend
      obtain ⟨front, hfront, hsplit⟩ := encodeTable_of_readEntries (fun _ _ _ => Wire.readText_ok) hr
      exact ⟨front, hfront, by rw [hflag, Wire.readU32_ok (lift_ok hc), hsplit]; rfl⟩

theorem ofBytes_ok {c : Container} (h : ofBytes limits bs = .ok c) :
    ∃ after names, bs = Wire.encodeU32 c.formatVersion ++ after ∧
      checkVersion c.formatVersion = .ok () ∧ readRecords limits after = .ok (c.records, names) ∧
      readTypeNames limits c.records.length names = .ok (c.typeNames, []) := by
  unfold ofBytes at h
  obtain ⟨⟨version, after⟩, hv, h⟩ := bind_eq_ok.1 h
  obtain ⟨⟨⟩, hcheck, h⟩ := bind_eq_ok.1 h
  obtain ⟨⟨records, names⟩, hr, h⟩ := bind_eq_ok.1 h
  obtain ⟨⟨typeNames, rest⟩, hn, h⟩ := bind_eq_ok.1 h
  dsimp only at h
  split at h
  · next hrest =>
    cases h
    obtain rfl := List.isEmpty_iff.1 hrest
    exact ⟨after, names, Wire.readU32_ok (lift_ok hv), hcheck, hr, hn⟩
  · cases h

/-- An envelope that is read is the one written for its container, which keeps to the limits and
opens under them. -/
theorem toBytes_of_ofBytes {κ ν : Type} {c : Container} (h : ofBytes limits bs = .ok c) :
    c.toBytes = .ok bs ∧ c.validate limits = .ok () ∧
      ∃ s : Rebuild.Session κ ν, Rebuild.Session.start c limits = .ok s := by
  obtain ⟨after, rest, rfl, hversion, hr, hn⟩ := ofBytes_ok h
  obtain ⟨records, hrecords, rfl⟩ := readRecords_ok hr
  obtain ⟨names, hnames, rfl⟩ := readTypeNames_ok hn
  have hbytes : c.toBytes = .ok (Wire.encodeU32 c.formatVersion ++
      (records ++ (Wire.encodeFlag c.typeNames.isSome ++ (names ++ [])))) := by
    rw [toBytes, hrecords, hnames]
    simp [bind, Except.bind]
  -- The checks of the reader between the fields are those of the validator.
  rw [readRecords_append limits hrecords] at hr
  rw [readTypeNames_append limits hnames] at hn
  obtain ⟨⟨⟩, hcheckRecords, -⟩ := map_eq_ok.1 hr
  obtain ⟨⟨⟩, hcheckNames, -⟩ := map_eq_ok.1 hn
  have hvalid : c.validate limits = .ok () := by
    simp only [validate, hversion, hcheckRecords, hcheckNames, bind, Except.bind]
  exact ⟨hbytes, hvalid, _, by rw [Rebuild.Session.start, hvalid]⟩

def namedLimits : Limits where
  maxRecords := 2
  maxRecordLen := 3
  maxTypeNameLen := 6

theorem toBytes_of_ofBytes_named : ofBytes namedLimits namedBytes = .ok named ∧
    named.toBytes = .ok namedBytes ∧ named.validate namedLimits = .ok () ∧
    ∃ s : Rebuild.Session Unit Unit, Rebuild.Session.start named namedLimits = .ok s := by
  have hread : ofBytes namedLimits namedBytes = .ok named := by decide +kernel
  exact ⟨hread, toBytes_of_ofBytes hread⟩

end ObjectGraph.Container
