import ObjectGraph.Container.Envelope
import ObjectGraph.Proofs.Wire.Fields

/-! Limits are checked twice, by the validator over the tables of a container and by the reader
between the fields of an envelope. The two agree: the envelope of a container is read as that
container when the validator admits it, and is refused with the validator's error otherwise
(`ofBytes_toBytes`). -/
namespace ObjectGraph.Container

section Table

variable {α : Type} {encode : α → Except Wire.Error Bytes} {read : Wire.Read α} {size : α → Nat}
  {limit : Nat} {tooLarge : (index len limit : Nat) → Error}

/-- What was written is read again and the bytes behind it are left, unless it is longer than the
limit. What is left unread after that does not matter, since nothing more of the table is read. -/
def Restores (encode : α → Except Wire.Error Bytes) (read : Wire.Read α) (size : α → Nat)
    (limit : Nat) : Prop :=
  ∀ ⦃x front⦄, encode x = .ok front → ∀ rest, ∃ left, read (front ++ rest) =
    if limit < size x then (.error (.lengthTooLarge (size x) limit), left) else (.ok x, rest)

theorem restores_bytes : Restores Wire.encodeBytes (Wire.readBytes limit) List.length limit :=
  fun _ _ h rest => ⟨_, Wire.readBytes_append h limit rest⟩

theorem restores_text {bound : Nat} : Restores (Wire.encodeText bound) (Wire.readText limit)
    (fun s => (Utf8.ofString s).length) limit :=
  fun _ _ h rest => ⟨_, Wire.readText_append h limit rest⟩

/-- The check of some lengths that starts at a position: the first above the limit is the fault. -/
def checkLengths (tooLarge : (index len limit : Nat) → Error) (limit : Nat) :
    (index : Nat) → List Nat → Except Error Unit
  | _, [] => .ok ()
  | index, len :: lengths =>
      if limit < len then .error (tooLarge index len limit)
      else checkLengths tooLarge limit (index + 1) lengths

theorem checkLengths_eq (index : Nat) (lengths : List Nat) :
    checkLengths tooLarge limit index lengths =
      match (lengths.zipIdx index).find? fun (len, _) => limit < len with
      | some (len, index) => .error (tooLarge index len limit)
      | none => .ok () := by
  induction lengths generalizing index with
  | nil => rfl
  | cons len lengths ih =>
    rw [checkLengths, List.zipIdx_cons, List.find?_cons]
    by_cases hl : limit < len
    · simp only [hl, if_true, decide_true]
    · simp only [hl, if_false, decide_false, ih]

theorem checkLengths_firstAbove (lengths : List Nat) : checkLengths tooLarge limit 0 lengths =
    match firstAbove limit lengths with
    | some (index, len) => .error (tooLarge index len limit)
    | none => .ok () := by
  rw [checkLengths_eq, firstAbove]
  cases (lengths.zipIdx 0).find? fun (len, _) => limit < len <;> rfl

theorem encodeAll_ok {xs : List α} {done : List Bytes} {bs : Bytes}
    (h : encodeAll encode xs done = .ok bs) :
    ∃ parts, List.Forall₂ (fun x part => encode x = .ok part) xs parts ∧
      bs = done.reverse.flatten ++ parts.flatten := by
  induction xs generalizing done with
  | nil =>
    simp only [encodeAll, Except.ok.injEq] at h
    exact ⟨[], .nil, by simp [h]⟩
  | cons x xs ih =>
    simp only [encodeAll] at h
    split at h
    · cases h
    · next part hx =>
      obtain ⟨parts, hp, rfl⟩ := ih h
      exact ⟨part :: parts, .cons hx hp, by simp⟩

theorem encodeTable_ok {xs : List α} {bs : Bytes} (h : encodeTable encode xs = .ok bs) :
    ∃ (count : UInt32) (parts : List Bytes), count.toNat = xs.length ∧
      List.Forall₂ (fun x part => encode x = .ok part) xs parts ∧
      bs = Wire.encodeU32 count ++ parts.flatten := by
  unfold encodeTable at h
  obtain ⟨front, hf, h⟩ := bind_eq_ok.1 h
  obtain ⟨body, hb, h⟩ := bind_eq_ok.1 h
  cases h
  obtain ⟨count, hcount, rfl⟩ := Wire.encodeCount_ok (mapError_eq_ok.1 hf)
  obtain ⟨parts, hp, rfl⟩ := encodeAll_ok hb
  exact ⟨count, parts, hcount, hp, rfl⟩

/-- The entries of a table are read one after another up to the first that is above the limit. -/
theorem readEntries_flatten (hr : Restores encode read size limit) {xs : List α}
    {parts : List Bytes} (h : List.Forall₂ (fun x part => encode x = .ok part) xs parts)
    (index : Nat) (rest : Bytes) (done : List α) :
    readEntries read tooLarge xs.length index (parts.flatten ++ rest) done =
      (checkLengths tooLarge limit index (xs.map size)).map fun _ =>
        (done.reverse ++ xs, rest) := by
  -- The reader and the check walk the entries together and stop at the same one.
  induction h generalizing index done with
  | nil =>
    rw [List.append_nil]
    rfl
  | @cons x part xs parts hx _ ih =>
    obtain ⟨left, hread⟩ := hr hx (parts.flatten ++ rest)
    rw [List.length_cons, readEntries, List.flatten_cons, List.append_assoc, hread, List.map_cons,
      checkLengths]
    by_cases hl : limit < size x
    · rw [if_pos hl, if_pos hl]
      rfl
    · rw [if_neg hl, if_neg hl]
      dsimp only [liftEntry, lift]
      rw [ih, List.reverse_cons, List.append_assoc]
      rfl

end Table

variable (limits : Limits)

theorem checkRecords_eq (records : List Bytes) : checkRecords limits records =
    if limits.maxRecords.toNat < records.length then
      .error (.tooManyRecords records.length limits.maxRecords)
    else checkLengths .recordTooLarge limits.maxRecordLen.toNat 0 (records.map List.length) := by
  rw [checkLengths_firstAbove]
  rfl

theorem readRecords_append {records : List Bytes} {bs : Bytes}
    (h : encodeTable Wire.encodeBytes records = .ok bs) (rest : Bytes) :
    readRecords limits (bs ++ rest) =
      (checkRecords limits records).map fun _ => (records, rest) := by
  obtain ⟨count, parts, hcount, hp, rfl⟩ := encodeTable_ok h
  rw [checkRecords_eq, readRecords, List.append_assoc, Wire.readU32_append]
  dsimp only [lift, bind, Except.bind]
  simp only [UInt32.lt_iff_toNat_lt, hcount]
  by_cases hl : limits.maxRecords.toNat < records.length
  · rw [if_pos hl, if_pos hl]
    rfl
  · rw [if_neg hl, if_neg hl]
    exact readEntries_flatten restores_bytes hp 0 rest []

theorem checkTypeNames_eq (records : Nat) (names : List String) :
    checkTypeNames limits records (some names) =
      if names.length ≠ records then .error (.typeNameCount names.length records)
      else checkLengths .typeNameTooLong limits.maxTypeNameLen.toNat 0
        (names.map fun name => (Utf8.ofString name).length) := by
  rw [checkLengths_firstAbove]
  rfl

theorem readTypeNames_append {names : Option (List String)} {bs : Bytes}
    (h : encodeTypeNames names = .ok bs) (records : Nat) (rest : Bytes) :
    readTypeNames limits records (Wire.encodeFlag names.isSome ++ (bs ++ rest)) =
      (checkTypeNames limits records names).map fun _ => (names, rest) := by
  rw [readTypeNames, Wire.readFlag_append]
  cases names with
  | none =>
    cases h
    rfl
  | some names =>
    obtain ⟨count, parts, hcount, hp, rfl⟩ := encodeTable_ok h
    dsimp only [lift, bind, Except.bind, Option.isSome, ↓reduceIte]
    rw [List.append_assoc, Wire.readU32_append, checkTypeNames_eq]
    dsimp only
    rw [hcount]
    by_cases hn : names.length ≠ records
    · rw [if_pos hn, if_pos hn]
      rfl
    · rw [if_neg hn, if_neg hn, readEntries_flatten restores_text hp 0 rest []]
      cases checkLengths _ _ _ _ <;> rfl

theorem toBytes_ok {c : Container} {bs : Bytes} (h : c.toBytes = .ok bs) :
    ∃ records names, encodeTable Wire.encodeBytes c.records = .ok records ∧
      encodeTypeNames c.typeNames = .ok names ∧
      bs = Wire.encodeU32 c.formatVersion ++ records ++ Wire.encodeFlag c.typeNames.isSome ++
        names := by
  unfold toBytes at h
  obtain ⟨records, hr, h⟩ := bind_eq_ok.1 h
  obtain ⟨names, hn, h⟩ := bind_eq_ok.1 h
  cases h
  exact ⟨records, names, hr, hn, rfl⟩

/-- The envelope of a container is read as that container, if the validator admits it, and otherwise
refused with the validator's error. -/
theorem ofBytes_toBytes {c : Container} {bs : Bytes} (h : c.toBytes = .ok bs) :
    ofBytes limits bs = (c.validate limits).map fun _ => c := by
  obtain ⟨records, names, hr, hn, rfl⟩ := toBytes_ok h
  rw [ofBytes, List.append_assoc, List.append_assoc, Wire.readU32_append]
  dsimp only [lift, bind, Except.bind, validate]
  cases checkVersion c.formatVersion with
  | error e => rfl
  | ok _ =>
    dsimp only
    rw [readRecords_append limits hr]
    cases checkRecords limits c.records with
    | error e => rfl
    | ok _ =>
      have hnames := readTypeNames_append limits hn c.records.length []
      rw [List.append_nil] at hnames
      dsimp only [Except.map]
      rw [hnames]
      cases checkTypeNames limits c.records.length c.typeNames <;> rfl

def named : Container where
  records := [[0xa0], [1, 2, 3]]
  typeNames := some ["Peer", "Déjà"]

def namedBytes : Bytes :=
  [1, 0, 0, 0, 2, 0, 0, 0, 1, 0, 0, 0, 0xa0, 3, 0, 0, 0, 1, 2, 3, 1, 2, 0, 0, 0, 4, 0, 0, 0,
    0x50, 0x65, 0x65, 0x72, 6, 0, 0, 0, 0x44, 0xc3, 0xa9, 0x6a, 0xc3, 0xa0]

theorem ofBytes_toBytes_named :
    named.toBytes = .ok namedBytes ∧ ofBytes {} namedBytes = .ok named ∧
    ofBytes { maxRecordLen := 2, maxTypeNameLen := 0 } namedBytes =
      .error (.recordTooLarge 1 3 2) ∧
    ofBytes { maxTypeNameLen := 5 } namedBytes = .error (.typeNameTooLong 1 6 5) := by
  have hbytes : named.toBytes = .ok namedBytes := rfl
  refine ⟨hbytes, ?_, ?_, ?_⟩
  · rw [ofBytes_toBytes _ hbytes]
    rfl
  · rw [ofBytes_toBytes _ hbytes]
    rfl
  · rw [ofBytes_toBytes _ hbytes]
    rfl

end ObjectGraph.Container
