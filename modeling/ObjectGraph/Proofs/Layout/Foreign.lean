import ObjectGraph.Encoding
import ObjectGraph.Proofs.Json.Skip
import ObjectGraph.Proofs.Layout.Objects
import ObjectGraph.Proofs.Outcomes

/-! Records read as those of another type. Fields that the other type does not have are passed over,
so where it needs one that the record lacks nothing is read (`Encoding.decode_of_lacks`). -/
namespace ObjectGraph

namespace Field

theorem isRead_noSlots (name : String) (fs : List Field) : isRead name fs (noSlots fs) = false := by
  induction fs with
  | nil => rfl
  | cons f fs ih =>
    simp only [noSlots, isRead]
    split
    · rfl
    · exact ih

/-- What is read goes into the slot of its name, by the type of that field. -/
theorem readNamed_ok {ε σ : Type} {read : (s : Shape) → Except ε (s.Val × σ)} {name : String}
    {fs : List Field} {slots slots' : Slots fs} {state : σ}
    (h : readNamed read name fs slots = some (.ok (slots', state))) :
    (∃ f ∈ fs, f.name = name ∧ ∃ x, read f.shape = .ok (x, state)) ∧
      ∀ other, other ≠ name → isRead other fs slots' = isRead other fs slots := by
  induction fs with
  | nil => cases h
  | cons f fs ih =>
    obtain ⟨slot, slots⟩ := slots
    simp only [readNamed] at h
    split at h
    · next hn =>
      rcases hr : read f.shape with e | ⟨x, state'⟩ <;> rw [hr] at h <;> cases h
      refine ⟨⟨f, by simp, hn, x, hr⟩, fun other ho => ?_⟩
      have hne : f.name ≠ other := fun he => ho (he ▸ hn)
      simp only [isRead, if_neg hne]
    · rcases hr : readNamed read name fs slots with _ | (e | ⟨slots'', state'⟩) <;> rw [hr] at h <;>
        cases h
      obtain ⟨⟨g, hg, hname, hread⟩, hothers⟩ := ih hr
      refine ⟨⟨g, List.mem_cons_of_mem _ hg, hname, hread⟩, fun other ho => ?_⟩
      simp only [isRead, hothers other ho]

/-- A record does not close without a field that must not be left out. -/
theorem close_of_unread {fs : List Field} (hd : (fs.map Field.name).Nodup) {f : Field} (hf : f ∈ fs)
    (hr : f.leftOut? = none) {slots : Slots fs} (hs : isRead f.name fs slots = false)
    (xs : Vals fs) : close fs slots ≠ .ok xs := by
  induction fs with
  | nil => cases hf
  | cons g fs ih =>
    obtain ⟨slot, slots⟩ := slots
    rw [List.map_cons, List.nodup_cons] at hd
    simp only [isRead] at hs
    simp only [close]
    intro h
    rcases List.mem_cons.1 hf with rfl | hf
    · rw [if_pos rfl] at hs
      cases slot with
      | some x => cases hs
      | none =>
        rw [hr] at h
        cases h
    · have hne : g.name ≠ f.name := fun he => hd.1 (he ▸ List.mem_map_of_mem hf)
      rw [if_neg hne] at hs
      cases hg : slot <|> g.leftOut? with
      | none =>
        rw [hg] at h
        cases h
      | some x =>
        rw [hg] at h
        obtain ⟨ys, hys, -⟩ := map_eq_ok.1 h
        exact ih hd.2 hf hs ys hys

end Field

namespace Shape

open Json (Ends followers skipOpen)

/-- What is left to skip behind the first bytes of a value: nothing, or its rest. How much fuel is
left behind it depends on the text. -/
def SkipsTo (written rest : Bytes) : Prop :=
  ∃ opened more, skipOpen.skipScalar (written ++ rest) = .ok (opened, more) ∧
    ∀ fuel outer left, skipOpen fuel (opened ++ outer) (!opened.isEmpty) more = .ok left →
      ∃ fuel', skipOpen fuel' outer false rest = .ok left

theorem SkipsTo.of_scalar {written rest : Bytes}
    (h : skipOpen.skipScalar (written ++ rest) = .ok ([], rest)) : SkipsTo written rest :=
  ⟨[], rest, h, fun fuel _ _ hs => ⟨fuel, hs⟩⟩

theorem skipOpen_followers {items : List Bytes} {rest : Bytes}
    (hi : ∀ item ∈ items, Json.Opens item ∧ ∀ rest, Ends rest → SkipsTo item rest)
    {fuel : Nat} {outer : List Json.Bracket} {left : Bytes}
    (h : skipOpen fuel (.array :: outer) false (followers items ++ 0x5d :: rest) = .ok left) :
    ∃ fuel', skipOpen fuel' outer false rest = .ok left := by
  induction items generalizing fuel with
  | nil =>
    cases fuel with
    | zero => cases h
    | succ fuel => exact ⟨fuel, h⟩
  | cons item items ih =>
    obtain ⟨hopens, hskips⟩ := hi item (by simp)
    cases fuel with
    | zero => cases h
    | succ fuel =>
      have hends : Ends (followers items ++ 0x5d :: rest) := Json.ends_followers _ ⟨rfl, rfl⟩
      obtain ⟨opened, more, hscalar, hmore⟩ := hskips _ hends
      rw [Json.followers_cons, skipOpen, Json.nextElement_comma hopens] at h
      simp only [hscalar, bind, Except.bind] at h
      obtain ⟨fuel', hfuel'⟩ := hmore _ _ _ h
      exact ih (fun other ho => hi other (by simp [ho])) hfuel'

theorem skipsTo_array {items : List Bytes}
    (hi : ∀ item ∈ items, Json.Opens item ∧ ∀ rest, Ends rest → SkipsTo item rest) (rest : Bytes) :
    SkipsTo (Json.between [0x5b] [0x5d] items) rest := by
  cases items with
  | nil =>
    refine ⟨[.array], 0x5d :: rest, rfl, fun fuel outer left h => ?_⟩
    cases fuel with
    | zero => cases h
    | succ fuel => exact ⟨fuel, h⟩
  | cons item items =>
    obtain ⟨hopens, hskips⟩ := hi item (by simp)
    have hends : Ends (followers items ++ 0x5d :: rest) := Json.ends_followers _ ⟨rfl, rfl⟩
    obtain ⟨opened, more, hscalar, hmore⟩ := hskips _ hends
    refine ⟨[.array], item ++ (followers items ++ 0x5d :: rest), ?_, fun fuel outer left h => ?_⟩
    · rw [Json.between_cons]
      simp only [List.cons_append, List.nil_append, List.append_assoc]
      rfl
    · cases fuel with
      | zero => cases h
      | succ fuel =>
        simp only [List.singleton_append, List.isEmpty_cons, Bool.not_false] at h
        rw [skipOpen, Json.nextElement_first hopens] at h
        simp only [hscalar, bind, Except.bind] at h
        obtain ⟨fuel', hfuel'⟩ := hmore _ _ _ h
        exact skipOpen_followers (fun other ho => hi other (by simp [ho])) hfuel'

theorem skipScalar_writeString (s : String) (rest : Bytes) :
    skipOpen.skipScalar (Json.writeString s ++ rest) = .ok ([], rest) := by
  rw [Json.writeString_append, skipOpen.skipScalar, Json.skipBlanks_cons rfl]
  have hquote : Json.startsNumber 0x22 = false := rfl
  simp only [hquote, Json.skipString_written]
  rfl

theorem skipScalar_writeInt (n : Int) {rest : Bytes} (hr : Ends rest) :
    skipOpen.skipScalar (Json.writeInt n ++ rest) = .ok ([], rest) := by
  have hskip := Json.skipNumber_writeInt n hr
  obtain ⟨b, more, he, hstart⟩ := Json.writeInt_cons n
  rw [he, List.cons_append] at hskip ⊢
  have hletters : b ≠ 0x6e ∧ b ≠ 0x74 ∧ b ≠ 0x66 := by
    refine ⟨?_, ?_, ?_⟩ <;> rintro rfl <;> exact absurd hstart (by decide)
  rw [skipOpen.skipScalar, Json.skipBlanks_cons (Json.isBlank_of_startsNumber hstart).1]
  simp only [if_neg hletters.1, if_neg hletters.2.1, if_neg hletters.2.2, if_pos hstart, hskip]
  rfl

/-- A written value is skipped, as far as the skipping does not fail. -/
theorem skipsTo_toJson (s : Shape) (x : s.Val) {rest : Bytes} (hr : Ends rest) :
    SkipsTo (s.toJson x) rest := by
  induction s generalizing rest with
  | text => exact .of_scalar (skipScalar_writeString x rest)
  | bool =>
    cases x with
    | false =>
      simp only [toJson, ofString_false, Bool.false_eq_true, if_false]
      exact .of_scalar rfl
    | true =>
      simp only [toJson, ofString_true, if_true]
      exact .of_scalar rfl
  | word w => exact .of_scalar (skipScalar_writeInt (w.toInt x) hr)
  | list item ih =>
    refine skipsTo_array (fun written hw => ?_) rest
    obtain ⟨y, -, rfl⟩ := List.mem_map.1 hw
    exact ⟨opens_toJson item y, fun more hm => ih y hm⟩
  | optional item ih =>
    cases x with
    | none =>
      simp only [toJson, ofString_null]
      exact .of_scalar rfl
    | some x => exact ih x hr

theorem skipValue_toJson (s : Shape) (x : s.Val) {rest left : Bytes} (hr : Ends rest)
    (h : Json.skipValue (s.toJson x ++ rest) = .ok left) : left = rest := by
  obtain ⟨opened, more, hscalar, hmore⟩ := skipsTo_toJson s x hr
  simp only [Json.skipValue, hscalar, bind, Except.bind] at h
  have hskip : skipOpen ((s.toJson x ++ rest).length + 1) (opened ++ []) (!opened.isEmpty) more =
      .ok left := by
    rw [List.append_nil]
    cases opened with
    | nil => exact h
    | cons bracket opened => exact h
  obtain ⟨fuel, hfuel⟩ := hmore _ _ _ hskip
  cases fuel <;> exact (Except.ok.inj hfuel).symm

/-- What a reader of the same type leaves of a written value. -/
theorem rest_of_readJson {s s' : Shape} (he : s' = s) (h : s.Faithful) (x : s.Val)
    {rest left : Bytes} (hr : Ends rest) {y : s'.Val}
    (hread : s'.readJson (s.toJson x ++ rest) = .ok (y, left)) : left = rest := by
  subst he
  rw [(readJson_toJson h).reads x rest hr] at hread
  cases hread
  rfl

end Shape

namespace Layout

variable {l l' : Layout}

/-- Records of the first type lack a field that the second needs. What fields they share is of one
type. -/
structure Lacks (l l' : Layout) : Prop where
  shapes : ∀ f ∈ l.fields, ∀ g ∈ l'.fields, g.name = f.name → g.shape = f.shape
  missing : ∃ g ∈ l'.fields, g.name ∉ l.fields.map Field.name ∧ g.leftOut? = none

/-- Where it can be read, one member leaves the slots of other names as they are. -/
theorem readMembers_step (hl : l.Faithful) (hx : l.Lacks l') (xs : l.Val)
    {cell : String × (s : Shape) × s.Val} (hc : cell ∈ Field.cells l.fields xs) {first : Bool}
    {bs rest : Bytes} (hrest : Json.Ends rest)
    (hkey : Json.nextKey first bs =
      .ok (some ((Utf8.ofString cell.1).flatMap Json.writeByte ++ 0x22 ::
        (0x3a :: (cell.2.1.toJson cell.2.2 ++ rest))))) {fuel : Nat}
    {slots : Field.Slots l'.fields} {end' : Field.Slots l'.fields × Bytes}
    (h : l'.readMembers (fuel + 1) first slots bs = .ok end') :
    ∃ slots', l'.readMembers fuel false slots' rest = .ok end' ∧ ∀ name, name ≠ cell.1 →
      Field.isRead name l'.fields slots' = Field.isRead name l'.fields slots := by
  have hcolon : Json.colon (0x3a :: (cell.2.1.toJson cell.2.2 ++ rest)) =
      .ok (cell.2.1.toJson cell.2.2 ++ rest) := rfl
  rw [readMembers, hkey] at h
  simp only [bind, Except.bind, Json.string_writeString, hcolon] at h
  split at h
  · cases h
  · split at h
    · next step hstep =>
      rcases step with fault | ⟨slots', left⟩
      · cases h
      · obtain ⟨⟨g, hg, hname, x, hread⟩, hothers⟩ := Field.readNamed_ok hstep
        obtain ⟨f, hf, hfname, hfshape⟩ := Field.exists_of_mem_cells xs hc
        have hshape := (hx.shapes f hf g hg (hname.trans hfname.symm)).trans hfshape
        obtain rfl := Shape.rest_of_readJson hshape (hl.shapes_cells xs hc) cell.2.2 hrest hread
        exact ⟨slots', h, hothers⟩
    · split at h
      · cases h
      · rcases hskip : Json.skipValue (cell.2.1.toJson cell.2.2 ++ rest) with fault | left <;>
          rw [hskip] at h
        · cases h
        · obtain rfl := Shape.skipValue_toJson cell.2.1 cell.2.2 hrest hskip
          exact ⟨slots, h, fun _ _ => rfl⟩

/-- Where they can be read, members leave the slots of other names as they are. -/
theorem isRead_readMembers (hl : l.Faithful) (hx : l.Lacks l') (xs : l.Val)
    {cells : List (String × (s : Shape) × s.Val)}
    (hc : ∀ cell ∈ cells, cell ∈ Field.cells l.fields xs) {name : String}
    (hn : name ∉ cells.map Prod.fst) {rest : Bytes} {fuel : Nat}
    {slots : Field.Slots l'.fields} {end' : Field.Slots l'.fields × Bytes}
    (h : l'.readMembers fuel false slots (Json.followers (cells.map member) ++ 0x7d :: rest) =
      .ok end') :
    Field.isRead name l'.fields end'.1 = Field.isRead name l'.fields slots := by
  induction cells generalizing fuel slots with
  | nil =>
    cases fuel with
    | zero => cases h
    | succ fuel =>
      cases h
      rfl
  | cons cell cells ih =>
    cases fuel with
    | zero => cases h
    | succ fuel =>
      simp only [List.map_cons, List.mem_cons, not_or] at hn
      have hends : Json.Ends (Json.followers (cells.map member) ++ 0x7d :: rest) :=
        Json.ends_followers _ ⟨rfl, rfl⟩
      rw [List.map_cons, Json.followers_cons, member_append] at h
      obtain ⟨slots', hrest, hothers⟩ := readMembers_step hl hx xs (hc cell (by simp)) hends rfl h
      rw [ih (fun c hm => hc c (by simp [hm])) hn.2 hrest, hothers name hn.1]

/-- From a document the slot of a name that no field has stays empty. -/
theorem isRead_readMembers_toJson (hl : l.Faithful) (hx : l.Lacks l') (xs : l.Val) {name : String}
    (hn : name ∉ l.fields.map Field.name) {body rest : Bytes}
    (hb : 0x7b :: body = l.toJson xs ++ rest) {fuel : Nat} {end' : Field.Slots l'.fields × Bytes}
    (h : l'.readMembers fuel true (Field.noSlots l'.fields) body = .ok end') :
    Field.isRead name l'.fields end'.1 = false := by
  unfold toJson at hb
  rw [members_eq] at hb
  rw [← Field.names_cells l.fields xs] at hn
  cases fuel with
  | zero => cases h
  | succ fuel =>
    generalize hg : Field.cells l.fields xs = cells at hb hn
    have hcells : ∀ c ∈ cells, c ∈ Field.cells l.fields xs := fun c hm => hg ▸ hm
    cases cells with
    | nil =>
      obtain rfl : body = 0x7d :: rest := (List.cons.inj hb).2
      cases h
      exact Field.isRead_noSlots name l'.fields
    | cons cell cells =>
      simp only [List.map_cons, List.mem_cons, not_or] at hn
      have hends : Json.Ends (Json.followers (cells.map member) ++ 0x7d :: rest) :=
        Json.ends_followers _ ⟨rfl, rfl⟩
      rw [body_eq hb] at h
      obtain ⟨slots', hrest, hothers⟩ :=
        readMembers_step hl hx xs (hcells cell (by simp)) hends (nextKey_member cell _) h
      rw [isRead_readMembers hl hx xs (fun c hm => hcells c (by simp [hm])) hn.2 hrest,
        hothers name hn.1]
      exact Field.isRead_noSlots name l'.fields

/-- A document is not read as a record of a type that needs more. -/
theorem ofJson_of_lacks (hl : l.Faithful) (hl' : l'.Faithful) (hx : l.Lacks l') (xs : l.Val)
    (ys : l'.Val) : (Form.fields l').ofJson (l.toJson xs) ≠ .ok ys := by
  obtain ⟨g, hg, hname, hneeds⟩ := hx.missing
  obtain ⟨body, hb⟩ : ∃ body, (0x7b : UInt8) :: body = l.toJson xs ++ [] := ⟨_, rfl⟩
  intro h
  rw [← List.append_nil (l.toJson xs), ← hb] at h
  simp only [Form.ofJson, Form.readJson, readJson] at h
  rw [Json.skipBlanks_cons rfl] at h
  rcases hm : l'.readMembers (body.length + 1) true (Field.noSlots l'.fields) body with
    fault | ⟨slots, rest⟩
  · simp [hm, bind, Except.bind] at h
  · have hunread := isRead_readMembers_toJson hl hx xs hname hb hm
    rcases hc : Field.close l'.fields slots with missing | zs
    · simp [hm, hc, bind, Except.bind] at h
    · exact Field.close_of_unread hl'.names hg hneeds hunread zs hc

/-- Entries of other keys leave the slot of a name as it is. -/
theorem isRead_ofEntries {es : List (Cbor.Value × Cbor.Value)} {name : String}
    (hn : ∀ e ∈ es, e.1 ≠ .text name) {slots slots' : Field.Slots l'.fields}
    (h : l'.ofEntries es slots = .ok slots') :
    Field.isRead name l'.fields slots' = Field.isRead name l'.fields slots := by
  induction es generalizing slots with
  | nil =>
    cases h
    rfl
  | cons e es ih =>
    have hrest : ∀ c ∈ es, c.1 ≠ .text name := fun c hc => hn c (by simp [hc])
    have hne := hn e (by simp)
    obtain ⟨key, v⟩ := e
    cases key with
    | text key =>
      simp only [ofEntries] at h
      split at h
      · cases h
      · split at h
        · cases h
        · next slots₁ hstep =>
          have hothers := (Field.readNamed_ok hstep).2
          rw [ih hrest h, hothers name fun he => hne (by rw [he])]
        · split at h
          · cases h
          · exact ih hrest h
    | _ => cases h

/-- A map is not read as a record of a type that needs more. -/
theorem ofCbor_of_lacks (hl' : l'.Faithful) (hx : l.Lacks l') (xs : l.Val) {v : Cbor.Value}
    (hv : Cbor.Settles (l.toCbor xs) v) (ys : l'.Val) : l'.ofCbor v ≠ .ok ys := by
  obtain ⟨g, hg, hname, hneeds⟩ := hx.missing
  obtain ⟨cells, rfl, hperm⟩ := exists_cells_of_settles hv
  have hkeys : ∀ e ∈ cells.map cellEntry, e.1 ≠ .text g.name := by
    intro e he hkey
    obtain ⟨cell, hcell, rfl⟩ := List.mem_map.1 he
    obtain ⟨f, hf, hfname, -⟩ := Field.exists_of_mem_cells xs (hperm.subset hcell)
    have hsame : cell.1 = g.name := Cbor.Value.text.inj hkey
    exact hname (List.mem_map.2 ⟨f, hf, hfname.trans hsame⟩)
  intro h
  simp only [ofCbor] at h
  rcases hm : l'.ofEntries (cells.map cellEntry) (Field.noSlots l'.fields) with fault | slots
  · simp [hm, bind, Except.bind] at h
  · have hunread := (isRead_ofEntries hkeys hm).trans (Field.isRead_noSlots g.name l'.fields)
    rcases hc : Field.close l'.fields slots with missing | zs
    · simp [hm, hc, bind, Except.bind, Except.mapError] at h
    · exact Field.close_of_unread hl'.names hg hneeds hunread zs hc

end Layout

/-- The bytes of a record are not read as one of a type that needs more. -/
theorem Encoding.decode_of_lacks {e : Encoding} {l l' : Layout} (hl : l.Faithful)
    (hl' : l'.Faithful) (hx : l.Lacks l') {xs : l.Val} {bs : Bytes}
    (h : e.encode (.fields l) xs = .ok bs) (hb : bs.length < 2 ^ 64) (ys : l'.Val) :
    e.decode (.fields l') bs ≠ .ok ys := by
  intro hread
  cases e with
  | cbor =>
    have hbytes : Cbor.encode (l.toCbor xs) = .ok bs := mapError_eq_ok.1 h
    obtain ⟨v, hv, hd⟩ := Cbor.decode_encode hbytes (Layout.readable_toCbor l xs) hb
    obtain ⟨v', hv', hform⟩ := bind_eq_ok.1 hread
    obtain rfl : v' = v := Except.ok.inj ((mapError_eq_ok.1 hv').symm.trans hd)
    exact Layout.ofCbor_of_lacks hl' hx xs hv ys (mapError_eq_ok.1 hform)
  | json =>
    obtain rfl : l.toJson xs = bs := Except.ok.inj h
    exact Layout.ofJson_of_lacks hl hl' hx xs ys (mapError_eq_ok.1 hread)

end ObjectGraph
