import Mathlib.Data.List.Perm.Subperm
import ObjectGraph.Proofs.Layout.Json

/-! Objects as JSON texts, with members in any order, names in any spelling and blanks between any
two words (`Layout.ObjectText`). An object that lists some fields of a record is read as those
fields, with what may be left out for the others (`Layout.ofJson_objectText`); the compact form of a
record is such an object, and so is the one with a member a line. -/
namespace ObjectGraph

namespace Json

theorem nextKey_name {ws : Bytes} (h : Blanks ws) (key : Bytes) :
    nextKey true (ws ++ 0x22 :: key) = .ok (some key) := by
  rw [nextKey, skipBlanks_append h, skipBlanks_cons rfl]
  rfl

theorem nextKey_comma {vs ws : Bytes} (h : Blanks vs) (h' : Blanks ws) (key : Bytes) :
    nextKey false (vs ++ 0x2c :: (ws ++ 0x22 :: key)) = .ok (some key) := by
  have hkey : skipBlanks (ws ++ 0x22 :: key) = 0x22 :: key := by
    rw [skipBlanks_append h', skipBlanks_cons rfl]
  rw [nextKey, skipBlanks_append h, skipBlanks_cons rfl]
  simp [hkey]

theorem nextKey_end {ws : Bytes} (h : Blanks ws) (first : Bool) (rest : Bytes) :
    nextKey first (ws ++ 0x7d :: rest) = .ok none := by
  rw [nextKey, skipBlanks_append h, skipBlanks_cons rfl]
  rfl

theorem colon_padded {ws : Bytes} (h : Blanks ws) (rest : Bytes) :
    colon (ws ++ 0x3a :: rest) = .ok rest := by
  rw [colon, skipBlanks_append h, skipBlanks_cons rfl]
  rfl

theorem endObject_padded {ws : Bytes} (h : Blanks ws) (rest : Bytes) :
    endObject (ws ++ 0x7d :: rest) = .ok rest := by
  rw [endObject, skipBlanks_append h, skipBlanks_cons rfl]
  rfl

end Json

namespace Layout

/-- A member of an object: a name in some spelling, a colon and a value, with blanks around each. -/
inductive MemberText (cell : String × (s : Shape) × s.Val) : Bytes → Prop
  | mk {before name behind beforeValue behindValue : Bytes} : Json.Blanks before →
      Json.Spells name (Utf8.ofString cell.1) → Json.Blanks behind → Json.Blanks beforeValue →
      Json.Blanks behindValue →
      MemberText cell (before ++ 0x22 :: (name ++ 0x22 :: (behind ++ 0x3a :: (beforeValue ++
        (cell.2.1.toJson cell.2.2 ++ behindValue)))))

/-- A document that is an object with just these members, in this order. -/
inductive ObjectText (cells : List (String × (s : Shape) × s.Val)) : Bytes → Prop
  | mk {texts : List Bytes} {before closing behind : Bytes} :
      List.Forall₂ MemberText cells texts → Json.Blanks before → Json.Blanks closing →
      Json.Blanks behind →
      ObjectText cells (before ++ (Json.between [0x7b] (closing ++ [0x7d]) texts ++ behind))

variable {l : Layout} {xs : l.Val} {cell : String × (s : Shape) × s.Val}
  {cells : List (String × (s : Shape) × s.Val)}

/-- One member of an object, once its name has been found. -/
theorem readMembers_member (hl : l.Faithful) (hc : cell ∈ Field.cells l.fields xs)
    (read : String → Bool) (hr : read cell.1 = false) {first : Bool}
    {bs name behind beforeValue rest : Bytes} (hname : Json.Spells name (Utf8.ofString cell.1))
    (hbehind : Json.Blanks behind) (hbefore : Json.Blanks beforeValue) (hrest : Json.Ends rest)
    (hkey : Json.nextKey first bs = .ok (some (name ++ 0x22 :: (behind ++ 0x3a :: (beforeValue ++
      (cell.2.1.toJson cell.2.2 ++ rest)))))) (fuel : Nat) :
    l.readMembers (fuel + 1) first (Field.slotsOf read l.fields xs) bs =
      l.readMembers fuel false
        (Field.slotsOf (fun other => other = cell.1 || read other) l.fields xs) rest := by
  have hcolon := Json.colon_padded hbehind (beforeValue ++ (cell.2.1.toJson cell.2.2 ++ rest))
  have hvalue := Shape.readJson_padded (hl.shapes_cells xs hc) cell.2.2 hbefore hrest
  have hnamed := Field.readNamed_slotsOf
    (fun s => Json.colon (behind ++ 0x3a :: (beforeValue ++ (cell.2.1.toJson cell.2.2 ++ rest))) >>=
      s.readJson)
    read hl.names xs hc (by rw [hcolon]; exact hvalue)
  rw [readMembers, hkey]
  simp only [bind, Except.bind] at hnamed ⊢
  simp only [Json.string_spelled hname, Field.isRead_slotsOf xs hr, hnamed, Bool.false_eq_true,
    if_false]

/-- Members of different fields are read one after another, up to the end of the object. -/
theorem readMembers_followers (hl : l.Faithful) {texts : List Bytes}
    (ht : List.Forall₂ MemberText cells texts) (hc : ∀ cell ∈ cells, cell ∈ Field.cells l.fields xs)
    (hd : (cells.map Prod.fst).Nodup) (read : String → Bool)
    (hr : ∀ cell ∈ cells, read cell.1 = false) {fuel : Nat} (hf : cells.length < fuel)
    {ws closing : Bytes} (hw : Json.Blanks ws) (hclosing : Json.Blanks closing) (rest : Bytes) :
    ∃ left, Json.Blanks left ∧
      l.readMembers fuel false (Field.slotsOf read l.fields xs)
          (ws ++ (Json.followers texts ++ (closing ++ 0x7d :: rest))) =
        .ok (Field.slotsOf (fun name => decide (name ∈ cells.map Prod.fst) || read name)
          l.fields xs, left ++ 0x7d :: rest) := by
  induction ht generalizing read fuel ws with
  | nil =>
    obtain ⟨fuel, rfl, -⟩ := Json.exists_fuel hf
    refine ⟨ws ++ closing, hw.append hclosing, ?_⟩
    rw [readMembers]
    simp only [Json.followers, List.flatMap_nil, List.nil_append, ← List.append_assoc]
    rw [Json.nextKey_end (hw.append hclosing)]
    simp only [List.map_nil, List.not_mem_nil, decide_false, Bool.false_or]
    rfl
  | @cons cell text cells texts hmember ht ih =>
    obtain ⟨fuel, rfl, hfuel⟩ := Json.exists_fuel hf
    rw [List.map_cons, List.nodup_cons] at hd
    cases hmember with
    | @mk before name behind beforeValue behindValue hbefore hname hbehind hvalue hbehindValue =>
      have hends : Json.Ends (Json.followers texts ++ (closing ++ 0x7d :: rest)) :=
        Json.ends_followers texts (hclosing.ends ⟨rfl, rfl⟩)
      have hkey := Json.nextKey_comma hw hbefore (name ++ 0x22 :: (behind ++ 0x3a :: (beforeValue ++
        (cell.2.1.toJson cell.2.2 ++
          (behindValue ++ (Json.followers texts ++ (closing ++ 0x7d :: rest)))))))
      have hstep := readMembers_member hl (hc cell (by simp)) read (hr cell (by simp)) hname hbehind
        hvalue (hbehindValue.ends hends) hkey fuel
      obtain ⟨left, hleft, hread⟩ := ih (fun c hm => hc c (by simp [hm])) hd.2
        (fun other => other = cell.1 || read other) (fun c hm => by
          have hne : c.1 ≠ cell.1 := fun he => hd.1 (he ▸ List.mem_map.2 ⟨c, hm, rfl⟩)
          simp [hne, hr c (by simp [hm])]) hfuel hbehindValue
      refine ⟨left, hleft, ?_⟩
      simp only [Json.followers_cons, List.append_assoc, List.cons_append] at hstep ⊢
      rw [hstep, hread]
      congr 2
      apply Field.slotsOf_congr
      intro name _
      simp only [List.map_cons, List.mem_cons, Bool.decide_or, Bool.or_assoc, Bool.or_left_comm]

/-- The members of an object are read, in whatever order they stand. -/
theorem readMembers_object (hl : l.Faithful) {texts : List Bytes}
    (ht : List.Forall₂ MemberText cells texts) (hc : ∀ cell ∈ cells, cell ∈ Field.cells l.fields xs)
    (hd : (cells.map Prod.fst).Nodup) {body closing rest : Bytes} (hclosing : Json.Blanks closing)
    (hb : 0x7b :: body = Json.between [0x7b] (closing ++ [0x7d]) texts ++ rest) {fuel : Nat}
    (hf : body.length < fuel) :
    ∃ left, Json.Blanks left ∧ l.readMembers fuel true (Field.noSlots l.fields) body =
      .ok (Field.slotsOf (fun name => decide (name ∈ cells.map Prod.fst)) l.fields xs,
        left ++ 0x7d :: rest) := by
  obtain ⟨fuel, rfl, hf⟩ := Json.exists_fuel hf
  rw [Field.noSlots_eq l.fields xs]
  cases ht with
  | nil =>
    obtain rfl : body = closing ++ 0x7d :: rest := by simpa [Json.between] using hb
    refine ⟨closing, hclosing, ?_⟩
    rw [readMembers, Json.nextKey_end hclosing]
    simp only [List.map_nil, List.not_mem_nil, decide_false]
    rfl
  | @cons cell text cells texts hmember ht =>
    rw [List.map_cons, List.nodup_cons] at hd
    obtain rfl : body = text ++ (Json.followers texts ++ (closing ++ 0x7d :: rest)) := by
      simpa [Json.between_cons] using hb
    cases hmember with
    | @mk before name behind beforeValue behindValue hbefore hname hbehind hvalue hbehindValue =>
      have hends : Json.Ends (Json.followers texts ++ (closing ++ 0x7d :: rest)) :=
        Json.ends_followers texts (hclosing.ends ⟨rfl, rfl⟩)
      have hkey := Json.nextKey_name hbefore (name ++ 0x22 :: (behind ++ 0x3a :: (beforeValue ++
        (cell.2.1.toJson cell.2.2 ++
          (behindValue ++ (Json.followers texts ++ (closing ++ 0x7d :: rest)))))))
      have hstep := readMembers_member hl (hc cell (by simp)) (fun _ => false) rfl hname hbehind
        hvalue (hbehindValue.ends hends) hkey fuel
      have hlen := Json.length_le_followers texts
      have hcount := ht.length_eq
      simp only [List.length_append, List.length_cons] at hf
      obtain ⟨left, hleft, hread⟩ := readMembers_followers hl ht (fun c hm => hc c (by simp [hm])) hd.2
        (fun other => other = cell.1 || false) (fun c hm => by
          have hne : c.1 ≠ cell.1 := fun he => hd.1 (he ▸ List.mem_map.2 ⟨c, hm, rfl⟩)
          simp [hne]) (show cells.length < fuel by omega) hbehindValue hclosing rest
      refine ⟨left, hleft, ?_⟩
      simp only [List.append_assoc, List.cons_append] at hstep ⊢
      rw [hstep, hread]
      congr 2
      apply Field.slotsOf_congr
      intro name _
      simp only [List.map_cons, List.mem_cons, Bool.decide_or, Bool.or_comm, Bool.false_or]

/-- Fields in some order, each at most once, have different names. -/
theorem nodup_names (hl : l.Faithful) (h : cells.Subperm (Field.cells l.fields xs)) :
    (cells.map Prod.fst).Nodup := by
  obtain ⟨moved, hperm, hsub⟩ := h
  have hnames := (hsub.map Prod.fst).nodup (by rw [Field.names_cells]; exact hl.names)
  exact (hperm.map Prod.fst).nodup_iff.1 hnames

/-- An object that lists fields of a record is read as these fields, and what the others are when
they are left out. If one of those must not be left out, it is the fault. -/
theorem ofJson_objectText (hl : l.Faithful) (h : cells.Subperm (Field.cells l.fields xs))
    {bs : Bytes} (hbs : ObjectText cells bs) :
    (Form.fields l).ofJson bs =
      (Field.close l.fields
        (Field.slotsOf (fun name => decide (name ∈ cells.map Prod.fst)) l.fields xs)).mapError
        fun name => .mismatch (.missingField name) := by
  cases hbs with
  | @mk texts before closing behind ht hbefore hclosing hbehind =>
    obtain ⟨body, hb⟩ : ∃ body, (0x7b : UInt8) :: body =
        Json.between [0x7b] (closing ++ [0x7d]) texts ++ behind := ⟨_, rfl⟩
    have hfuel : body.length < (before ++ 0x7b :: body).length := by
      simp only [List.length_append, List.length_cons]
      omega
    obtain ⟨left, hleft, hmembers⟩ := readMembers_object hl ht (fun c hm => h.subset hm)
      (nodup_names hl h) hclosing hb hfuel
    rw [← hb]
    simp only [Form.ofJson, Form.readJson, readJson]
    rw [Json.skipBlanks_append hbefore, Json.skipBlanks_cons rfl]
    simp only [hmembers, bind, Except.bind]
    rcases Field.close l.fields
      (Field.slotsOf (fun name => decide (name ∈ cells.map Prod.fst)) l.fields xs) with name | ys
    · rfl
    · simp only [Json.endObject_padded hleft, Except.mapError]
      simp [Json.skipBlanks_blanks hbehind]

/-- An object that lists all fields of a record is read as the record. -/
theorem ofJson_objectText_of_perm (hl : l.Faithful) (h : cells.Perm (Field.cells l.fields xs))
    {bs : Bytes} (hbs : ObjectText cells bs) : (Form.fields l).ofJson bs = .ok xs := by
  have hnames := h.map Prod.fst
  rw [Field.names_cells] at hnames
  rw [ofJson_objectText hl h.subperm hbs, Field.close_slotsOf _ xs fun name hn => by
    simpa using hnames.mem_iff.2 hn]
  rfl

theorem memberText_written (cell : String × (s : Shape) × s.Val) {before beforeValue : Bytes}
    (hbefore : Json.Blanks before) (hvalue : Json.Blanks beforeValue) :
    MemberText cell (before ++ (Json.writeString cell.1 ++ 0x3a :: beforeValue ++
      cell.2.1.toJson cell.2.2)) := by
  have h := @MemberText.mk cell _ _ _ _ _ hbefore (Json.spells_written (Utf8.ofString cell.1)) .nil
    hvalue .nil
  simpa [Json.writeString] using h

theorem memberTexts_written {before beforeValue : Bytes} (hbefore : Json.Blanks before)
    (hvalue : Json.Blanks beforeValue) (fs : List Field) (xs : Field.Vals fs) :
    List.Forall₂ MemberText (Field.cells fs xs)
      ((members (0x3a :: beforeValue) fs xs).map (before ++ ·)) := by
  induction fs with
  | nil => exact .nil
  | cons f fs ih =>
    exact .cons (memberText_written (f.name, ⟨f.shape, xs.1⟩) hbefore hvalue) (ih xs.2)

theorem objectText_toJson (l : Layout) (xs : l.Val) :
    ObjectText (Field.cells l.fields xs) (l.toJson xs) := by
  have h := ObjectText.mk (memberTexts_written .nil .nil l.fields xs) .nil .nil .nil
  simpa [toJson] using h

theorem objectText_toPrettyJson (l : Layout) (xs : l.Val) :
    ObjectText (Field.cells l.fields xs) (l.toPrettyJson xs) := by
  have hline : Json.Blanks [0x0a] := Json.blanks_of_all rfl
  have hindent : Json.Blanks [0x0a, 0x20, 0x20] := Json.blanks_of_all rfl
  have hspace : Json.Blanks [0x20] := Json.blanks_of_all rfl
  have h := ObjectText.mk (memberTexts_written hindent hspace l.fields xs) .nil hline .nil
  simpa [toPrettyJson] using h

/-- A document is read back as the record it was written from. -/
theorem ofJson_toJson (hl : l.Faithful) (xs : l.Val) : (Form.fields l).ofJson (l.toJson xs) = .ok xs :=
  ofJson_objectText_of_perm hl (.refl _) (objectText_toJson l xs)

end Layout
end ObjectGraph
