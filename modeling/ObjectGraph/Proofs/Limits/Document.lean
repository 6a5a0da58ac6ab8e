import ObjectGraph.Limits.Document
import ObjectGraph.Proofs.Layout.Objects

/-! Limits are read back from the documents written for them, and from any that list some of them in
whatever order: the others keep their defaults, and limits that no session can run under are refused
with the fault that is found in them (`Limits.ofDocument_listing`). -/
namespace ObjectGraph.Limits

theorem faithful_layout : layout.Faithful where
  names := by decide
  shapes f hf := by
    simp only [layout, List.mem_cons, List.not_mem_nil, or_false] at hf
    rcases hf with rfl | rfl | rfl | rfl | rfl <;> trivial

theorem defaults_toFields : Field.Defaults layout.fields (toFields {}) :=
  ⟨rfl, rfl, rfl, rfl, rfl, trivial⟩

/-- The limits with certain names, and the defaults of the others. -/
def withDefaults (limits : Limits) (listed : List String) : Limits where
  maxRecords :=
    if "max_records" ∈ listed then limits.maxRecords else ({} : Limits).maxRecords
  maxRecordLen :=
    if "max_record_len" ∈ listed then limits.maxRecordLen else ({} : Limits).maxRecordLen
  maxTypeNameLen :=
    if "max_type_name_len" ∈ listed then limits.maxTypeNameLen else ({} : Limits).maxTypeNameLen
  maxDepth :=
    if "max_depth" ∈ listed then limits.maxDepth else ({} : Limits).maxDepth
  verifyTypeNames :=
    if "verify_type_names" ∈ listed then limits.verifyTypeNames else ({} : Limits).verifyTypeNames

theorem ofFields_select (limits : Limits) (listed : List String) :
    ofFields (Field.select (fun name => decide (name ∈ listed)) layout.fields limits.toFields
      (toFields {})) = limits.withDefaults listed := by
  simp only [layout, toFields, Field.select, ofFields, withDefaults, decide_eq_true_eq]

def checked (limits : Limits) : Except DocumentError Limits :=
  match limits.validate with
  | .ok () => .ok limits
  | .error fault => .error (.invalid fault)

/-- Reading a document comes down to reading its fields. -/
theorem ofDocument_of_fields {bs : Bytes} {xs : layout.Val}
    (h : (Form.fields layout).ofJson bs = .ok xs) : ofDocument bs = (ofFields xs).checked := by
  simp only [ofDocument, h, checked, Except.mapError, bind, Except.bind]
  rcases (ofFields xs).validate with fault | ⟨⟩ <;> rfl

/-- What is written for limits is read as them, and so is every object that lists some of them, in
any order and spacing, with defaults for the rest. Either is refused where the limits are. -/
theorem ofDocument_listing (limits : Limits) :
    ofDocument limits.toDocument = limits.checked ∧
    ∀ listed : List (String × (s : Shape) × s.Val),
      listed.Subperm (Field.cells layout.fields limits.toFields) →
      ∀ bs, Layout.ObjectText listed bs →
        ofDocument bs = (limits.withDefaults (listed.map Prod.fst)).checked := by
  refine ⟨?_, fun listed hlisted bs hbs => ?_⟩
  · have hwritten := Layout.objectText_toPrettyJson layout limits.toFields
    have hread := Layout.ofJson_objectText_of_perm faithful_layout (.refl _) hwritten
    exact ofDocument_of_fields hread
  · have hread := Layout.ofJson_objectText faithful_layout hlisted hbs
    rw [Field.close_slotsOf_select _ _ defaults_toFields] at hread
    rw [ofDocument_of_fields hread, ofFields_select]

/-- Two fields in the other order, one of them with an escape in its name, out of limits that could
not be used with their number of records. -/
theorem ofDocument_listing_swapped :
    let limits : Limits := { maxRecords := 0, maxDepth := 64, verifyTypeNames := true }
    let listed : List (String × (s : Shape) × s.Val) :=
      [("verify_type_names", ⟨.bool, true⟩), ("max_depth", ⟨.word .size, (64 : UInt64)⟩)]
    let bs := Utf8.ofString
      "\n\x7b\"verify_type_names\":true ,\t\"max\\u005fdepth\": 64\x7d\n"
    listed.Subperm (Field.cells layout.fields limits.toFields) ∧ Layout.ObjectText listed bs ∧
      ofDocument bs = .ok { maxDepth := 64, verifyTypeNames := true } := by
  intro limits listed bs
  have hlisted : listed.Subperm (Field.cells layout.fields limits.toFields) :=
    ⟨[("max_depth", ⟨.word .size, (64 : UInt64)⟩), ("verify_type_names", ⟨.bool, true⟩)],
      .swap _ _ _, .cons _ (.cons _ (.cons _ (.cons_cons _ (.cons_cons _ .slnil))))⟩
  have hquad : Json.Quad [0x30, 0x30, 0x35, 0x66] '_'.toNat :=
    .mk (i := 0) (j := 0) (k := 5) (m := 15) rfl rfl rfl rfl
  have hname := (Json.spells_written (Utf8.ofString "max")).append
    (Json.Spells.number '_' hquad (Json.spells_written (Utf8.ofString "depth")))
  have hspace : Json.Blanks [0x20] := Json.blanks_of_all rfl
  have htab : Json.Blanks [0x09] := Json.blanks_of_all rfl
  have hline : Json.Blanks [0x0a] := Json.blanks_of_all rfl
  have hverify := @Layout.MemberText.mk ("verify_type_names", ⟨.bool, true⟩) _ _ _ _ _ .nil
    (Json.spells_written _) .nil .nil hspace
  have hdepth := @Layout.MemberText.mk ("max_depth", ⟨.word .size, (64 : UInt64)⟩) _ _ _ _ _
    htab hname .nil hspace .nil
  have htext := Layout.ObjectText.mk (.cons hverify (.cons hdepth .nil)) hline .nil hline
  exact ⟨hlisted, htext, (ofDocument_listing limits).2 listed hlisted bs htext⟩

end ObjectGraph.Limits
