import ObjectGraph.Container.Document
import ObjectGraph.Proofs.Catalog.Codec
import ObjectGraph.Proofs.Cbor.Writable
import ObjectGraph.Proofs.Limits.Document

/-! Every record has both byte forms, and is read back from them (`Encoding.exists_bytes`). So it is
for all that is recorded: nodes of the catalog, record numbers, limits and containers
(`Encoding.recorded_survives`). -/
namespace ObjectGraph

open Cbor (Occurs)

namespace Shape

/-- No text or list in the value takes more than 64 bits to count. This is so of every value that a
machine with addresses of 64 bits can hold. -/
def Sized : (s : Shape) → s.Val → Prop
  | .text, x => (Utf8.ofString x).length < 2 ^ 64
  | .list item, xs => xs.length < 2 ^ 64 ∧ ∀ x ∈ xs, item.Sized x
  | .optional _, none => True
  | .optional item, some x => item.Sized x
  | _, _ => True

theorem sized_ofInt (n : Int) : (Cbor.Value.ofInt n).Sized := by
  unfold Cbor.Value.ofInt
  split <;> exact fun w hw => by cases hw; exact Nat.two_pow_pos 64

theorem sized_toCbor {s : Shape} {x : s.Val} (h : s.Sized x) : (s.toCbor x).Sized := by
  induction s with
  | text => exact fun w hw => by cases hw; exact h
  | bool => exact fun w hw => by cases hw; exact Nat.two_pow_pos 64
  | word w => exact sized_ofInt (w.toInt x)
  | list item ih =>
    intro w hw
    cases hw with
    | self =>
      change (x.map item.toCbor).length < 2 ^ 64
      rw [List.length_map]
      exact h.1
    | item hv hw =>
      obtain ⟨y, hy, rfl⟩ := List.mem_map.1 hv
      exact ih (h.2 y hy) w hw
  | optional item ih =>
    cases x with
    | none => exact fun w hw => by cases hw; exact Nat.two_pow_pos 64
    | some x => exact ih h

/-- A value's item holds neither tags nor maps. -/
theorem writable_toCbor (s : Shape) (x : s.Val) {w : Cbor.Value} (h : Occurs w (s.toCbor x)) :
    (∀ number content, w ≠ .tag number content) ∧ ∀ entries, w ≠ .map entries := by
  induction s with
  | text | bool =>
    cases h
    simp [toCbor]
  | word wd =>
    unfold toCbor Cbor.Value.ofInt at h
    split at h <;> cases h <;> simp
  | list item ih =>
    cases h with
    | self => simp [toCbor]
    | item hv hw =>
      obtain ⟨y, -, rfl⟩ := List.mem_map.1 hv
      exact ih y hw
  | optional item ih =>
    cases x with
    | none =>
      cases h
      simp [toCbor]
    | some x => exact ih x h

end Shape

namespace Layout

variable {l : Layout}

/-- None of the counts in a record takes more than 64 bits: of the fields, of the bytes in their
names and of all that their values count. -/
def Sized (l : Layout) (xs : l.Val) : Prop :=
  l.fields.length < 2 ^ 64 ∧ ∀ cell ∈ Field.cells l.fields xs,
    (Utf8.ofString cell.1).length < 2 ^ 64 ∧ cell.2.1.Sized cell.2.2

theorem length_entries (fs : List Field) (xs : Field.Vals fs) :
    (entries fs xs).length = fs.length := by
  induction fs with
  | nil => rfl
  | cons f fs ih => rw [entries, List.length_cons, ih, List.length_cons]

theorem sized_toCbor {xs : l.Val} (h : l.Sized xs) : (l.toCbor xs).Sized := by
  refine Cbor.sized_map (by rw [length_entries]; exact h.1) fun e he => ?_
  rw [entries_eq] at he
  obtain ⟨cell, hcell, rfl⟩ := List.mem_map.1 he
  obtain ⟨hname, hvalue⟩ := h.2 cell hcell
  exact ⟨Shape.sized_toCbor (s := .text) hname, Shape.sized_toCbor hvalue⟩

theorem eq_of_equivalent_text {a b : String} (h : Cbor.Equivalent (.text a) (.text b)) : a = b := by
  cases h
  rfl

/-- Fields of different names are entries whose keys do not mean the same. -/
theorem keysDiffer_entries (hl : l.Faithful) (xs : l.Val) :
    Cbor.KeysDiffer (entries l.fields xs) := by
  have hnames := hl.names
  rw [← Field.names_cells l.fields xs] at hnames
  rw [entries_eq]
  apply List.pairwise_map.2
  apply (List.pairwise_map.1 hnames).imp
  intro cell other hne heq
  exact hne (eq_of_equivalent_text heq)

theorem writable_toCbor (hl : l.Faithful) (xs : l.Val) : (l.toCbor xs).Writable := by
  have hparts : ∀ e ∈ entries l.fields xs, ∀ w, Occurs w e.1 ∨ Occurs w e.2 →
      (∀ number content, w ≠ .tag number content) ∧ ∀ entries, w ≠ .map entries := by
    intro e he w hw
    rw [entries_eq] at he
    obtain ⟨cell, -, rfl⟩ := List.mem_map.1 he
    rcases hw with hw | hw
    · exact Shape.writable_toCbor .text cell.1 hw
    · exact Shape.writable_toCbor cell.2.1 cell.2.2 hw
  constructor
  · intro number content ho
    cases ho with
    | key he ho => exact (hparts _ he _ (.inl ho)).1 _ _ rfl
    | value he ho => exact (hparts _ he _ (.inr ho)).1 _ _ rfl
  · intro es ho
    cases ho with
    | self => exact keysDiffer_entries hl xs
    | key he ho => exact absurd rfl ((hparts _ he _ (.inl ho)).2 es)
    | value he ho => exact absurd rfl ((hparts _ he _ (.inr ho)).2 es)

end Layout

namespace Form

/-- A form each of whose values has bytes of its own. -/
def Faithful : Form → Prop
  | .bare _ => True
  | .fields l => l.Faithful

def Sized : (f : Form) → f.Val → Prop
  | .bare _, _ => True
  | .fields l, xs => l.Sized xs

variable {f : Form} {x : f.Val}

theorem sized_toCbor (h : f.Sized x) : (f.toCbor x).Sized := by
  cases f with
  | bare w => exact Shape.sized_ofInt (w.toInt x)
  | fields l => exact Layout.sized_toCbor h

theorem writable_toCbor (hf : f.Faithful) (x : f.Val) : (f.toCbor x).Writable := by
  cases f with
  | bare w =>
    constructor
    · exact fun number content ho => (Shape.writable_toCbor (.word w) x ho).1 _ _ rfl
    · exact fun entries ho => absurd rfl ((Shape.writable_toCbor (.word w) x ho).2 entries)
  | fields l => exact Layout.writable_toCbor hf x

theorem readable_toCbor (f : Form) (x : f.Val) : Cbor.Readable (f.toCbor x) := by
  cases f with
  | bare w => exact Shape.readable_toCbor (.word w) x
  | fields l => exact Layout.readable_toCbor l x

theorem ofCbor_of_settles (hf : f.Faithful) {v : Cbor.Value}
    (h : Cbor.Settles (f.toCbor x) v) : f.ofCbor v = .ok x := by
  cases f with
  | bare w =>
    obtain rfl := Shape.settles_toCbor (.word w) x h
    exact Shape.ofCbor_toCbor (s := .word w) trivial x
  | fields l => exact Layout.ofCbor_of_settles hf x h

theorem ofJson_toJson (hf : f.Faithful) (x : f.Val) : f.ofJson (f.toJson x) = .ok x := by
  cases f with
  | bare w =>
    have hread := @Json.readWord_writeInt w x [] trivial
    rw [List.append_nil] at hread
    simp only [ofJson, readJson, toJson, Shape.toJson, hread]
    rfl
  | fields l => exact Layout.ofJson_toJson hf x

end Form

namespace Encoding

/-- A value has bytes, and is decoded from them as what it was. -/
theorem exists_bytes {f : Form} (hf : f.Faithful) (x : f.Val) (e : Encoding)
    (hs : e = .cbor → f.Sized x) :
    ∃ bs, e.encode f x = .ok bs ∧ e.decode f bs = .ok x := by
  cases e with
  | cbor =>
    have hsized := Form.sized_toCbor (hs rfl)
    obtain ⟨bs, hbytes⟩ := (Cbor.encode_isOk_iff hsized).1.2 (Form.writable_toCbor hf x)
    obtain ⟨v, hv, hdecode⟩ :=
      Cbor.decode_encode_of_sized hbytes (Form.readable_toCbor f x) hsized
    refine ⟨bs, mapError_eq_ok.2 hbytes, ?_⟩
    apply bind_eq_ok.2
    exact ⟨v, mapError_eq_ok.2 hdecode, mapError_eq_ok.2 (Form.ofCbor_of_settles hf hv)⟩
  | json => exact ⟨f.toJson x, rfl, mapError_eq_ok.2 (Form.ofJson_toJson hf x)⟩

/-- As `exists_bytes`, for values that stand for something else. -/
theorem exists_bytes_of {α : Type} {f : Form} (hf : f.Faithful) {read : f.Val → α} {a : α}
    (x : f.Val) (hx : read x = a) (e : Encoding) (hs : e = .cbor → f.Sized x) :
    ∃ bs, e.encode f x = .ok bs ∧ (e.decode f bs).map read = .ok a := by
  obtain ⟨bs, hbytes, hdecode⟩ := exists_bytes hf x e hs
  exact ⟨bs, hbytes, map_eq_ok.2 ⟨x, hdecode, hx⟩⟩

end Encoding

/-- Limits hold neither texts nor lists. -/
theorem Limits.sized_toFields (limits : Limits) : Limits.layout.Sized limits.toFields := by
  have hnames : ∀ f ∈ Limits.layout.fields, (Utf8.ofString f.name).length < 2 ^ 64 := by
    decide
  refine ⟨by decide, fun cell hcell => ?_⟩
  obtain ⟨f, hf, hname, -⟩ := Field.exists_of_mem_cells _ hcell
  refine ⟨hname ▸ hnames f hf, ?_⟩
  simp only [Limits.layout, toFields, Field.cells, List.mem_cons, List.not_mem_nil, or_false]
    at hcell
  rcases hcell with rfl | rfl | rfl | rfl | rfl <;> trivial

theorem Container.faithful_layout : Container.layout.Faithful where
  names := by decide
  shapes f hf := by
    simp only [Container.layout, List.mem_cons, List.not_mem_nil, or_false] at hf
    rcases hf with rfl | rfl | rfl
    · trivial
    · trivial
    · exact ⟨trivial, nofun⟩

/-- Nothing is lost in either byte form. Every record of a node, every record number, the absent
reference included, all limits and every container, valid or not, have bytes, and are decoded from
them as what they were. -/
theorem Encoding.recorded_survives (e : Encoding) :
    (∀ (r : Catalog.Record) (m n : Nat),
      (e = .cbor → (Catalog.Record.layout r.kind).Sized r.toFields) →
        ∃ bs, (Catalog.codec e).encode m r = .ok bs ∧
          (Catalog.codec e).decode n r.kind bs = .ok r) ∧
    (∀ id : RecordId, ∃ bs, e.encode (.bare .u32) id.raw = .ok bs ∧
      (e.decode (.bare .u32) bs).map RecordId.mk = .ok id) ∧
    (∀ limits : Limits, ∃ bs, e.encode (.fields Limits.layout) limits.toFields = .ok bs ∧
      (e.decode (.fields Limits.layout) bs).map Limits.ofFields = .ok limits) ∧
    ∀ c : Container, (e = .cbor → Container.layout.Sized c.toFields) →
      ∃ bs, e.encode (.fields Container.layout) c.toFields = .ok bs ∧
        (e.decode (.fields Container.layout) bs).map Container.ofFields = .ok c := by
  refine ⟨fun r m n hs => ?_, fun id => ?_, fun limits => ?_, fun c hs => ?_⟩
  · exact exists_bytes_of (f := .fields _) (Catalog.Record.faithful_layout r.kind) r.toFields
      (Catalog.Record.ofFields_toFields r) e hs
  · exact exists_bytes_of (f := .bare .u32) trivial id.raw rfl e fun _ => trivial
  · exact exists_bytes_of (f := .fields _) Limits.faithful_layout limits.toFields
      limits.ofFields_toFields e
      fun _ => limits.sized_toFields
  · exact exists_bytes_of (f := .fields _) Container.faithful_layout c.toFields c.ofFields_toFields e hs

/-- A text with an escape, a control and a letter of two bytes beside the absent reference, and a
container with names. -/
theorem Encoding.recorded_survives_absent :
    (Catalog.Record.layout .peer).Sized
      (Catalog.Record.toFields (.peer "\"\x00é" .nil)) ∧
    Container.layout.Sized (Container.toFields ⟨7, [[0xf6], []], some ["é"]⟩) ∧
    (∃ bs, (Catalog.codec .cbor).encode 0 (.peer "\"\x00é" .nil) = .ok bs ∧
      (Catalog.codec .cbor).decode 0 .peer bs = .ok (.peer "\"\x00é" .nil)) ∧
    ∃ bs, Encoding.cbor.encode (.fields Container.layout)
        (Container.toFields ⟨7, [[0xf6], []], some ["é"]⟩) = .ok bs ∧
      (Encoding.cbor.decode (.fields Container.layout) bs).map Container.ofFields =
        .ok ⟨7, [[0xf6], []], some ["é"]⟩ := by
  have htext (s : String) (h : (Utf8.ofString s).length < 2 ^ 64) : Shape.text.Sized s := h
  have hpeer : (Catalog.Record.layout .peer).Sized
      (Catalog.Record.toFields (.peer "\"\x00é" .nil)) := by
    refine ⟨by decide, List.forall_mem_cons.2 ⟨⟨by decide, ?_⟩, ?_⟩⟩
    · exact htext _ (by decide)
    · exact List.forall_mem_singleton.2 ⟨by decide, trivial⟩
  have hcontainer :
      Container.layout.Sized (Container.toFields ⟨7, [[0xf6], []], some ["é"]⟩) := by
    refine ⟨by decide, List.forall_mem_cons.2 ⟨⟨by decide, trivial⟩,
      List.forall_mem_cons.2 ⟨⟨by decide, by decide, ?_⟩, ?_⟩⟩⟩
    · intro record hrecord
      refine ⟨?_, fun _ _ => trivial⟩
      rcases List.mem_pair.1 hrecord with rfl | rfl <;> decide
    · refine List.forall_mem_singleton.2 ⟨by decide, by decide, ?_⟩
      exact List.forall_mem_singleton.2 (htext _ (by decide))
  exact ⟨hpeer, hcontainer, (recorded_survives .cbor).1 _ 0 0 fun _ => hpeer,
    (recorded_survives .cbor).2.2.2 _ fun _ => hcontainer⟩

end ObjectGraph
