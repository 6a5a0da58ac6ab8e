import ObjectGraph.Layout.Cbor
import ObjectGraph.Proofs.Cbor.ReadBack
import ObjectGraph.Proofs.Layout.Slots

/-! Records survive their CBOR form: what the bytes of a record's item are decoded to is read as
that record (`Layout.ofCbor_decode`). -/
namespace ObjectGraph

namespace Shape

/-- A type each of whose values has a form of its own: an optional value is not optional again. -/
def Faithful : Shape → Prop
  | .list item => item.Faithful
  | .optional item => item.Faithful ∧ ∀ inner, item ≠ .optional inner
  | _ => True

theorem toInt_bounds (w : Word) (x : w.Val) : -2 ^ 31 ≤ w.toInt x ∧ w.toInt x < 2 ^ 64 := by
  cases w with
  | u8 => have := UInt8.toNat_lt x; simp only [Word.toInt]; omega
  | u32 => have := UInt32.toNat_lt x; simp only [Word.toInt]; omega
  | i32 => have := Int32.le_toInt x; have := Int32.toInt_lt x; simp only [Word.toInt]; omega
  | size => have := UInt64.toNat_lt x; simp only [Word.toInt]; omega

theorem toCbor_ne_null {s : Shape} (h : ∀ inner, s ≠ .optional inner) (x : s.Val) :
    s.toCbor x ≠ .null := by
  cases s with
  | optional inner => exact absurd rfl (h inner)
  | word w =>
    unfold toCbor Cbor.Value.ofInt
    split <;> simp
  | _ => simp [toCbor]

theorem collect_map {α β ε : Type} {read : α → Except ε β} {write : β → α}
    (h : ∀ y, read (write y) = .ok y) (ys done : List β) :
    collect read (ys.map write) done = .ok (done.reverse ++ ys) := by
  induction ys generalizing done with
  | nil => simp [collect]
  | cons y ys ih => simp [collect, h, ih]

/-- A value is read from its item. -/
theorem ofCbor_toCbor {s : Shape} (h : s.Faithful) (x : s.Val) : s.ofCbor (s.toCbor x) = .ok x := by
  induction s with
  | text => rfl
  | bool => rfl
  | word w =>
    have hb := toInt_bounds w x
    simp [toCbor, ofCbor, Cbor.toInt?_ofInt (n := w.toInt x) (by omega) (by omega), Word.ofInt?_toInt]
  | list item ih =>
    exact (collect_map (ih h) x []).trans (by simp)
  | optional item ih =>
    cases x with
    | none => rfl
    | some x =>
      have hne := toCbor_ne_null h.2 x
      have hx := ih h.1 x
      simp only [toCbor, ofCbor, hx]
      rfl

theorem readable_ofInt {n : Int} (hl : -2 ^ 63 ≤ n) (hu : n < 2 ^ 64) :
    Cbor.Readable (.ofInt n) := by
  unfold Cbor.Value.ofInt
  split
  · exact ⟨nofun, nofun⟩
  · refine ⟨nofun, ?_⟩
    intro m hm
    cases hm
    rw [UInt64.toNat_ofNat']
    omega

/-- Nothing in a value's item is a float or an integer that cannot be read. -/
theorem readable_toCbor (s : Shape) (x : s.Val) : Cbor.Readable (s.toCbor x) := by
  induction s with
  | text => exact ⟨nofun, nofun⟩
  | bool => exact ⟨nofun, nofun⟩
  | word w =>
    have hb := toInt_bounds w x
    exact readable_ofInt (by omega) (by omega)
  | list item ih =>
    refine ⟨fun y hy => ?_, fun n hn => ?_⟩
    · cases hy with
      | item hv hy =>
        obtain ⟨z, -, rfl⟩ := List.mem_map.1 hv
        exact (ih z).noFloat y hy
    · cases hn with
      | item hv hn =>
        obtain ⟨z, -, rfl⟩ := List.mem_map.1 hv
        exact (ih z).inRange n hn
  | optional item ih =>
    cases x with
    | none => exact ⟨nofun, nofun⟩
    | some x => exact ih x

theorem settles_map {α : Type} {f : α → Cbor.Value}
    (h : ∀ x v, Cbor.Settles (f x) v → v = f x) {xs : List α} {vs : List Cbor.Value}
    (hs : List.Forall₂ Cbor.Settles (xs.map f) vs) : vs = xs.map f := by
  induction xs generalizing vs with
  | nil => cases hs; rfl
  | cons x xs ih =>
    cases hs with
    | cons hv hvs => rw [List.map_cons, h x _ hv, ih hvs]

/-- A value's item holds no map, so there is nothing to reorder in it. -/
theorem settles_toCbor (s : Shape) (x : s.Val) {v : Cbor.Value} (h : Cbor.Settles (s.toCbor x) v) :
    v = s.toCbor x := by
  induction s generalizing v with
  | text => cases h; rfl
  | bool => cases h; rfl
  | word w =>
    unfold toCbor Cbor.Value.ofInt at h ⊢
    by_cases hn : 0 ≤ w.toInt x
    · rw [if_pos hn] at h ⊢
      cases h
      rfl
    · rw [if_neg hn] at h ⊢
      cases h
      rfl
  | list item ih =>
    cases h with
    | array h => rw [settles_map (fun y w => ih y) h, toCbor]
  | optional item ih =>
    cases x with
    | none => cases h; rfl
    | some x => exact ih x h

end Shape

namespace Layout

/-- A record type whose fields have different names and faithful types. -/
structure Faithful (l : Layout) : Prop where
  names : (l.fields.map Field.name).Nodup
  shapes : ∀ f ∈ l.fields, f.shape.Faithful

def cellEntry (cell : String × (s : Shape) × s.Val) : Cbor.Value × Cbor.Value :=
  (.text cell.1, cell.2.1.toCbor cell.2.2)

theorem entries_eq (fs : List Field) (xs : Field.Vals fs) :
    entries fs xs = (Field.cells fs xs).map cellEntry := by
  induction fs with
  | nil => rfl
  | cons f fs ih => simp [entries, Field.cells, cellEntry, ih]

theorem settles_cells {cells : List (String × (s : Shape) × s.Val)}
    {es : List (Cbor.Value × Cbor.Value)}
    (h : List.Forall₂ Cbor.SettlesEntry (cells.map cellEntry) es) : es = cells.map cellEntry := by
  induction cells generalizing es with
  | nil => cases h; rfl
  | cons cell cells ih =>
    cases h with
    | cons he hs =>
      obtain ⟨hk, hv⟩ := he
      have hk := Shape.settles_toCbor .text cell.1 hk
      have hv := Shape.settles_toCbor cell.2.1 cell.2.2 hv
      rw [List.map_cons, ih hs]
      exact congrArg (· :: _) (Prod.ext hk hv)

theorem Faithful.shapes_cells {l : Layout} (hl : l.Faithful) (xs : l.Val)
    {cell : String × (s : Shape) × s.Val} (hc : cell ∈ Field.cells l.fields xs) :
    cell.2.1.Faithful := by
  obtain ⟨f, hf, -, he⟩ := Field.exists_of_mem_cells xs hc
  exact he ▸ hl.shapes f hf

/-- Entries of different fields are read one after another, whatever their order. -/
theorem ofEntries_cells {l : Layout} (hl : l.Faithful) (xs : l.Val)
    {cells : List (String × (s : Shape) × s.Val)}
    (hc : ∀ cell ∈ cells, cell ∈ Field.cells l.fields xs)
    (hd : (cells.map Prod.fst).Nodup) (read : String → Bool)
    (hr : ∀ cell ∈ cells, read cell.1 = false) :
    l.ofEntries (cells.map cellEntry) (Field.slotsOf read l.fields xs) =
      .ok (Field.slotsOf (fun name => decide (name ∈ cells.map Prod.fst) || read name)
        l.fields xs) := by
  induction cells generalizing read with
  | nil => simp [ofEntries]
  | cons cell cells ih =>
    rw [List.map_cons, List.nodup_cons] at hd
    have hcell := hc cell (by simp)
    have hshape := hl.shapes_cells xs hcell
    have hnamed := Field.readNamed_slotsOf
      (fun s => (s.ofCbor (cell.2.1.toCbor cell.2.2)).map fun x => (x, ())) read hl.names xs hcell
      (show Except.map _ _ = _ by rw [Shape.ofCbor_toCbor hshape]; rfl)
    have hrest := ih (fun c hm => hc c (by simp [hm])) hd.2 (fun name => name = cell.1 || read name)
      fun c hm => by
        have hne : c.1 ≠ cell.1 := fun he => hd.1 (he ▸ List.mem_map.2 ⟨c, hm, rfl⟩)
        simp [hne, hr c (by simp [hm])]
    simp only [List.map_cons, cellEntry, ofEntries, Field.isRead_slotsOf xs (hr cell (by simp)),
      hnamed, Bool.false_eq_true, if_false]
    rw [hrest]
    congr 1
    apply Field.slotsOf_congr
    intro name _
    simp only [List.mem_cons, Bool.decide_or, Bool.or_assoc, Bool.or_left_comm]

theorem readable_toCbor (l : Layout) (xs : l.Val) : Cbor.Readable (l.toCbor xs) := by
  have hcell : ∀ e ∈ entries l.fields xs, Cbor.Readable e.1 ∧ Cbor.Readable e.2 := by
    intro e he
    rw [entries_eq] at he
    obtain ⟨cell, -, rfl⟩ := List.mem_map.1 he
    exact ⟨Shape.readable_toCbor .text cell.1, Shape.readable_toCbor cell.2.1 cell.2.2⟩
  refine ⟨fun x hx => ?_, fun n hn => ?_⟩
  · cases hx with
    | key he hx => exact (hcell _ he).1.noFloat x hx
    | value he hx => exact (hcell _ he).2.noFloat x hx
  · cases hn with
    | key he hn => exact (hcell _ he).1.inRange n hn
    | value he hn => exact (hcell _ he).2.inRange n hn

/-- A record's item settles as the map of its fields in some order. -/
theorem exists_cells_of_settles {l : Layout} {xs : l.Val} {v : Cbor.Value}
    (h : Cbor.Settles (l.toCbor xs) v) :
    ∃ cells : List (String × (s : Shape) × s.Val), v = .map (cells.map cellEntry) ∧
      cells.Perm (Field.cells l.fields xs) := by
  unfold toCbor at h
  rw [entries_eq] at h
  cases h with
  | @map _ moved entries' hp hs =>
    obtain ⟨cells, rfl, hperm⟩ : Relation.Comp (· = List.map cellEntry ·) List.Perm moved
        (Field.cells l.fields xs) := by
      rw [List.eq_map_comp_perm]
      exact hp.symm
    obtain rfl := settles_cells hs
    exact ⟨cells, rfl, hperm⟩

/-- A record is read from the map of its fields in any order. -/
theorem ofCbor_of_settles {l : Layout} (hl : l.Faithful) (xs : l.Val) {v : Cbor.Value}
    (h : Cbor.Settles (l.toCbor xs) v) : l.ofCbor v = .ok xs := by
  obtain ⟨cells, rfl, hperm⟩ := exists_cells_of_settles h
  have hnames := hperm.map Prod.fst
  rw [Field.names_cells] at hnames
  have hread := ofEntries_cells hl xs (fun c hc => hperm.subset hc) (hnames.nodup_iff.2 hl.names)
    (fun _ => false) (fun _ _ => rfl)
  have hclose := Field.close_slotsOf (fun name => decide (name ∈ cells.map Prod.fst) || false) xs
    fun name hn => by simpa using hnames.mem_iff.2 hn
  simp only [ofCbor, Field.noSlots_eq l.fields xs, hread, bind, Except.bind]
  rw [hclose]
  rfl

/-- A record is read from the bytes of its item. -/
theorem ofCbor_decode {l : Layout} (hl : l.Faithful) (xs : l.Val) {bs : Bytes}
    (h : Cbor.encode (l.toCbor xs) = .ok bs) (hlen : bs.length < 2 ^ 64) :
    ∃ v, Cbor.decode bs = .ok v ∧ l.ofCbor v = .ok xs := by
  obtain ⟨v, hs, hd⟩ := Cbor.decode_encode h (readable_toCbor l xs) hlen
  exact ⟨v, hd, ofCbor_of_settles hl xs hs⟩

end Layout
end ObjectGraph
