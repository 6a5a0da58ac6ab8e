import ObjectGraph.Layout
import Mathlib.Tactic

/-! Fields that are read one by one, in any order: the slots know the values of the fields whose
names have been read (`slotsOf`), and once that is every field they close to the record. Where all
fields may be left out the slots close at any time (`close_slotsOf_select`). -/
namespace ObjectGraph.Field

def cells : (fs : List Field) → Vals fs → List (String × (s : Shape) × s.Val)
  | [], () => []
  | f :: fs, (x, xs) => (f.name, ⟨f.shape, x⟩) :: cells fs xs

/-- The slots of a record of which the fields with certain names have been read. -/
def slotsOf (read : String → Bool) : (fs : List Field) → Vals fs → Slots fs
  | [], () => ()
  | f :: fs, (x, xs) => (if read f.name then some x else none, slotsOf read fs xs)

theorem names_cells (fs : List Field) (xs : Vals fs) :
    (cells fs xs).map Prod.fst = fs.map Field.name := by
  induction fs with
  | nil => rfl
  | cons f fs ih => simp [cells, ih]

theorem exists_of_mem_cells {fs : List Field} (xs : Vals fs) {cell : String × (s : Shape) × s.Val}
    (h : cell ∈ cells fs xs) : ∃ f ∈ fs, f.name = cell.1 ∧ f.shape = cell.2.1 := by
  induction fs with
  | nil => simp [cells] at h
  | cons f fs ih =>
    rcases List.mem_cons.1 h with rfl | h
    · exact ⟨f, by simp, rfl, rfl⟩
    · obtain ⟨g, hg, he⟩ := ih xs.2 h
      exact ⟨g, by simp [hg], he⟩

theorem noSlots_eq (fs : List Field) (xs : Vals fs) :
    noSlots fs = slotsOf (fun _ => false) fs xs := by
  induction fs with
  | nil => rfl
  | cons f fs ih => simp [noSlots, slotsOf, ih xs.2]

theorem slotsOf_congr (read read' : String → Bool) {fs : List Field} (xs : Vals fs)
    (h : ∀ name ∈ fs.map Field.name, read name = read' name) :
    slotsOf read fs xs = slotsOf read' fs xs := by
  induction fs with
  | nil => rfl
  | cons f fs ih =>
    have hf := h f.name (by simp)
    simp [slotsOf, hf, ih xs.2 fun name hn => h name (by simp at hn ⊢; exact .inr hn)]

theorem isRead_slotsOf {read : String → Bool} {fs : List Field} {name : String} (xs : Vals fs)
    (h : read name = false) : isRead name fs (slotsOf read fs xs) = false := by
  induction fs with
  | nil => rfl
  | cons f fs ih =>
    simp only [slotsOf, isRead]
    split
    · next hn => simp [hn, h]
    · exact ih xs.2

/-- Reading a field fills its slot. -/
theorem readNamed_slotsOf {ε σ : Type} (reader : (s : Shape) → Except ε (s.Val × σ))
    (read : String → Bool) {fs : List Field} (hd : (fs.map Field.name).Nodup) (xs : Vals fs)
    {cell : String × (s : Shape) × s.Val} (hc : cell ∈ cells fs xs) {state : σ}
    (hr : reader cell.2.1 = .ok (cell.2.2, state)) :
    readNamed reader cell.1 fs (slotsOf read fs xs) =
      some (.ok (slotsOf (fun name => name = cell.1 || read name) fs xs, state)) := by
  induction fs with
  | nil => simp [cells] at hc
  | cons f fs ih =>
    rw [List.map_cons, List.nodup_cons] at hd
    simp only [slotsOf, readNamed]
    rcases List.mem_cons.1 hc with rfl | hc
    · have hcongr := slotsOf_congr read (fun name => name = f.name || read name) xs.2
        fun name hn => by
          have hne : name ≠ f.name := fun he => hd.1 (he ▸ hn)
          simp [hne]
      simp [hr, Except.map, hcongr]
    · have hmem : cell.1 ∈ fs.map Field.name := by
        rw [← names_cells fs xs.2]
        exact List.mem_map.2 ⟨cell, hc, rfl⟩
      have hne : f.name ≠ cell.1 := fun he => hd.1 (he ▸ hmem)
      simp [hne, ih hd.2 xs.2 hc, Except.map]

theorem close_slotsOf (read : String → Bool) {fs : List Field} (xs : Vals fs)
    (h : ∀ name ∈ fs.map Field.name, read name = true) :
    close fs (slotsOf read fs xs) = .ok xs := by
  induction fs with
  | nil => rfl
  | cons f fs ih =>
    have hf := h f.name (by simp)
    have hfs := ih xs.2 fun name hn => h name (by simp at hn ⊢; exact .inr hn)
    simp [slotsOf, close, hf, hfs, Except.map]

/-- What fields hold that are left out, where every field may be. -/
def Defaults : (fs : List Field) → Vals fs → Prop
  | [], () => True
  | f :: fs, (d, ds) => f.leftOut? = some d ∧ Defaults fs ds

/-- The values of the fields with certain names, and others for the rest. -/
def select (read : String → Bool) : (fs : List Field) → Vals fs → Vals fs → Vals fs
  | [], (), () => ()
  | f :: fs, (x, xs), (d, ds) => (if read f.name then x else d, select read fs xs ds)

theorem close_slotsOf_select (read : String → Bool) {fs : List Field} (xs : Vals fs) {ds : Vals fs}
    (h : Defaults fs ds) : close fs (slotsOf read fs xs) = .ok (select read fs xs ds) := by
  induction fs with
  | nil => rfl
  | cons f fs ih =>
    have hslot : ((if read f.name then some xs.1 else none) <|> f.leftOut?) =
        some (if read f.name then xs.1 else ds.1) := by
      rw [h.1]
      split <;> rfl
    simp only [slotsOf, close, hslot, ih xs.2 h.2, Except.map]
    rfl

end ObjectGraph.Field
