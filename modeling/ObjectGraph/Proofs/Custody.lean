import Mathlib.Tactic
import ObjectGraph.Custody

/-! Every handle to a node is outside or kept by a table (`Custody.Keeps`), whatever is done with
handles. So a node that a table keeps stays where it is, whether or not there are handles to it
outside. -/
namespace ObjectGraph

open Memory (Node Address)

namespace Memory

/-- A node that has handles left has not moved. -/
theorem address?_release {m : Memory} {n k : Node} (h : 0 < (m.release n).handles k) :
    (m.release n).address? k = m.address? k := by
  obtain ⟨a, ha⟩ := Option.isSome_iff_exists.1 (isSome_address?.2 h)
  rw [ha]
  exact (addressAt_release m.cells n k ha).symm

/-! How many nodes were made -/

theorem length_cells_allocate {m m' : Memory} {a : Address} {n : Node}
    (h : m.allocate? a = some (n, m')) :
    n = m.cells.length ∧ m'.cells.length = m.cells.length + 1 := by
  unfold allocate? at h
  split at h
  · cases h
  · cases h
    exact ⟨rfl, by simp⟩

@[simp] theorem length_cells_retain (m : Memory) (n : Node) :
    (m.retain n).cells.length = m.cells.length := List.length_modify ..

@[simp] theorem length_cells_release (m : Memory) (n : Node) :
    (m.release n).cells.length = m.cells.length := List.length_modify ..

theorem lt_of_handles {m : Memory} {n : Node} (h : 0 < m.handles n) : n < m.cells.length := by
  by_contra hn
  have hnone : m.cells[n]? = none := List.getElem?_eq_none (not_lt.1 hn)
  rw [handles, cell?, cellAt, hnone] at h
  exact absurd h (lt_irrefl 0)

end Memory

namespace Custody

variable {c c' : Custody} {kept : List Node} {n : Node}

/-- The handles to a node are those outside and those kept. -/
def Keeps (c : Custody) (kept : List Node) : Prop :=
  ∀ n, c.handles n = c.outside.count n + kept.count n

theorem keeps_empty : ({} : Custody).Keeps [] := fun _ => rfl

theorem Keeps.pos_of_outside (h : c.Keeps kept) (hn : n ∈ c.outside) : 0 < c.handles n := by
  have hcount := List.count_pos_iff.2 hn
  rw [h n]
  omega

theorem Keeps.pos_of_kept (h : c.Keeps kept) (hn : n ∈ kept) : 0 < c.handles n := by
  have hcount := List.count_pos_iff.2 hn
  rw [h n]
  omega

theorem Keeps.create (h : c.Keeps kept) {a : Address} (hc : c.create? a = some (n, c')) :
    c'.Keeps kept := by
  obtain ⟨⟨n, memory⟩, hm, ⟨⟩⟩ := Option.bind_eq_some_iff.1 hc
  obtain ⟨-, hnew, hcell⟩ := Memory.cell?_allocate hm
  have hnone : c.handles n = 0 := by rw [handles, Memory.handles, hnew]; rfl
  intro k
  have hk := h k
  simp only [handles, Memory.handles, hcell k, List.count_cons] at hk hnone ⊢
  split
  · next hkn =>
    subst hkn
    simp only [beq_self_eq_true, if_true, Option.map_some, Option.getD_some]
    omega
  · next hkn => simpa [Ne.symm hkn] using hk

theorem Keeps.hand (h : c.Keeps kept) (hn : 0 < c.handles n) : (c.hand n).Keeps kept := by
  intro k
  have hk := h k
  simp only [handles, Custody.hand, Memory.handles_retain hn, List.count_cons, beq_iff_eq] at hk ⊢
  omega

theorem Keeps.clone (h : c.Keeps kept) (hc : c.clone? n = some c') : c'.Keeps kept := by
  rw [clone?] at hc
  split at hc
  · next hn =>
    cases hc
    exact h.hand (h.pos_of_outside hn)
  · cases hc

theorem Keeps.drop (h : c.Keeps kept) (hc : c.drop? n = some c') : c'.Keeps kept := by
  rw [drop?] at hc
  split at hc
  · next hn =>
    cases hc
    intro k
    have hk := h k
    have hcount := List.count_pos_iff.2 hn
    simp only [handles, Memory.handles_release, List.count_erase, beq_iff_eq] at hk ⊢
    split
    · next hkn => subst hkn; omega
    · exact hk
  · cases hc

theorem Keeps.keep (h : c.Keeps kept) (hn : n ∈ c.outside) : (c.keep n).Keeps (kept ++ [n]) := by
  intro k
  have hk := h k
  simp only [handles, Custody.keep, Memory.handles_retain (h.pos_of_outside hn), List.count_append,
    List.count_singleton, beq_iff_eq] at hk ⊢
  omega

/-- With the handles kept, only those outside are left. -/
theorem Keeps.dropKept (h : c.Keeps kept) : (c.dropKept kept).Keeps [] := by
  induction kept generalizing c with
  | nil => exact h
  | cons n kept ih =>
    have hstep : Keeps { c with memory := c.memory.release n } kept := by
      intro k
      have hk := h k
      simp only [handles, Memory.handles_release, List.count_cons, beq_iff_eq] at hk ⊢
      split
      · next hkn => subst hkn; simp only [if_true] at hk; omega
      · next hkn => simpa [hkn] using hk
    exact ih hstep

/-! Where kept nodes are -/

theorem address?_create {a : Address} (hc : c.create? a = some (n, c')) {k : Node}
    (hk : 0 < c.handles k) : c'.memory.address? k = c.memory.address? k := by
  obtain ⟨⟨n, memory⟩, hm, ⟨⟩⟩ := Option.bind_eq_some_iff.1 hc
  obtain ⟨-, hnew, hcell⟩ := Memory.cell?_allocate hm
  have hne : k ≠ n := by
    rintro rfl
    rw [handles, Memory.handles, hnew] at hk
    exact absurd hk (Nat.lt_irrefl 0)
  have hk' := hcell k
  rw [if_neg hne] at hk'
  exact congrArg (Option.map Memory.Cell.address) hk'

theorem address?_clone (hc : c.clone? n = some c') (k : Node) :
    c'.memory.address? k = c.memory.address? k := by
  rw [clone?] at hc
  split at hc
  · cases hc
    exact Memory.address?_retain _ _ _
  · cases hc

theorem address?_drop (hc : c.drop? n = some c') {k : Node} (hk : 0 < c'.handles k) :
    c'.memory.address? k = c.memory.address? k := by
  rw [drop?] at hc
  split at hc
  · cases hc
    exact Memory.address?_release hk
  · cases hc

/-! How many nodes were made -/

theorem length_cells_create {a : Address} (hc : c.create? a = some (n, c')) :
    c'.memory.cells.length = c.memory.cells.length + 1 := by
  obtain ⟨_, hm, ⟨⟩⟩ := Option.bind_eq_some_iff.1 hc
  exact (Memory.length_cells_allocate hm).2

theorem length_cells_clone (hc : c.clone? n = some c') :
    c'.memory.cells.length = c.memory.cells.length := by
  rw [clone?] at hc
  split at hc
  · cases hc
    exact Memory.length_cells_retain _ _
  · cases hc

theorem length_cells_drop (hc : c.drop? n = some c') :
    c'.memory.cells.length = c.memory.cells.length := by
  rw [drop?] at hc
  split at hc
  · cases hc
    exact Memory.length_cells_release _ _
  · cases hc

theorem Keeps.locate (h : c.Keeps kept) (hn : n ∈ c.outside) :
    ∃ a, c.memory.address? n = some a ∧ c.locate? n = some a := by
  obtain ⟨a, ha⟩ := Option.isSome_iff_exists.1 (Memory.isSome_address?.2 (h.pos_of_outside hn))
  exact ⟨a, ha, by rw [locate?, if_pos hn, ha]⟩

end Custody
end ObjectGraph
