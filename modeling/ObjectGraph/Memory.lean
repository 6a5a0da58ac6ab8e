/-! Nodes in memory, each at an address, with the number of handles to it. The last handle to go
frees a node, whose address is then free for another one. -/
namespace ObjectGraph

namespace Memory

/-- Nodes are told apart by the order they were made in. -/
abbrev Node := Nat

abbrev Address := Nat

/-- What there is of a node as long as there are handles to it. -/
structure Cell where
  address : Address
  handles : Nat := 1
  handles_pos : 0 < handles := by decide
  deriving DecidableEq, Repr

def Cell.retain (c : Cell) : Cell := ⟨c.address, c.handles + 1, Nat.succ_pos _⟩

def Cell.release? (c : Cell) : Option Cell :=
  if h : 1 < c.handles then some ⟨c.address, c.handles - 1, Nat.sub_pos_of_lt h⟩ else none

def cellAt (cells : List (Option Cell)) (n : Node) : Option Cell := (cells[n]?).join

def addressAt (cells : List (Option Cell)) (n : Node) : Option Address :=
  (cellAt cells n).map Cell.address

end Memory

open Memory in
/-- Memory never has two nodes at one address. -/
structure Memory where
  /-- The cells of all nodes made so far, `none` for a freed one. -/
  cells : List (Option Cell) := []
  distinct : ∀ n k a, addressAt cells n = some a → addressAt cells k = some a → n = k := by nofun

namespace Memory

def cell? (m : Memory) (n : Node) : Option Cell := cellAt m.cells n

def address? (m : Memory) (n : Node) : Option Address := addressAt m.cells n

def handles (m : Memory) (n : Node) : Nat := ((m.cell? n).map Cell.handles).getD 0

def isTaken (m : Memory) (a : Address) : Bool :=
  m.cells.any fun cell => cell.any fun c => c.address = a

theorem cellAt_modify (cells : List (Option Cell)) (n : Node) (f : Option Cell → Option Cell)
    (hf : f none = none) (k : Node) :
    cellAt (cells.modify n f) k = if n = k then f (cellAt cells k) else cellAt cells k := by
  rw [cellAt, cellAt, List.getElem?_modify]
  rcases cells[k]? with _ | cell <;> split <;> simp_all

theorem addressAt_retain (cells : List (Option Cell)) (n k : Node) :
    addressAt (cells.modify n (·.map Cell.retain)) k = addressAt cells k := by
  rw [addressAt, addressAt, cellAt_modify cells n _ rfl]
  split
  · rcases cellAt cells k with _ | c <;> rfl
  · rfl

/-- What is still there after a handle is gone has not moved. -/
theorem addressAt_release (cells : List (Option Cell)) (n k : Node) {a : Address}
    (h : addressAt (cells.modify n (·.bind Cell.release?)) k = some a) :
    addressAt cells k = some a := by
  rw [addressAt, cellAt_modify cells n _ rfl] at h
  rw [addressAt]
  generalize cellAt cells k = cell at h ⊢
  split at h
  · rcases cell with _ | c
    · exact h
    · simp only [Option.bind_some, Cell.release?] at h
      split at h
      · exact h
      · cases h
  · exact h

theorem cellAt_append (cells : List (Option Cell)) (c : Cell) (n : Node) :
    cellAt (cells ++ [some c]) n = if n = cells.length then some c else cellAt cells n := by
  rw [cellAt, cellAt]
  split
  · next h => simp [h]
  · next h =>
    rcases Nat.lt_or_gt_of_ne h with h | h
    · rw [List.getElem?_append_left h]
    · rw [List.getElem?_eq_none (by simp; omega), List.getElem?_eq_none (by omega)]

theorem isTaken_iff {m : Memory} {a : Address} :
    m.isTaken a = true ↔ ∃ n, m.address? n = some a := by
  simp only [isTaken, address?, addressAt, cellAt, List.any_eq_true, Option.any_eq_true,
    decide_eq_true_eq, Option.map_eq_some_iff, Option.join_eq_some_iff]
  constructor
  · rintro ⟨cell, hcell, c, rfl, hc⟩
    obtain ⟨n, hn⟩ := List.mem_iff_getElem?.1 hcell
    exact ⟨n, c, hn, hc⟩
  · rintro ⟨n, c, hn, hc⟩
    exact ⟨some c, List.mem_of_getElem? hn, c, rfl, hc⟩

def allocate? (m : Memory) (a : Address) : Option (Node × Memory) :=
  if h : m.isTaken a = true then none
  else some (m.cells.length, {
    cells := m.cells ++ [some { address := a }]
    distinct := fun n k b hn hk => by
      rw [addressAt, cellAt_append] at hn hk
      have hfree (n : Node) : addressAt m.cells n ≠ some a := fun hn => h (isTaken_iff.2 ⟨n, hn⟩)
      split at hn <;> split at hk
      · next hn' hk' => exact hn'.trans hk'.symm
      · cases hn; exact absurd hk (hfree k)
      · cases hk; exact absurd hn (hfree n)
      · exact m.distinct n k b hn hk })

def retain (m : Memory) (n : Node) : Memory where
  cells := m.cells.modify n (·.map Cell.retain)
  distinct i k a hi hk := by
    rw [addressAt_retain] at hi hk
    exact m.distinct i k a hi hk

def release (m : Memory) (n : Node) : Memory where
  cells := m.cells.modify n (·.bind Cell.release?)
  distinct i k a hi hk :=
    m.distinct i k a (addressAt_release _ _ _ hi) (addressAt_release _ _ _ hk)

theorem cell?_retain (m : Memory) (n k : Node) :
    (m.retain n).cell? k = if n = k then (m.cell? k).map Cell.retain else m.cell? k :=
  cellAt_modify m.cells n _ rfl k

theorem cell?_release (m : Memory) (n k : Node) :
    (m.release n).cell? k = if n = k then (m.cell? k).bind Cell.release? else m.cell? k :=
  cellAt_modify m.cells n _ rfl k

/-- A new node is one that was not there before, at an address where none was. -/
theorem cell?_allocate {m m' : Memory} {a : Address} {n : Node}
    (h : m.allocate? a = some (n, m')) :
    m.isTaken a = false ∧ m.cell? n = none ∧
      ∀ k, m'.cell? k = if k = n then some { address := a } else m.cell? k := by
  rw [allocate?] at h
  split at h
  · cases h
  · next hfree =>
    cases h
    exact ⟨Bool.eq_false_iff.2 hfree, by simp [cell?, cellAt], cellAt_append m.cells _⟩

@[simp] theorem address?_retain (m : Memory) (n k : Node) :
    (m.retain n).address? k = m.address? k :=
  addressAt_retain m.cells n k

/-- A node is in memory as long as there are handles to it. -/
theorem isSome_address? {m : Memory} {n : Node} : (m.address? n).isSome ↔ 0 < m.handles n := by
  rw [address?, addressAt, handles, cell?]
  rcases cellAt m.cells n with _ | c
  · simp
  · simpa using c.handles_pos

theorem handles_retain {m : Memory} {n : Node} (h : 0 < m.handles n) (k : Node) :
    (m.retain n).handles k = m.handles k + if n = k then 1 else 0 := by
  rw [handles, handles, cell?_retain]
  split
  · next hk =>
    subst hk
    rw [handles] at h
    generalize m.cell? n = cell at h ⊢
    rcases cell with _ | c
    · exact absurd h (Nat.lt_irrefl 0)
    · rfl
  · rfl

theorem handles_release (m : Memory) (n k : Node) :
    (m.release n).handles k = m.handles k - if n = k then 1 else 0 := by
  rw [handles, handles, cell?_release]
  split
  · rcases m.cell? k with _ | c
    · rfl
    · simp only [Option.bind_some, Cell.release?, Option.map_some, Option.getD_some]
      have hpos := c.handles_pos
      split
      · rfl
      · simp; omega
  · rfl

end Memory
end ObjectGraph
