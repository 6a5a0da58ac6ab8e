import ObjectGraph.Borrow

/-! Peers in memory, each with the number of handles to it. The last handle to go frees a peer,
which gives back the handle it holds itself; a cycle keeps its peers until it is broken. -/
namespace ObjectGraph.Handles

abbrev Address := Nat

structure Peer where
  label : String
  other : Option Address := none
  handles : Nat := 1
  borrow : Borrow := .free
  deriving DecidableEq, Repr

/-- Peers by address. A freed one leaves its place empty, and no other peer gets it. -/
structure Heap where
  cells : Array (Option Peer) := #[]
  deriving DecidableEq, Repr

namespace Heap

def peer? (m : Heap) (a : Address) : Option Peer := (m.cells[a]?).join

def put (m : Heap) (a : Address) (p : Peer) : Heap := ⟨m.cells.setIfInBounds a (some p)⟩

def free (m : Heap) (a : Address) : Heap := ⟨m.cells.setIfInBounds a none⟩

def modify (m : Heap) (a : Address) (f : Peer → Peer) : Heap :=
  match m.peer? a with
  | none => m
  | some p => m.put a (f p)

def allocate (m : Heap) (p : Peer) : Address × Heap := (m.cells.size, ⟨m.cells.push (some p)⟩)

def retain (m : Heap) (a : Address) : Heap :=
  m.modify a fun p => { p with handles := p.handles + 1 }

/-- Gives back a handle, and those of the peers it frees, `steps` handles at most. -/
def releaseWithin : (steps : Nat) → (handle : Option Address) → Heap → Heap
  | 0, _, m => m
  | _, none, m => m
  | steps+1, some a, m =>
      match m.peer? a with
      | none => m
      | some p =>
          if 1 < p.handles then m.put a { p with handles := p.handles - 1 }
          else releaseWithin steps p.other (m.free a)

/-- Gives back a handle. Each peer is freed once, so as many steps as there are peers suffice. -/
def release (m : Heap) (handle : Option Address) : Heap :=
  releaseWithin m.cells.size handle m

/-- Makes a peer refer to another one or none, then gives back the handle it held before. -/
def setOther (m : Heap) (a : Address) (target : Option Address) : Heap :=
  let before := (m.peer? a).bind Peer.other
  ((target.elim m m.retain).modify a fun p => { p with other := target }).release before

theorem lt_of_peer? {m : Heap} {a : Address} {p : Peer} (h : m.peer? a = some p) :
    a < m.cells.size := by
  simp only [peer?, Option.join_eq_some_iff] at h
  exact (Array.getElem?_eq_some_iff.1 h).1

theorem peer?_put {m : Heap} {a : Address} {p : Peer} (h : a < m.cells.size) (b : Address) :
    (m.put a p).peer? b = if a = b then some p else m.peer? b := by
  by_cases hab : a = b
  · subst hab; simp [peer?, put, h]
  · simp [peer?, put, hab]

@[simp] theorem peer?_free (m : Heap) (a b : Address) :
    (m.free a).peer? b = if a = b then none else m.peer? b := by
  by_cases hab : a = b
  · subst hab
    by_cases h : a < m.cells.size <;> simp [peer?, free, h]
  · simp [peer?, free, hab]

theorem peer?_allocate (m : Heap) (p : Peer) (b : Address) :
    (m.allocate p).2.peer? b = if b = (m.allocate p).1 then some p else m.peer? b := by
  by_cases hb : b = m.cells.size <;> simp [peer?, allocate, Array.getElem?_push, hb]

end Heap
end ObjectGraph.Handles
