import ObjectGraph.Handles.Heap
import ObjectGraph.Text.Hex

/-! A caller's handles to peers. Using a peer borrows it, and a borrow that conflicts with one the
caller keeps is refused before anything changes. -/
namespace ObjectGraph

/-- Peers in memory and the caller's handles, by slot. A dropped handle leaves its slot empty. -/
structure Handles where
  heap : Handles.Heap := {}
  slots : Array (Option Handles.Address) := #[]
  deriving DecidableEq, Repr

namespace Handles

inductive Error where
  /-- There is no handle in the slot. -/
  | emptySlot
  /-- The peer is borrowed in a way that excludes this use. -/
  | borrowed
  deriving DecidableEq, Repr

def address (s : Handles) (slot : Nat) : Except Error Address :=
  match (s.slots[slot]?).join with
  | none => .error .emptySlot
  | some a => .ok a

def peer (s : Handles) (slot : Nat) : Except Error (Address × Peer) := do
  let a ← s.address slot
  match s.heap.peer? a with
  | none => .error .emptySlot
  | some p => .ok (a, p)

def readable (s : Handles) (slot : Nat) : Except Error (Address × Peer) := do
  let (a, p) ← s.peer slot
  if p.borrow.share?.isSome then .ok (a, p) else .error .borrowed

def writable (s : Handles) (slot : Nat) : Except Error (Address × Peer) := do
  let (a, p) ← s.peer slot
  if p.borrow.own?.isSome then .ok (a, p) else .error .borrowed

def slot? (s : Handles) (a : Address) : Option Nat := s.slots.findIdx? (· = some a)

def push (s : Handles) (a : Address) : Handles := { s with slots := s.slots.push (some a) }

/-! Making and dropping handles -/

def create (s : Handles) (label : String) : Handles :=
  let (a, heap) := s.heap.allocate { label }
  { s with heap }.push a

def createLooped (s : Handles) (label : String) : Handles :=
  let (a, heap) := s.heap.allocate { label }
  { s with heap := heap.setOther a (some a) }.push a

def clone (s : Handles) (slot : Nat) : Except Error Handles := do
  let a ← s.address slot
  .ok ({ s with heap := s.heap.retain a }.push a)

def drop (s : Handles) (slot : Nat) : Except Error Handles := do
  let a ← s.address slot
  .ok ⟨s.heap.release (some a), s.slots.setIfInBounds slot none⟩

/-! Using a peer -/

def link (s : Handles) (slot : Nat) (target : Option Nat) : Except Error Handles := do
  let target ← target.mapM s.address
  let (a, _) ← s.writable slot
  .ok { s with heap := s.heap.setOther a target }

def setLabel (s : Handles) (slot : Nat) (label : String) : Except Error Handles := do
  let (a, p) ← s.writable slot
  .ok { s with heap := s.heap.put a { p with label } }

def label (s : Handles) (slot : Nat) : Except Error String := do
  let (_, p) ← s.readable slot
  .ok p.label

/-- A new handle to the peer referred to, if there is one, and the first slot that has a handle to
it already. -/
def other (s : Handles) (slot : Nat) : Except Error (Option (Option Nat) × Handles) := do
  let (_, p) ← s.readable slot
  match p.other with
  | none => .ok (none, s)
  | some a => .ok (some (s.slot? a), { s with heap := s.heap.retain a }.push a)

/-- Empties a peer. Returns its label and the first slot with a handle to the peer it referred to,
whose own handle is given back. -/
def take (s : Handles) (slot : Nat) : Except Error ((String × Option Nat) × Handles) := do
  let (a, p) ← s.writable slot
  let heap := s.heap.put a { p with label := "" }
  .ok ((p.label, p.other.bind s.slot?), { s with heap := heap.setOther a none })

/-- Handles to the peer of a handle, borrows kept by the caller included. -/
def count (s : Handles) (slot : Nat) : Except Error Nat := do
  let (_, p) ← s.peer slot
  .ok p.handles

def same (s : Handles) (slot₁ slot₂ : Nat) : Except Error Bool := do
  let a ← s.address slot₁
  let b ← s.address slot₂
  .ok (a = b)

/-- What a handle shows of itself: where its peer is, and nothing the peer holds. -/
def debugText (s : Handles) (slot : Nat) : Except Error String := do
  let a ← s.address slot
  .ok s!"Node(0x{String.ofList (Hex.digits a)})"

/-! Borrows that the caller keeps -/

def borrow? (exclusive : Bool) (b : Borrow) : Option Borrow :=
  if exclusive then b.own? else b.share?

def canBorrow (s : Handles) (slot : Nat) (exclusive : Bool) : Except Error Bool := do
  let (_, p) ← s.peer slot
  .ok (borrow? exclusive p.borrow).isSome

/-- Takes a borrow and with it a handle of its own, unless the borrow conflicts with one that is
kept. Returns the peer to give both back to. -/
def hold (s : Handles) (slot : Nat) (exclusive : Bool) : Except Error (Address × Handles) := do
  let (a, p) ← s.peer slot
  match borrow? exclusive p.borrow with
  | none => .error .borrowed
  | some borrow => .ok (a, { s with heap := (s.heap.put a { p with borrow }).retain a })

def unhold (s : Handles) (a : Address) : Handles :=
  { s with heap :=
      (s.heap.modify a fun p => { p with borrow := p.borrow.release }).release (some a) }

end Handles
end ObjectGraph
