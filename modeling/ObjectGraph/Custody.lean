import ObjectGraph.Memory

/-! Handles to nodes and who has them. Those that a table of nodes keeps are only counted here; all
others, wherever they are, are outside. -/
namespace ObjectGraph

open Memory (Node Address)

structure Custody where
  memory : Memory := {}
  /-- The nodes that the handles outside point at, latest handle first. -/
  outside : List Node := []

namespace Custody

def handles (c : Custody) (n : Node) : Nat := c.memory.handles n

/-- A new node at an address that is free, with a handle outside. -/
def create? (c : Custody) (a : Address) : Option (Node × Custody) := do
  let (n, memory) ← c.memory.allocate? a
  some (n, ⟨memory, n :: c.outside⟩)

def clone? (c : Custody) (n : Node) : Option Custody :=
  if n ∈ c.outside then some ⟨c.memory.retain n, n :: c.outside⟩ else none

def drop? (c : Custody) (n : Node) : Option Custody :=
  if n ∈ c.outside then some ⟨c.memory.release n, c.outside.erase n⟩ else none

def locate? (c : Custody) (n : Node) : Option Address :=
  if n ∈ c.outside then c.memory.address? n else none

def hand (c : Custody) (n : Node) : Custody := ⟨c.memory.retain n, n :: c.outside⟩

def keep (c : Custody) (n : Node) : Custody := { c with memory := c.memory.retain n }

def dropKept (c : Custody) (kept : List Node) : Custody :=
  { c with memory := kept.foldl Memory.release c.memory }

end Custody
end ObjectGraph
