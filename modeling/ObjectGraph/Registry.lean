import ObjectGraph.Custody
import ObjectGraph.Numbering

/-! Numbers for nodes in memory. A registry knows a node by its address, and keeps a handle to each
node it has numbered, so that no other node comes to be at that address. -/
namespace ObjectGraph

open Memory (Node Address)

structure Registry where
  numbering : Numbering Address := {}
  /-- The nodes that the registry keeps handles to, first one first. -/
  anchors : List Node := []

namespace Registry

def lookup (r : Registry) (a : Address) : Option RecordId := r.numbering.lookup a

def last (r : Registry) : Option RecordId := r.numbering.last

def size (r : Registry) : Nat := r.anchors.length

def isEmpty (r : Registry) : Bool := r.anchors.isEmpty

/-- The number of a node at an address, which gets the next one if it has none. -/
def register (r : Registry) (c : Custody) (n : Node) (a : Address) (limit : UInt32) :
    Except Graph.Error (RecordId × Registry × Custody) :=
  match r.lookup a with
  | some id => .ok (id, r, c)
  | none =>
      match r.numbering.register a limit with
      | .error e => .error e
      | .ok (id, numbering) => .ok (id, ⟨numbering, r.anchors ++ [n]⟩, c.keep n)

def debugText (r : Registry) : String := Numbering.account r.size r.last

end Registry

/-- A registry among handles to the nodes it may be asked about. -/
structure Registration where
  custody : Custody := {}
  registry : Registry := {}

namespace Registration

inductive Action where
  /-- Makes a node at an address. -/
  | create (a : Address)
  | clone (n : Node)
  | drop (n : Node)
  /-- Looks up an address, be it that of a node or not. -/
  | look (a : Address)
  | register (n : Node) (limit : UInt32)
  /-- Drops the registry and begins a new one. -/
  | renew
  deriving DecidableEq, Repr

inductive Answer where
  | made (n : Node)
  | done
  | found (id : Option RecordId)
  | number (id : RecordId)
  | refused (e : Graph.Error)

/-- What an action does. Only a node with a handle outside can be used, and only a free address can
be that of a new node. -/
def step (s : Registration) : Action → Option (Answer × Registration)
  | .create a => (s.custody.create? a).map fun (n, custody) => (.made n, { s with custody })
  | .clone n => (s.custody.clone? n).map fun custody => (.done, { s with custody })
  | .drop n => (s.custody.drop? n).map fun custody => (.done, { s with custody })
  | .look a => some (.found (s.registry.lookup a), s)
  | .register n limit =>
      (s.custody.locate? n).map fun a =>
        match s.registry.register s.custody n a limit with
        | .error e => (.refused e, s)
        | .ok (id, registry, custody) => (.number id, ⟨custody, registry⟩)
  | .renew => some (.done, ⟨s.custody.dropKept s.registry.anchors, {}⟩)

end Registration
end ObjectGraph
