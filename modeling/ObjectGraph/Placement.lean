import ObjectGraph.Custody
import ObjectGraph.NodeTable

/-! Nodes of different types in memory, and a table that some of them are put into. The table keeps
a handle to each node it holds. -/
namespace ObjectGraph

open Memory (Node Address)

structure Placement (κ : Type) where
  custody : Custody := {}
  /-- The types of all nodes made so far. -/
  kinds : List κ := []
  table : NodeTable κ Node

namespace Placement

variable {κ : Type} [DecidableEq κ] [NodeType κ]

def withCapacity (records : Nat) : Placement κ := { table := .withCapacity records }

inductive Action (κ : Type) where
  /-- Makes a node of a type at an address. -/
  | create (kind : κ) (a : Address)
  | clone (n : Node)
  | drop (n : Node)
  /-- Puts a node into the table. -/
  | insert (n : Node) (id : RecordId)
  /-- Asks the table for a handle to the node of a number. -/
  | get (kind : κ) (id : RecordId)
  | contains (id : RecordId)
  deriving DecidableEq, Repr

inductive Answer where
  | made (n : Node)
  | done
  | flag (b : Bool)
  | node (n : Option Node)
  | refused (e : Graph.Error)
  deriving DecidableEq, Repr

def kind? (s : Placement κ) (n : Node) : Option κ :=
  if n ∈ s.custody.outside then s.kinds[n]? else none

/-- What an action does. Only a node with a handle outside can be used, and only a free address can
be that of a new node. -/
def step (s : Placement κ) : Action κ → Option (Answer × Placement κ)
  | .create kind a =>
      (s.custody.create? a).map fun (n, custody) =>
        (.made n, { s with custody, kinds := s.kinds ++ [kind] })
  | .clone n => (s.custody.clone? n).map fun custody => (.done, { s with custody })
  | .drop n => (s.custody.drop? n).map fun custody => (.done, { s with custody })
  | .insert n id =>
      (s.kind? n).map fun kind =>
        let (done, table) := s.table.insert id kind n
        (.flag done, { s with table, custody := if done then s.custody.keep n else s.custody })
  | .get kind id =>
      match s.table.get kind id with
      | .error e => some (.refused e, s)
      | .ok none => some (.node none, s)
      | .ok (some n) => some (.node (some n), { s with custody := s.custody.hand n })
  | .contains id => some (.flag (s.table.contains id), s)

end Placement
end ObjectGraph
