import ObjectGraph.Graph.Error

/-! What a new node does to fill itself from its record: a program that asks the session for the
nodes of record numbers. -/
namespace ObjectGraph.Rebuild

/-- A node of the graph being built: its place among the nodes made so far. -/
abbrev Address := Nat

/-- A request to a session. `start` is what a new node holds at first. -/
inductive Call (κ ν : Type) where
  /-- The node of the first record. -/
  | root (kind : κ) (start : ν)
  /-- The node of a record, or none for the absent reference. -/
  | resolve (kind : κ) (id : RecordId) (start : ν)
  /-- The node of a record; the absent reference is refused. -/
  | required (kind : κ) (id : RecordId)
  /-- The nodes of records, none of which is the absent reference. -/
  | all (kind : κ) (ids : List RecordId)

abbrev Call.Answer : Call κ ν → Type
  | .root .. => Address
  | .resolve .. => Option Address
  | .required .. => Address
  | .all .. => List Address

structure Glance where
  records : Nat
  materialized : Nat
  failed : Bool
  typeName? : RecordId → Option String

/-- A program of a node that is being filled. It sees every answer of the session, also a refusal,
and goes on as it likes. -/
inductive Hook (κ ν : Type) where
  | done
  | fail (e : Graph.Error)
  /-- Replaces what the node holds. -/
  | assign (content : ν) (next : Hook κ ν)
  | call (c : Call κ ν) (next : Except Graph.Error c.Answer → Hook κ ν)
  | look (next : Glance → Hook κ ν)

/-- Goes on with an answer and gives up at a refusal. -/
def Hook.orFail (next : β → Hook κ ν) : Except Graph.Error β → Hook κ ν
  | .ok x => next x
  | .error e => .fail e

/-- How contents `ν` of nodes, of a type in `κ`, are filled from records `ρ`. -/
structure Schema (κ ν ρ : Type) where
  empty : κ → ν
  hook : (start : ν) → ρ → Hook κ ν

end ObjectGraph.Rebuild
