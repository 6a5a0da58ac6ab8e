import ObjectGraph.Graph.Error

/-! What a node does to turn itself into a record: a program that asks the session for the numbers
of the nodes it refers to. -/
namespace ObjectGraph.Flatten

/-- A program over nodes `α` that ends with a record in `ρ` or a fault. It sees every answer of the
session, also a refusal, and goes on as it likes. -/
inductive Hook (α ρ : Type) where
  | done (record : ρ)
  | fail (e : Graph.Error)
  /-- Asks for the number of a node. -/
  | serialize (node : α) (next : Except Graph.Error RecordId → Hook α ρ)
  /-- Asks how many nodes have a number. -/
  | look (next : (objects : Nat) → Hook α ρ)

namespace Hook

/-- Goes on with an answer and gives up at a refusal. -/
def orFail (next : β → Hook α ρ) : Except Graph.Error β → Hook α ρ
  | .ok x => next x
  | .error e => .fail e

def serializeOption (node : Option α) (next : Except Graph.Error RecordId → Hook α ρ) : Hook α ρ :=
  match node with
  | none => next (.ok .nil)
  | some node => .serialize node next

/-- The numbers of nodes in order, behind those in `ids`, last first. The first refusal is the
answer. -/
def serializeAll : (nodes : List α) → (ids : List RecordId) →
    (next : Except Graph.Error (List RecordId) → Hook α ρ) → Hook α ρ
  | [], ids, next => next (.ok ids.reverse)
  | node :: nodes, ids, next =>
      .serialize node fun
        | .ok id => serializeAll nodes (id :: ids) next
        | .error e => next (.error e)

end Hook

/-- How contents `ν` of nodes `α` become records `ρ`. -/
structure Schema (α ν ρ : Type) where
  typeName : ν → String
  hook : ν → Hook α ρ

end ObjectGraph.Flatten
