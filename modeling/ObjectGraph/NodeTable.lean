import ObjectGraph.Graph.Error

/-! The nodes made so far for the records of a container, by record number. -/
namespace ObjectGraph

/-- A slot for each record. A filled one holds a node and its type, for good. -/
structure NodeTable (κ α : Type) where
  slots : Array (Option (κ × α))
  filled : Nat := 0

namespace NodeTable

variable {κ α : Type}

def withCapacity (records : Nat) : NodeTable κ α := ⟨Array.replicate records none, 0⟩

def capacity (t : NodeTable κ α) : Nat := t.slots.size

def entry? (t : NodeTable κ α) (id : RecordId) : Option (κ × α) := do
  let index ← id.index?
  (t.slots[index]?).join

def contains (t : NodeTable κ α) (id : RecordId) : Bool := (t.entry? id).isSome

def get [DecidableEq κ] [NodeType κ] (t : NodeTable κ α) (kind : κ) (id : RecordId) :
    Except Graph.Error (Option α) :=
  match t.entry? id with
  | none => .ok none
  | some (found, node) =>
      if found = kind then .ok (some node)
      else .error (.typeMismatch id (typeName kind) "a node of another type")

/-- Fills the slot of a record, unless there is none or it is filled. -/
def insert (t : NodeTable κ α) (id : RecordId) (kind : κ) (node : α) : Bool × NodeTable κ α :=
  match id.index? with
  | none => (false, t)
  | some index =>
      match t.slots[index]? with
      | some none => (true, ⟨t.slots.setIfInBounds index (some (kind, node)), t.filled + 1⟩)
      | _ => (false, t)

@[simp] theorem entry?_nil (t : NodeTable κ α) : t.entry? .nil = none := rfl

@[simp] theorem capacity_insert (t : NodeTable κ α) (id : RecordId) (kind : κ) (node : α) :
    (t.insert id kind node).2.capacity = t.capacity := by
  simp only [insert]
  split
  · rfl
  · split <;> simp [capacity]

/-- A table has room for a node exactly where a record has none. -/
theorem insert_fst (t : NodeTable κ α) (id : RecordId) (kind : κ) (node : α) :
    (t.insert id kind node).1 = true ↔
      ∃ index, id.index? = some index ∧ t.slots[index]? = some none := by
  simp only [insert]
  split
  · next h => simp [h]
  · next index h => split <;> simp_all

def handles [DecidableEq α] (t : NodeTable κ α) (node : α) : Nat :=
  t.slots.countP fun slot => slot.any fun (_, held) => held = node

def debugText (t : NodeTable κ α) : String :=
  s!"MaterializedRegistry \x7b capacity: {t.capacity}, filled: {t.filled} \x7d"

end NodeTable
end ObjectGraph
