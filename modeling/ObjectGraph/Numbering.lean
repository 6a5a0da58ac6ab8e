import ObjectGraph.Graph.Error

/-! Numbers for the nodes of one pass. Each new node gets the number after the last one given out,
starting from the root's, and keeps it. -/
namespace ObjectGraph

structure Numbering (α : Type) where
  /-- The numbered nodes with their numbers, latest first. The pass keeps a handle to each. -/
  assigned : List (α × RecordId) := []
  /-- The number given out last. -/
  last : Option RecordId := none

namespace Numbering

variable {α : Type} [DecidableEq α]

def lookup (n : Numbering α) (node : α) : Option RecordId := n.assigned.lookup node

def next (n : Numbering α) : Nat :=
  match n.last with
  | none => RecordId.root.raw.toNat
  | some id => id.raw.toNat + 1

/-- The number of a node, which gets the next one if it has none. At most `limit` numbers are given
out, and never the absent reference. -/
def register (n : Numbering α) (node : α) (limit : UInt32) :
    Except Graph.Error (RecordId × Numbering α) :=
  match n.lookup node with
  | some id => .ok (id, n)
  | none =>
      if limit.toNat ≤ n.next ∨ RecordId.nil.raw.toNat ≤ n.next then .error (.tooManyObjects limit)
      else
        let id : RecordId := ⟨UInt32.ofNat n.next⟩
        .ok (id, ⟨(node, id) :: n.assigned, some id⟩)

/-- A registered node has the number it was given. -/
theorem lookup_of_register {n m : Numbering α} {node : α} {limit : UInt32} {id : RecordId}
    (h : n.register node limit = .ok (id, m)) : m.lookup node = some id := by
  simp only [register] at h
  split at h
  · next hl => cases h; exact hl
  · split at h
    · cases h
    · cases h; simp [lookup]

def size (n : Numbering α) : Nat := n.assigned.length

def account (size : Nat) (last : Option RecordId) : String :=
  let last := match last with
    | none => "None"
    | some id => s!"Some({id.debugText})"
  s!"IdentityRegistry \x7b len: {size}, last: {last} \x7d"

def debugText (n : Numbering α) : String := account n.size n.last

end Numbering
end ObjectGraph
