import ObjectGraph.Borrow
import ObjectGraph.Codec
import ObjectGraph.Flatten.Hook
import ObjectGraph.Numbering

/-! One pass that flattens the graph below a root: each node gets a number when it is first met, and
its record once the nodes it refers to have theirs. A node on the way is numbered already, so cycles
end. -/
namespace ObjectGraph.Flatten

structure Cell (ν : Type) where
  content : ν
  borrow : Borrow := .free

structure Pending (ρ : Type) where
  typeName : String
  record : ρ

inductive Event where
  /-- The hook of a node starts, with this many around it. -/
  | entered (id : RecordId) (depth : Nat)
  | left (id : RecordId)
  deriving DecidableEq, Repr

structure Session (α ρ : Type) where
  limits : Limits
  numbering : Numbering α := {}
  /-- The records by number. A node's slot stays empty until its hook is done. -/
  records : Array (Option (Pending ρ)) := #[]
  /-- Hooks under way. -/
  depth : Nat := 0
  rootTaken : Bool := false
  /-- What happened, latest first. -/
  trace : List Event := []

namespace Session

variable {α ν ρ κ : Type} [DecidableEq α]

/-- Distinct nodes with a number. -/
def objectCount (s : Session α ρ) : Nat := s.numbering.size

def inTraversal (s : Session α ρ) : Bool := 0 < s.depth

/-- How a visit answers: with the node's number, or a fault. -/
abbrev Visit (α ρ : Type) := α → Session α ρ → Except Graph.Error RecordId × Session α ρ

def runHook (visit : Visit α ρ) :
    Hook α ρ → Session α ρ → Except Graph.Error ρ × Session α ρ
  | .done record, s => (.ok record, s)
  | .fail e, s => (.error e, s)
  | .serialize node next, s =>
      let (answer, s) := visit node s
      runHook visit (next answer) s
  | .look next, s => runHook visit (next s.objectCount) s

def enter (s : Session α ρ) (id : RecordId) : Session α ρ :=
  { s with depth := s.depth + 1, trace := .entered id s.depth :: s.trace }

def leave (s : Session α ρ) (id : RecordId) : Session α ρ :=
  { s with depth := s.depth - 1, trace := .left id :: s.trace }

def store (s : Session α ρ) (index : Nat) (record : Pending ρ) : Session α ρ :=
  { s with records := s.records.setIfInBounds index (some record) }

/-- Runs the hook of a node that has just got its number, unless the caller writes to the node. -/
def produce (schema : Schema α ν ρ) (visit : Visit α ρ) (id : RecordId) (cell : Cell ν)
    (s : Session α ρ) : Except Graph.Error ρ × Session α ρ :=
  if cell.borrow.isExclusive then (.error (.nodeBorrowed id), s)
  else
    let (outcome, s) := runHook visit (schema.hook cell.content) (s.enter id)
    (outcome, s.leave id)

/-- Numbers a node that has no number yet, then produces its record. -/
def welcome (schema : Schema α ν ρ) (heap : α → Cell ν) (visit : Visit α ρ) : Visit α ρ :=
  fun node s =>
    match s.numbering.register node s.limits.maxRecords with
    | .error e => (.error e, s)
    | .ok (id, numbering) =>
        let s := { s with numbering, records := s.records.push none }
        match id.index? with
        | none => (.error (.tooManyObjects s.limits.maxRecords), s)
        | some index =>
            let cell := heap node
            match produce schema visit id cell s with
            | (.error e, s) => (.error e, s)
            | (.ok record, s) => (.ok id, s.store index ⟨schema.typeName cell.content, record⟩)

/-- The number of a node. One that has none is dealt with by `fresh`. -/
def known (fresh : Visit α ρ) : Visit α ρ := fun node s =>
  match s.numbering.lookup node with
  | some id => (.ok id, s)
  | none => fresh node s

def tooDeep : Visit α ρ := fun _ s => (.error (.depthLimit s.limits.maxDepth), s)

/-- Visits a node with `levels` more hooks allowed inside those under way. -/
def visit (schema : Schema α ν ρ) (heap : α → Cell ν) : (levels : Nat) → Visit α ρ
  | 0, node, s => known tooDeep node s
  | levels+1, node, s => known (welcome schema heap (visit schema heap levels)) node s

/-- Flattens the graph below a root, once in a session. -/
def serialize (schema : Schema α ν ρ) (heap : α → Cell ν) (root : α) (s : Session α ρ) :
    Except Graph.Error RecordId × Session α ρ :=
  if s.rootTaken then (.error .rootAlreadySerialized, s)
  else visit schema heap s.limits.maxDepth.toNat root { s with rootTaken := true }

def serializeOption (schema : Schema α ν ρ) (heap : α → Cell ν) (node : Option α)
    (s : Session α ρ) : Except Graph.Error RecordId × Session α ρ :=
  match node with
  | none => (.ok .nil, s)
  | some node => s.serialize schema heap node

/-- Serializes nodes in order, those in `done` before them, last first, up to the first refusal. -/
def serializeAll (schema : Schema α ν ρ) (heap : α → Cell ν) :
    (nodes : List α) → (done : List RecordId) → Session α ρ →
      Except Graph.Error (List RecordId) × Session α ρ
  | [], done, s => (.ok done.reverse, s)
  | node :: nodes, done, s =>
      match s.serialize schema heap node with
      | (.error e, s) => (.error e, s)
      | (.ok id, s) => serializeAll schema heap nodes (id :: done) s

def encodeRecord (codec : Codec κ ρ) (limits : Limits) (calls : Nat) (id : RecordId)
    (p : Pending ρ) : Except Graph.Error Bytes :=
  match codec.encode calls p.record with
  | .error source => .error (.encode id p.typeName source)
  | .ok bs =>
      if limits.maxRecordLen.toNat < bs.length then
        .error (.recordTooLarge id p.typeName bs.length limits.maxRecordLen.toNat)
      else .ok bs

/-- Encodes `n` records from position `index` on, each after as many others as its number says.
Returns the type names and bytes with the count of encodings, failed ones included. -/
def encodeRecords (codec : Codec κ ρ) (s : Session α ρ) :
    (n index : Nat) → (done : List (String × Bytes)) →
      Except Graph.Error (List (String × Bytes)) × Nat
  | 0, index, done => (.ok done.reverse, index)
  | n+1, index, done =>
      let id := (RecordId.ofIndex? index).getD .nil
      match (s.records[index]?).join with
      | none => (.error (.incompleteGraph id), index)
      | some p =>
          match encodeRecord codec s.limits index id p with
          | .error e => (.error e, index + 1)
          | .ok bs => encodeRecords codec s n (index + 1) ((p.typeName, bs) :: done)

/-- Ends the session: the container of its records, with or without their type names, and the count
of encodings. A node without a record leaves none. -/
def finish (codec : Codec κ ρ) (names : Bool) (s : Session α ρ) :
    Except Graph.Error Container × Nat :=
  let (outcome, calls) := encodeRecords codec s s.objectCount 0 []
  (outcome.map fun rows => {
    records := rows.map Prod.snd
    typeNames := if names then some (rows.map Prod.fst) else none }, calls)

def intoContainer (codec : Codec κ ρ) (names : Bool) (s : Session α ρ) :
    Except Graph.Error Container :=
  (s.finish codec names).1

def debugText (s : Session α ρ) : String :=
  s!"Serializer \x7b registry: {s.numbering.debugText}, depth: {s.depth}, " ++
    s!"root_taken: {s.rootTaken}, .. \x7d"

end Session
end ObjectGraph.Flatten
