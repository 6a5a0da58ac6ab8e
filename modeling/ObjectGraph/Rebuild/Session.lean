import ObjectGraph.Codec
import ObjectGraph.NodeTable
import ObjectGraph.Rebuild.Hook

/-! One session that rebuilds a graph from a container. Each record becomes one node when its number
is first resolved. The node is in the table before it is filled, so a path back to its number ends
there. Any fault fails the session for good, for nodes may be half filled. -/
namespace ObjectGraph.Rebuild

structure Node (κ ν : Type) where
  kind : κ
  content : ν
  /-- Whether the node is being filled. -/
  busy : Bool := false

inductive Event where
  /-- A record is handed to the codec. -/
  | decoded (id : RecordId)
  /-- A node is made for a record and put into the table, if `inserted`. -/
  | constructed (id : RecordId) (inserted : Bool)
  /-- The hook of a node starts, with this many around it. -/
  | entered (id : RecordId) (depth : Nat)
  | left (id : RecordId)
  /-- A number is resolved, to its node or, if it is absent, to none. -/
  | resolved (id : RecordId) (node : Option Address)
  /-- A request is refused, in a session that has `failed` or not. -/
  | refused (e : Graph.Error) (failed : Bool)
  deriving DecidableEq, Repr

structure Session (κ ν : Type) where
  limits : Limits
  container : Container
  table : NodeTable κ Address
  nodes : Array (Node κ ν) := #[]
  /-- Hooks under way. -/
  depth : Nat := 0
  failed : Bool := false
  /-- What happened, latest first. -/
  trace : List Event := []

namespace Session

variable {κ ν ρ : Type} [DecidableEq κ] [NodeType κ]

def start (container : Container) (limits : Limits) : Except Graph.Error (Session κ ν) :=
  match container.validate limits with
  | .error e => .error (.container e)
  | .ok () => .ok { limits, container, table := .withCapacity container.size }

def recordCount (s : Session κ ν) : Nat := s.container.size

def materializedCount (s : Session κ ν) : Nat := s.table.filled

def typeName? (s : Session κ ν) (id : RecordId) : Option String := do
  let index ← id.index?
  s.container.typeName? index

def note (s : Session κ ν) (e : Event) : Session κ ν := { s with trace := e :: s.trace }

/-- Records handed to the codec so far. -/
def decodes (s : Session κ ν) : Nat :=
  s.trace.countP fun
    | .decoded _ => true
    | _ => false

def glance (s : Session κ ν) : Glance where
  records := s.recordCount
  materialized := s.materializedCount
  failed := s.failed
  typeName? := s.typeName?

/-- How a number is resolved: to its node, or to none if it is absent. -/
abbrev Resolve (κ ν : Type) :=
  κ → RecordId → ν → Session κ ν → Except Graph.Error (Option Address) × Session κ ν

/-- Resolves numbers in order, none of them absent, up to the first refusal. -/
def requireAll (resolve : RecordId → Session κ ν → Except Graph.Error Address × Session κ ν) :
    (ids : List RecordId) → (done : List Address) → Session κ ν →
      Except Graph.Error (List Address) × Session κ ν
  | [], done, s => (.ok done.reverse, s)
  | id :: ids, done, s =>
      match resolve id s with
      | (.error e, s) => (.error e, s)
      | (.ok node, s) => requireAll resolve ids (node :: done) s

def require (schema : Schema κ ν ρ) (resolve : Resolve κ ν) (kind : κ) (id : RecordId)
    (s : Session κ ν) : Except Graph.Error Address × Session κ ν :=
  match resolve kind id (schema.empty kind) s with
  | (.error e, s) => (.error e, s)
  | (.ok none, s) => (.error (.nilReference (typeName kind)), s)
  | (.ok (some node), s) => (.ok node, s)

def answer (schema : Schema κ ν ρ) (resolve : Resolve κ ν) (s : Session κ ν) :
    (c : Call κ ν) → Except Graph.Error c.Answer × Session κ ν
  | .root kind start =>
      if s.container.isEmpty then (.error .emptyContainer, s)
      else match resolve kind .root start s with
        | (.error e, s) => (.error e, s)
        | (.ok none, s) => (.error .emptyContainer, s)
        | (.ok (some node), s) => (.ok node, s)
  | .resolve kind id start => resolve kind id start s
  | .required kind id => require schema resolve kind id s
  | .all kind ids => requireAll (require schema resolve kind) ids [] s

/-- Answers a request and notes it if it is refused. -/
def perform (schema : Schema κ ν ρ) (resolve : Resolve κ ν) (s : Session κ ν) (c : Call κ ν) :
    Except Graph.Error c.Answer × Session κ ν :=
  match s.answer schema resolve c with
  | (.error e, s) => (.error e, s.note (.refused e s.failed))
  | (.ok x, s) => (.ok x, s)

def assign (s : Session κ ν) (node : Address) (content : ν) : Session κ ν :=
  { s with nodes := s.nodes.modify node fun n => { n with content } }

def setBusy (s : Session κ ν) (node : Address) (busy : Bool) : Session κ ν :=
  { s with nodes := s.nodes.modify node fun n => { n with busy } }

def runHook (schema : Schema κ ν ρ) (resolve : Resolve κ ν) (node : Address) :
    Hook κ ν → Session κ ν → Except Graph.Error Unit × Session κ ν
  | .done, s => (.ok (), s)
  | .fail e, s => (.error e, s)
  | .assign content next, s => runHook schema resolve node next (s.assign node content)
  | .call c next, s =>
      let (answer, s) := s.perform schema resolve c
      runHook schema resolve node (next answer) s
  | .look next, s => runHook schema resolve node (next s.glance) s

def construct (s : Session κ ν) (kind : κ) (id : RecordId) (content : ν) : Address × Session κ ν :=
  let node := s.nodes.size
  let (inserted, table) := s.table.insert id kind node
  (node, { s with table, nodes := s.nodes.push { kind, content } }.note (.constructed id inserted))

def enter (s : Session κ ν) (id : RecordId) : Session κ ν :=
  { s with depth := s.depth + 1 }.note (.entered id s.depth)

def leave (s : Session κ ν) (id : RecordId) : Session κ ν :=
  { s with depth := s.depth - 1 }.note (.left id)

/-- Fills a node from its record, unless it is being filled already. -/
def fill (schema : Schema κ ν ρ) (resolve : Resolve κ ν) (id : RecordId) (node : Address)
    (start : ν) (record : ρ) (s : Session κ ν) : Except Graph.Error Unit × Session κ ν :=
  if (s.nodes[node]?).any Node.busy then (.error (.nodeBorrowed id), s)
  else
    let (outcome, s) := runHook schema resolve node (schema.hook start record)
      ((s.enter id).setBusy node true)
    (outcome, (s.setBusy node false).leave id)

/-- What becomes of a record that decodes and has no node yet. -/
abbrev Fresh (κ ν ρ : Type) :=
  κ → RecordId → ν → ρ → Session κ ν → Except Graph.Error (Option Address) × Session κ ν

def materialize (schema : Schema κ ν ρ) (resolve : Resolve κ ν) : Fresh κ ν ρ :=
  fun kind id start record s =>
    let (node, s) := s.construct kind id start
    match s.fill schema resolve id node start record with
    | (.error e, s) => (.error e, s)
    | (.ok (), s) => (.ok (some node), s)

/-- Whether the container has another type name for a record than the one asked for. -/
def checkTypeName (s : Session κ ν) (kind : κ) (id : RecordId) (index : Nat) :
    Except Graph.Error Unit :=
  match s.limits.verifyTypeNames, s.container.typeName? index with
  | true, some found =>
      if found = typeName kind then .ok () else .error (.typeMismatch id (typeName kind) found)
  | _, _ => .ok ()

/-- A refused look-up, told with the type name of the container if it has one. -/
def explain (s : Session κ ν) : Graph.Error → Graph.Error
  | .typeMismatch id expected found => .typeMismatch id expected ((s.typeName? id).getD found)
  | e => e

/-- The node of a number. A record without one is checked and decoded, then left to `fresh`. -/
def find (codec : Codec κ ρ) (fresh : Fresh κ ν ρ) : Resolve κ ν := fun kind id start s =>
  match id.index? with
  | none => (.ok none, s)
  | some index =>
      match s.table.get kind id with
      | .error e => (.error (s.explain e), s)
      | .ok (some node) => (.ok (some node), s)
      | .ok none =>
          match s.container.records[index]? with
          | none => (.error (.unknownId id s.container.size), s)
          | some bytes =>
              match s.checkTypeName kind id index with
              | .error e => (.error e, s)
              | .ok () =>
                  let outcome := codec.decode s.decodes kind bytes
                  let s := s.note (.decoded id)
                  match outcome with
                  | .error source => (.error (.decode id (typeName kind) source), s)
                  | .ok record => fresh kind id start record s

/-- Refuses everything in a failed session, and lets a fault fail the session. A request from
outside is refused also if a hook has passed over a fault. -/
def guard (resolve : Resolve κ ν) : Resolve κ ν := fun kind id start s =>
  if s.failed then (.error .sessionFailed, s)
  else
    match resolve kind id start s with
    | (.error e, s) => (.error e, { s with failed := true })
    | (.ok node, s) =>
        if s.failed ∧ s.depth = 0 then (.error .sessionFailed, s)
        else (.ok node, s.note (.resolved id node))

def tooDeep : Fresh κ ν ρ := fun _ _ _ _ s => (.error (.depthLimit s.limits.maxDepth), s)

/-- Resolves a number with `levels` more hooks allowed inside those under way. -/
def resolve (schema : Schema κ ν ρ) (codec : Codec κ ρ) : (levels : Nat) → Resolve κ ν
  | 0, kind, id, start, s =>
      guard (find codec tooDeep) kind id start s
  | levels+1, kind, id, start, s =>
      guard (find codec (materialize schema (resolve schema codec levels))) kind id start s

def request (schema : Schema κ ν ρ) (codec : Codec κ ρ) (s : Session κ ν) (c : Call κ ν) :
    Except Graph.Error c.Answer × Session κ ν :=
  s.perform schema (resolve schema codec s.limits.maxDepth.toNat) c

/-- Whether a node was made for a record between an earlier and a later state. -/
def constructedSince (later earlier : Session κ ν) (id : RecordId) : Bool :=
  later.table.contains id && !earlier.table.contains id

def debugText (s : Session κ ν) : String :=
  s!"Deserializer \x7b records: {s.recordCount}, registry: {s.table.debugText}, " ++
    s!"depth: {s.depth}, failed: {s.failed}, .. \x7d"

end Session
end ObjectGraph.Rebuild
