import ObjectGraph.Container
import ObjectGraph.Encoding
import ObjectGraph.RecordId

/-! Faults of the sessions that flatten and rebuild graphs. -/
namespace ObjectGraph

class NodeType (κ : Type) where
  typeName : κ → String

export NodeType (typeName)

namespace Graph

inductive Error where
  /-- A second root for a session that has had one. -/
  | rootAlreadySerialized
  | tooManyObjects (limit : UInt32)
  | depthLimit (limit : UInt64)
  /-- The caller holds a borrow that keeps the session from the node. -/
  | nodeBorrowed (id : RecordId)
  | encode (id : RecordId) (typeName : String) (source : Encoding.Error)
  | recordTooLarge (id : RecordId) (typeName : String) (len limit : Nat)
  | decode (id : RecordId) (typeName : String) (source : Encoding.Error)
  /-- A numbered node whose record was never produced. -/
  | incompleteGraph (id : RecordId)
  | unknownId (id : RecordId) (count : Nat)
  | emptyContainer
  /-- An absent reference where a node is required. -/
  | nilReference (typeName : String)
  | typeMismatch (id : RecordId) (expected found : String)
  /-- The session has failed before. -/
  | sessionFailed
  | container (source : Container.Error)
  deriving DecidableEq, Repr

/-- The text of an error, unless it stems from a fault that has none. -/
def Error.message? : Error → Option String
  | .rootAlreadySerialized => some "only one root object is allowed per serializer"
  | .tooManyObjects limit => some s!"object graph exceeds {limit} distinct nodes"
  | .depthLimit limit => some s!"reference chain deeper than {limit} nodes"
  | .nodeBorrowed id => some s!"node {id} is already borrowed"
  | .encode id typeName source =>
      source.message?.map fun text => s!"failed to encode record {id} ({typeName}): {text}"
  | .recordTooLarge id typeName len limit =>
      some s!"record {id} ({typeName}) is {len} bytes, limit {limit}"
  | .decode id typeName source =>
      source.message?.map fun text => s!"failed to decode record {id} as {typeName}: {text}"
  | .incompleteGraph id => some s!"record {id} was never produced"
  | .unknownId id count => some s!"record {id} does not exist (container holds {count} records)"
  | .emptyContainer => some "wire container is empty"
  | .nilReference typeName => some s!"required reference to {typeName} is nil"
  | .typeMismatch id expected found => some s!"record {id} is not a {expected} (found {found})"
  | .sessionFailed => some "deserializer session already failed"
  | .container source => some source.message

end Graph
end ObjectGraph
