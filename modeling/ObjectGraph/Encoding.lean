import ObjectGraph.Cbor.Decode
import ObjectGraph.Cbor.Encode
import ObjectGraph.Layout.Cbor
import ObjectGraph.Layout.Json

/-! The two byte forms of a record: deterministic CBOR and JSON. -/
namespace ObjectGraph

inductive Encoding where
  | cbor
  | json
  deriving DecidableEq, Repr

namespace Encoding

def name : Encoding → String
  | .cbor => "cbor"
  | .json => "json"

inductive Error where
  /-- A CBOR item of another layout. -/
  | layout (m : Mismatch)
  | canonical (e : Cbor.Error)
  | json (fault : Json.Fault)
  /-- Any other reason not to encode or decode a record. -/
  | other (reason : String)
  deriving DecidableEq, Repr

/-- The text of an error. Faults of JSON documents are told by their kind alone. -/
def Error.message? : Error → Option String
  | .layout m => some s!"cbor value mapping: Custom({Text.quoted (m.message .plain)})"
  | .canonical e => some s!"canonical cbor: {e.message}"
  | .json _ => none
  | .other reason => some reason

def encode (f : Form) (x : f.Val) : Encoding → Except Error Bytes
  | .cbor => (Cbor.encode (f.toCbor x)).mapError .canonical
  | .json => .ok (f.toJson x)

def decode (f : Form) (bs : Bytes) : Encoding → Except Error f.Val
  | .cbor => do
      let v ← (Cbor.decode bs).mapError .canonical
      (f.ofCbor v).mapError .layout
  | .json => (f.ofJson bs).mapError .json

end Encoding
end ObjectGraph
