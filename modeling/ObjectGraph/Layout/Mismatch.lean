import ObjectGraph.Decimal.Style
import ObjectGraph.Text.Quoted

/-! How a document can fail to have a layout. -/
namespace ObjectGraph

/-- What stands where a value of another type belongs. -/
inductive Found where
  | null
  | bool (b : Bool)
  | integer (n : Int)
  | float (x : Binary64)
  | text (s : String)
  | bytes
  | sequence
  | map
  deriving DecidableEq, Repr

def Found.phrase (style : Decimal.Style) : Found → String
  | .null => "null"
  | .bool b => s!"boolean `{b}`"
  | .integer n => s!"integer `{n}`"
  | .float x => s!"floating point `{style.text x}`"
  | .text s => s!"string {Text.quoted s}"
  | .bytes => "byte array"
  | .sequence => "sequence"
  | .map => "map"

inductive Mismatch where
  | invalidType (found : Found) (expected : String)
  /-- A value of the right type outside its range. -/
  | invalidValue (found : Found) (expected : String)
  | invalidLength (count : Nat) (expected : String)
  | missingField (name : String)
  | duplicateField (name : String)
  | unknownField (name : String) (known : List String)
  deriving DecidableEq, Repr

def Mismatch.message (style : Decimal.Style) : Mismatch → String
  | .invalidType found expected => s!"invalid type: {found.phrase style}, expected {expected}"
  | .invalidValue found expected => s!"invalid value: {found.phrase style}, expected {expected}"
  | .invalidLength count expected => s!"invalid length {count}, expected {expected}"
  | .missingField name => s!"missing field `{name}`"
  | .duplicateField name => s!"duplicate field `{name}`"
  | .unknownField name known =>
      let names := String.intercalate ", " (known.map fun k => s!"`{k}`")
      s!"unknown field `{name}`, expected one of {names}"

end ObjectGraph
