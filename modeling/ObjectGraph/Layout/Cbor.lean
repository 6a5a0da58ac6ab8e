import ObjectGraph.Cbor.Value
import ObjectGraph.Layout
import ObjectGraph.Layout.Mismatch

/-! Records as CBOR items: a record is a map from field names to values, an absent value is null and
a list is an array. -/
namespace ObjectGraph

namespace Shape

def toCbor : (s : Shape) → s.Val → Cbor.Value
  | .text, x => .text x
  | .bool, x => .bool x
  | .word w, x => .ofInt (w.toInt x)
  | .list item, xs => .array (xs.map (toCbor item))
  | .optional _, none => .null
  | .optional item, some x => toCbor item x

/-- How an item is named where another type is expected. -/
def found : Cbor.Value → Found
  | .null => .null
  | .bool b => .bool b
  | .unsigned n => .integer n.toNat
  | .negative n => .integer (-1 - (n.toNat : Int))
  | .float x => .float x
  | .bytes _ => .bytes
  | .text s => .text s
  | .array _ => .sequence
  | .map _ => .map
  | .tag _ content => found content

/-- The name of a whole-number type among CBOR integers, which know no platform word. -/
def wordName : Word → String
  | .size => "u64"
  | w => w.name

def collect (read : α → Except ε β) : List α → (done : List β) → Except ε (List β)
  | [], done => .ok done.reverse
  | x :: xs, done =>
      match read x with
      | .error e => .error e
      | .ok y => collect read xs (y :: done)

def ofCbor : (s : Shape) → Cbor.Value → Except Mismatch s.Val
  | .text, v =>
      match v with
      | .text s => .ok s
      | _ => .error (.invalidType (found v) "str")
  | .bool, v =>
      match v with
      | .bool b => .ok b
      | _ => .error (.invalidType (found v) "bool")
  | .word w, v =>
      match v.toInt? with
      | none => .error (.invalidType (found v) "(big)int")
      | some n =>
          match w.ofInt? n with
          | some x => .ok x
          | none => .error (.invalidType (found v) (wordName w))
  | .list item, v =>
      match v with
      | .array items => collect (ofCbor item) items []
      | _ => .error (.invalidType (found v) "array")
  | .optional item, v =>
      match v with
      | .null => .ok none
      | _ => (ofCbor item v).map some

end Shape

namespace Layout

def entries : (fs : List Field) → Field.Vals fs → List (Cbor.Value × Cbor.Value)
  | [], () => []
  | f :: fs, (x, xs) => (.text f.name, f.shape.toCbor x) :: entries fs xs

def toCbor (l : Layout) (x : l.Val) : Cbor.Value := .map (entries l.fields x)

/-- Reads map entries in order. Unless the layout is closed, other fields are passed over. -/
def ofEntries (l : Layout) :
    List (Cbor.Value × Cbor.Value) → Field.Slots l.fields → Except Mismatch (Field.Slots l.fields)
  | [], slots => .ok slots
  | (.text name, v) :: es, slots =>
      if Field.isRead name l.fields slots then .error (.duplicateField name)
      else
        match Field.readNamed (fun s => (s.ofCbor v).map fun x => (x, ())) name l.fields slots with
        | some (.error e) => .error e
        | some (.ok (slots, ())) => ofEntries l es slots
        | none =>
            if l.closed then .error (.unknownField name (l.fields.map Field.name))
            else ofEntries l es slots
  | (k, _) :: _, _ => .error (.invalidType (Shape.found k) "str")

def ofCbor (l : Layout) (v : Cbor.Value) : Except Mismatch l.Val :=
  match v with
  | .map es => do
      let slots ← l.ofEntries es (Field.noSlots l.fields)
      (Field.close l.fields slots).mapError .missingField
  | _ => .error (.invalidType (Shape.found v) "map")

end Layout

namespace Form

def toCbor : (f : Form) → f.Val → Cbor.Value
  | .bare w, x => Shape.toCbor (.word w) x
  | .fields l, x => l.toCbor x

def ofCbor : (f : Form) → Cbor.Value → Except Mismatch f.Val
  | .bare w, v => Shape.ofCbor (.word w) v
  | .fields l, v => l.ofCbor v

end Form
end ObjectGraph
