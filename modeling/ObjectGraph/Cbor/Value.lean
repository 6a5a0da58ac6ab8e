import ObjectGraph.Binary64
import ObjectGraph.Text.Utf8

/-! CBOR data items and the faults of their deterministic byte form. -/
namespace ObjectGraph.Cbor

/-- A CBOR data item. Whole numbers carry their sign in the constructor, as the wire does:
`negative n` is `-1 - n`, so the two together reach from -2^64 to 2^64 - 1. -/
inductive Value where
  | null
  | bool (b : Bool)
  | unsigned (n : UInt64)
  | negative (n : UInt64)
  | float (x : Binary64)
  | bytes (bs : Bytes)
  | text (s : String)
  | array (items : List Value)
  | map (entries : List (Value × Value))
  | tag (number : UInt64) (content : Value)
  deriving Repr

/-- The item for a whole number between -2^64 and 2^64 - 1. -/
def Value.ofInt (n : Int) : Value :=
  if 0 ≤ n then .unsigned (UInt64.ofNat n.toNat) else .negative (UInt64.ofNat (-1 - n).toNat)

def Value.toInt? : Value → Option Int
  | .unsigned n => some n.toNat
  | .negative n => some (-1 - (n.toNat : Int))
  | _ => none

mutual
/-- Levels of nesting: a scalar has one, and map keys and values lie one level below their map. -/
def Value.depth : Value → Nat
  | .array items => deepestItem items 0 + 1
  | .map entries => deepestEntry entries 0 + 1
  | .tag _ content => content.depth + 1
  | _ => 1

/-- The greatest depth among the items, if it is above `least`. -/
def Value.deepestItem : List Value → (least : Nat) → Nat
  | [], least => least
  | v :: vs, least => deepestItem vs (max least v.depth)

def Value.deepestEntry : List (Value × Value) → (least : Nat) → Nat
  | [], least => least
  | (k, v) :: es, least => deepestEntry es (max least (max k.depth v.depth))
end

mutual
/-- Items in the tree, map keys counted. -/
def Value.count : Value → Nat
  | .array items => countItems items 1
  | .map entries => countEntries entries 1
  | .tag _ content => content.count + 1
  | _ => 1

def Value.countItems : List Value → (before : Nat) → Nat
  | [], before => before
  | v :: vs, before => countItems vs (before + v.count)

def Value.countEntries : List (Value × Value) → (before : Nat) → Nat
  | [], before => before
  | (k, v) :: es, before => countEntries es (before + k.count + v.count)
end

inductive Error where
  | incomplete
  | trailing
  | tag
  | indefinite
  /-- An integer or a length in more bytes than it needs. -/
  | wideInteger
  /-- A float in more bytes than it needs. -/
  | wideFloat
  /-- A float that denotes a whole number an integer item can hold. -/
  | wholeFloat
  | keyOrder
  | keyDuplicate
  /-- An initial byte that announces no length. -/
  | lengthInfo
  /-- A negative integer that does not fit 64 signed bits. -/
  | integerRange
  /-- A text string that is not UTF-8. -/
  | text (fault : Utf8.Fault)
  /-- A simple value other than null and the truth values. -/
  | simpleValue
  deriving DecidableEq, Repr

def Error.message : Error → String
  | .incomplete => "incomplete input"
  | .trailing => "trailing bytes after value"
  | .tag => "tags not allowed"
  | .indefinite => "indefinite length not allowed"
  | .wideInteger => "non-canonical integer width"
  | .wideFloat => "non-canonical float width"
  | .wholeFloat => "float encodes integral value; must be integer"
  | .keyOrder => "map keys not strictly increasing"
  | .keyDuplicate => "duplicate map key"
  | .lengthInfo => "decode error: invalid length info"
  | .integerRange => "decode error: integer out of range"
  | .text fault => s!"decode error: utf8: {fault.message}"
  | .simpleValue => "decode error: simple value not supported"

end ObjectGraph.Cbor
