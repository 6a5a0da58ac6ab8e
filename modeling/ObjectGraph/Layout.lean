import ObjectGraph.Bytes

/-! Layouts of flat records: the types of their fields and the values of such types. One description
serves every encoding of a record. -/
namespace ObjectGraph

inductive Word where
  | u8
  | u32
  | i32
  /-- Sizes and counts in memory. -/
  | size
  deriving DecidableEq, Repr

namespace Word

abbrev Val : Word → Type
  | .u8 => UInt8
  | .u32 => UInt32
  | .i32 => Int32
  | .size => UInt64

def name : Word → String
  | .u8 => "u8"
  | .u32 => "u32"
  | .i32 => "i32"
  | .size => "usize"

def toInt : (w : Word) → w.Val → Int
  | .u8, n => UInt8.toNat n
  | .u32, n => UInt32.toNat n
  | .i32, n => Int32.toInt n
  | .size, n => UInt64.toNat n

def ofInt? : (w : Word) → Int → Option w.Val
  | .u8, n => if 0 ≤ n ∧ n < 0x100 then some (UInt8.ofNat n.toNat) else none
  | .u32, n => if 0 ≤ n ∧ n < 0x100000000 then some (UInt32.ofNat n.toNat) else none
  | .i32, n => if -0x80000000 ≤ n ∧ n < 0x80000000 then some (Int32.ofInt n) else none
  | .size, n => if 0 ≤ n ∧ n < 0x10000000000000000 then some (UInt64.ofNat n.toNat) else none

theorem ofInt?_toInt (w : Word) (n : w.Val) : w.ofInt? (w.toInt n) = some n := by
  cases w with
  | u8 => have := UInt8.toNat_lt n; simp [ofInt?, toInt]; omega
  | u32 => have := UInt32.toNat_lt n; simp [ofInt?, toInt]; omega
  | i32 =>
    exact (if_pos ⟨Int32.le_toInt n, Int32.toInt_lt n⟩).trans
      (congrArg some (Int32.ofInt_toInt n))
  | size => have := UInt64.toNat_lt n; simp [ofInt?, toInt]; omega

end Word

inductive Shape where
  | text
  | bool
  | word (w : Word)
  | list (item : Shape)
  | optional (item : Shape)
  deriving DecidableEq, Repr

abbrev Shape.Val : Shape → Type
  | .text => String
  | .bool => Bool
  | .word w => w.Val
  | .list item => List item.Val
  | .optional item => Option item.Val

/-- What a field of an optional type holds when it is left out. -/
def Shape.absent? : (s : Shape) → Option s.Val
  | .optional _ => some none
  | _ => none

structure Field where
  name : String
  shape : Shape
  /-- The value of the field when it is left out, if it may be. -/
  default? : Option shape.Val := none

namespace Field

abbrev Vals : List Field → Type
  | [] => Unit
  | f :: fs => f.shape.Val × Vals fs

/-- Fields of which some have been read. -/
abbrev Slots : List Field → Type
  | [] => Unit
  | f :: fs => Option f.shape.Val × Slots fs

def noSlots : (fs : List Field) → Slots fs
  | [] => ()
  | _ :: fs => (none, noSlots fs)

def isRead (name : String) : (fs : List Field) → Slots fs → Bool
  | [], () => false
  | f :: fs, (slot, slots) => if f.name = name then slot.isSome else isRead name fs slots

/-- Reads the field of this name, if there is one. The reader also returns a state of its own. -/
def readNamed (read : (s : Shape) → Except ε (s.Val × σ)) (name : String) :
    (fs : List Field) → Slots fs → Option (Except ε (Slots fs × σ))
  | [], () => none
  | f :: fs, (slot, slots) =>
      if f.name = name then
        some ((read f.shape).map fun (x, state) => ((some x, slots), state))
      else
        (readNamed read name fs slots).map fun step =>
          step.map fun (slots, state) => ((slot, slots), state)

def leftOut? (f : Field) : Option f.shape.Val := f.default? <|> f.shape.absent?

/-- The values of all fields, or the name of the first that has none. -/
def close : (fs : List Field) → Slots fs → Except String (Vals fs)
  | [], () => .ok ()
  | f :: fs, (slot, slots) =>
      match slot <|> f.leftOut? with
      | none => .error f.name
      | some x => (close fs slots).map fun xs => (x, xs)

end Field

/-- A record type: its name and its fields in order. A closed one admits no further fields. -/
structure Layout where
  name : String
  fields : List Field
  closed : Bool := false

abbrev Layout.Val (l : Layout) : Type := Field.Vals l.fields

/-- What an encoded record holds: a bare number or the fields of a layout. -/
inductive Form where
  | bare (w : Word)
  | fields (l : Layout)

abbrev Form.Val : Form → Type
  | .bare w => w.Val
  | .fields l => l.Val

end ObjectGraph
