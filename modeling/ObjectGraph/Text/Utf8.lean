import ObjectGraph.Bytes

/-! Text as UTF-8. The reader runs one byte at a time and says where and how a text breaks off. -/
namespace ObjectGraph.Utf8

def encode (text : List Char) : Bytes := text.flatMap String.utf8EncodeChar

def ofString (text : String) : Bytes := encode text.toList

/-- Why bytes are not UTF-8. `valid` counts the bytes of the characters before the fault. -/
inductive Fault where
  /-- The bytes end inside a character. -/
  | incomplete (valid : Nat)
  /-- `length` bytes begin a character that the next byte does not continue. -/
  | invalid (length valid : Nat)
  deriving DecidableEq, Repr

def Fault.message : Fault → String
  | .incomplete valid => s!"incomplete utf-8 byte sequence from index {valid}"
  | .invalid length valid => s!"invalid utf-8 sequence of {length} bytes from index {valid}"

/-- A character under way: bytes read, bytes to come, the range of the next one, and the bits so
far. -/
structure Pending where
  seen : Nat
  need : Nat
  low : UInt8
  high : UInt8
  value : Nat

/-- What a first byte above the ASCII range announces. The ranges keep out overlong forms,
surrogates and numbers above the last character. -/
def Pending.ofLead (b : UInt8) : Option Pending :=
  if b < 0xc2 then none
  else if b < 0xe0 then some ⟨1, 1, 0x80, 0xbf, b.toNat % 32⟩
  else if b = 0xe0 then some ⟨1, 2, 0xa0, 0xbf, 0⟩
  else if b = 0xed then some ⟨1, 2, 0x80, 0x9f, 13⟩
  else if b < 0xf0 then some ⟨1, 2, 0x80, 0xbf, b.toNat % 16⟩
  else if b = 0xf0 then some ⟨1, 3, 0x90, 0xbf, 0⟩
  else if b < 0xf4 then some ⟨1, 3, 0x80, 0xbf, b.toNat % 8⟩
  else if b = 0xf4 then some ⟨1, 3, 0x80, 0x8f, 4⟩
  else none

/-- Reads on from a position where `valid` bytes make up the characters in `done`, last first. -/
def decodeFrom : Bytes → (valid : Nat) → Option Pending → (done : List Char) →
    Except Fault (List Char)
  | [], _, none, done => .ok done.reverse
  | [], valid, some _, _ => .error (.incomplete valid)
  | b :: bs, valid, none, done =>
      if b < 0x80 then decodeFrom bs (valid + 1) none (Char.ofNat b.toNat :: done)
      else match Pending.ofLead b with
        | none => .error (.invalid 1 valid)
        | some p => decodeFrom bs valid (some p) done
  | b :: bs, valid, some p, done =>
      if p.low ≤ b ∧ b ≤ p.high then
        let value := p.value * 64 + b.toNat % 64
        if p.need = 1 then decodeFrom bs (valid + p.seen + 1) none (Char.ofNat value :: done)
        else decodeFrom bs valid (some ⟨p.seen + 1, p.need - 1, 0x80, 0xbf, value⟩) done
      else .error (.invalid p.seen valid)

def decode (bs : Bytes) : Except Fault (List Char) := decodeFrom bs 0 none []

def toText (bs : Bytes) : Except Fault String := (decode bs).map String.ofList

end ObjectGraph.Utf8
