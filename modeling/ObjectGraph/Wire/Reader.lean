import ObjectGraph.Wire.Item

/-! Reads the envelope's primitive fields. A read returns its outcome with the bytes left unread,
after a failure as well. -/
namespace ObjectGraph.Wire

abbrev Read (α : Type) := Bytes → Except Error α × Bytes

/-- The next `n` bytes; none are consumed when there are fewer. -/
def take (n : Nat) : Read Bytes := fun bs =>
  if bs.holds n then (.ok (bs.take n), bs.drop n) else (.error .outOfBounds, bs)

theorem take_append (front rest : Bytes) :
    take front.length (front ++ rest) = (.ok front, rest) := by
  simp [take]

def readByte : Read UInt8
  | [] => (.error .outOfBounds, [])
  | b :: rest => (.ok b, rest)

def readFlag : Read Bool := fun bs =>
  match readByte bs with
  | (.error e, rest) => (.error e, rest)
  | (.ok b, rest) =>
      if b = 0 then (.ok false, rest)
      else if b = 1 then (.ok true, rest)
      else (.error (.invalidFlag b), rest)

def readU32 : Read UInt32 := fun bs =>
  match take 4 bs with
  | (.error e, rest) => (.error e, rest)
  | (.ok front, rest) => (.ok (UInt32.ofNat (Bytes.toNatLE front)), rest)

theorem readFlag_append (flag : Bool) (rest : Bytes) :
    readFlag (encodeFlag flag ++ rest) = (.ok flag, rest) := by
  cases flag <;> rfl

theorem readU32_append (n : UInt32) (rest : Bytes) :
    readU32 (encodeU32 n ++ rest) = (.ok n, rest) := by
  have hn : n.toNat < Nat.pow 256 4 := n.toNat_lt
  have ht := take_append (encodeU32 n) rest
  rw [show (encodeU32 n).length = 4 from Bytes.length_ofNatLE 4 n.toNat] at ht
  simp only [readU32, ht]
  simp only [encodeU32, Bytes.toNatLE_ofNatLE hn, UInt32.ofNat_toNat]

def readCount (max : Nat) : Read Nat := fun bs =>
  match readU32 bs with
  | (.error e, rest) => (.error e, rest)
  | (.ok n, rest) =>
      if max < n.toNat then (.error (.lengthTooLarge n.toNat max), rest) else (.ok n.toNat, rest)

def readBytes (max : Nat) : Read Bytes := fun bs =>
  match readCount max bs with
  | (.error e, rest) => (.error e, rest)
  | (.ok n, rest) => take n rest

def readText (max : Nat) : Read String := fun bs =>
  match readBytes max bs with
  | (.error e, rest) => (.error e, rest)
  | (.ok data, rest) =>
      match Utf8.toText data with
      | .ok s => (.ok s, rest)
      | .error _ => (.error .invalidUtf8, rest)

inductive Request where
  | byte
  | flag
  | u32
  | count (max : Nat)
  | bytes (max : Nat)
  | text (max : Nat)
  deriving DecidableEq, Repr

inductive Datum where
  | byte (b : UInt8)
  | flag (b : Bool)
  | u32 (n : UInt32)
  | count (n : Nat)
  | bytes (bs : Bytes)
  | text (s : String)
  deriving DecidableEq, Repr

/-- A position in a buffer, as the bytes not yet read. -/
structure Reader where
  unread : Bytes
  deriving DecidableEq, Repr

namespace Reader

def remaining (r : Reader) : Nat := r.unread.length

def apply (read : Read α) (datum : α → Datum) (r : Reader) : Except Error Datum × Reader :=
  let (outcome, rest) := read r.unread
  (outcome.map datum, ⟨rest⟩)

def read (r : Reader) : Request → Except Error Datum × Reader
  | .byte => apply readByte .byte r
  | .flag => apply readFlag .flag r
  | .u32 => apply readU32 .u32 r
  | .count max => apply (readCount max) .count r
  | .bytes max => apply (readBytes max) .bytes r
  | .text max => apply (readText max) .text r

/-- Reads one field after another, also behind one that failed. -/
def readAll (r : Reader) : List Request → List (Except Error Datum × Reader)
  | [] => []
  | request :: requests =>
      let step := r.read request
      step :: step.2.readAll requests

end Reader
end ObjectGraph.Wire
