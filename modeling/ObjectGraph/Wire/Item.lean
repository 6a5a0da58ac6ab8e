import ObjectGraph.Bytes
import ObjectGraph.Text.Utf8
import ObjectGraph.Wire.Error

/-! The envelope's primitive fields in bytes: whole numbers of 32 bits, least significant byte
first, and lengths in front of what they measure. -/
namespace ObjectGraph.Wire

/-- The greatest count a length field holds. -/
def maxCount : Nat := 0xffffffff

def encodeFlag (flag : Bool) : Bytes := [if flag then 1 else 0]

def encodeU32 (n : UInt32) : Bytes := Bytes.ofNatLE 4 n.toNat

def encodeCount (n : Nat) : Except Error Bytes :=
  if n ≤ maxCount then .ok (Bytes.ofNatLE 4 n) else .error (.lengthTooLarge n maxCount)

def encodeBytes (bs : Bytes) : Except Error Bytes := do
  let length ← encodeCount bs.length
  .ok (length ++ bs)

/-- Text of at most `max` bytes behind its length. -/
def encodeText (max : Nat) (s : String) : Except Error Bytes :=
  let bs := Utf8.ofString s
  if max < bs.length then .error (.lengthTooLarge bs.length max) else encodeBytes bs

inductive Item where
  | byte (b : UInt8)
  | flag (b : Bool)
  | u32 (n : UInt32)
  | count (n : Nat)
  | bytes (bs : Bytes)
  | text (s : String) (max : Nat)
  deriving DecidableEq, Repr

end ObjectGraph.Wire
