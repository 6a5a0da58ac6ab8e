import ObjectGraph.Text.Hex

/-! Faults of the envelope's primitive fields. -/
namespace ObjectGraph.Wire

inductive Error where
  /-- The buffer ends before the field does. -/
  | outOfBounds
  | invalidUtf8
  | lengthTooLarge (len max : Nat)
  /-- A flag byte other than 0 and 1. -/
  | invalidFlag (flag : UInt8)
  deriving DecidableEq, Repr

def Error.message : Error → String
  | .outOfBounds => "buffer too short"
  | .invalidUtf8 => "invalid utf-8"
  | .lengthTooLarge len max => s!"length {len} exceeds bound {max}"
  | .invalidFlag flag => s!"invalid flag byte 0x{String.ofList (Hex.padded 2 flag.toNat)}"

end ObjectGraph.Wire
