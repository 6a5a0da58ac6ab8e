/-! Lower-case hexadecimal digits. -/
namespace ObjectGraph.Hex

def digit (n : Nat) : Char := if n < 10 then Char.ofNat (48 + n) else Char.ofNat (87 + n)

/-- The digits of a number below 16 ^ `width`, with leading zeros. -/
def padded : (width : Nat) → Nat → List Char
  | 0, _ => []
  | width+1, n => padded width (n / 16) ++ [digit (n % 16)]

def digits (n : Nat) : List Char := padded (n.log2 / 4 + 1) n

end ObjectGraph.Hex
