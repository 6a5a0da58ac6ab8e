import ObjectGraph.Decimal.Shortest

/-! Layouts of a double's shortest digits as text. -/
namespace ObjectGraph.Decimal

/-- Where positional notation ends. The *point* of a number counts its digits before the decimal
point and is negative if zeros follow the point. -/
structure Style where
  /-- The least point and the one above the greatest that are written without an exponent, if there
  are such. -/
  unscaled : Option (Int × Int)
  /-- Digits an exponent has at least. -/
  exponentDigits : Nat
  deriving DecidableEq, Repr

/-- Powers of ten from 10^-5 to 10^15 are written without an exponent, others with a sign and two
digits of one at least. -/
def Style.compact : Style := ⟨some (-4, 17), 2⟩

def Style.plain : Style := ⟨none, 0⟩

def Style.isPositional (style : Style) (point : Int) : Bool :=
  match style.unscaled with
  | none => true
  | some (least, above) => least ≤ point ∧ point < above

def zeros (n : Nat) : List Char := List.replicate n '0'

/-- Digits with the point after the first `point` of them, and at least one digit on each side. -/
def positional (digits : List Char) (point : Int) : List Char :=
  if digits.length ≤ point then digits ++ zeros (point.toNat - digits.length) ++ ['.', '0']
  else if 0 < point then digits.take point.toNat ++ '.' :: digits.drop point.toNat
  else '0' :: '.' :: zeros (-point).toNat ++ digits

/-- Digits with the point after the first, and the power of ten that this leaves. -/
def scientific (style : Style) (digits : List Char) (exponent : Int) : List Char :=
  let fraction := match digits.drop 1 with
    | [] => []
    | ds => '.' :: ds
  let power := Nat.toDigits 10 exponent.natAbs
  digits.take 1 ++ fraction ++ 'e' :: (if 0 ≤ exponent then '+' else '-') ::
    zeros (style.exponentDigits - power.length) ++ power

def Style.positive (style : Style) (x : Binary64) : List Char :=
  let d := shortest x
  let digits := Nat.toDigits 10 d.digits
  let point := digits.length + d.exponent
  if style.isPositional point then positional digits point else scientific style digits (point - 1)

def Style.text (style : Style) (x : Binary64) : String :=
  if x.isNaN then "NaN"
  else
    let digits :=
      if x.isInfinite then ['i', 'n', 'f']
      else if x.magnitude = 0 then ['0', '.', '0']
      else style.positive x
    String.ofList (if x.isNegative then '-' :: digits else digits)

end ObjectGraph.Decimal
