import ObjectGraph.Binary64

/-! Rounding to the nearest double. A tie goes to the number whose last bit is zero. -/
namespace ObjectGraph.Binary64
open FloatFormat

/-- The magnitude nearest to `num / den` units. Beyond the greatest finite number it is infinity. -/
def nearestMagnitude (num den : Nat) : Nat :=
  let low := double.floor (num / den)
  let middle := (double.units low + double.units (low + 1)) * den
  if 2 * num < middle then low
  else if middle < 2 * num then low + 1
  else if low % 2 = 0 then low else low + 1

def ofNat (n : Nat) : Binary64 := ofMagnitude false (nearestMagnitude (n <<< double.places) 1)

def neg (x : Binary64) : Binary64 := ofMagnitude (!x.isNegative) x.magnitude

/-- The rounded product of two finite numbers that are not negative. -/
def mul (x y : Binary64) : Binary64 :=
  ofMagnitude false (nearestMagnitude (x.units * y.units) (1 <<< double.places))

/-- The rounded quotient of two finite numbers that are not negative. -/
def div (x y : Binary64) : Binary64 :=
  ofMagnitude false (nearestMagnitude (x.units <<< double.places) y.units)

def isZero (x : Binary64) : Bool := x.magnitude = 0

end ObjectGraph.Binary64
