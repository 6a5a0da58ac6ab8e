import ObjectGraph.Bytes

/-! Binary floating point by its bits. Every finite half, single and double is a whole number of
units of 2^-1074, the least positive double, so that widths are compared exactly. -/
namespace ObjectGraph

/-- A binary interchange format. A *magnitude* is a word without its sign bit. -/
structure FloatFormat where
  exponentBits : Nat
  fractionBits : Nat
  deriving DecidableEq, Repr

namespace FloatFormat

def half : FloatFormat := ⟨5, 10⟩
def single : FloatFormat := ⟨8, 23⟩
def double : FloatFormat := ⟨11, 52⟩

/-- Binary places of the least positive number. -/
def places (F : FloatFormat) : Nat := (1 <<< (F.exponentBits - 1)) - 2 + F.fractionBits

def signBit (F : FloatFormat) : Nat := 1 <<< (F.exponentBits + F.fractionBits)

/-- The magnitude of infinity; smaller ones are finite and greater ones are not numbers. -/
def infinite (F : FloatFormat) : Nat := ((1 <<< F.exponentBits) - 1) <<< F.fractionBits

/-- The first bit of a significand, which words leave out. -/
def leadingBit (F : FloatFormat) : Nat := 1 <<< F.fractionBits

/-- The value of a magnitude in units of 2^-1074. -/
def units (F : FloatFormat) (magnitude : Nat) : Nat :=
  let exponent := magnitude >>> F.fractionBits
  let fraction := magnitude % F.leadingBit
  let least := double.places - F.places
  if exponent = 0 then fraction <<< least
  else (F.leadingBit + fraction) <<< (exponent - 1 + least)

/-- The greatest finite magnitude whose value is at most `u` units. -/
def floor (F : FloatFormat) (u : Nat) : Nat :=
  let n := u >>> (double.places - F.places)
  if n < F.leadingBit then n
  else
    let shift := n.log2 - F.fractionBits
    min (((shift + 1) <<< F.fractionBits) + ((n >>> shift) - F.leadingBit)) (F.infinite - 1)

def magnitude? (F : FloatFormat) (u : Nat) : Option Nat :=
  let magnitude := F.floor u
  if F.units magnitude = u then some magnitude else none

theorem units_of_magnitude? {F : FloatFormat} {u m : Nat} (h : F.magnitude? u = some m) :
    F.units m = u := by
  simp only [magnitude?] at h
  split at h
  · next hu => cases h; exact hu
  · cases h

end FloatFormat

/-- A double-precision number, infinity or not-a-number, as its 64 bits. -/
structure Binary64 where
  bits : UInt64
  deriving DecidableEq, Repr

namespace Binary64
open FloatFormat

def ofMagnitude (negative : Bool) (magnitude : Nat) : Binary64 :=
  ⟨UInt64.ofNat (if negative then double.signBit + magnitude else magnitude)⟩

def isNegative (x : Binary64) : Bool := double.signBit ≤ x.bits.toNat

def magnitude (x : Binary64) : Nat := x.bits.toNat % double.signBit

def isNaN (x : Binary64) : Bool := double.infinite < x.magnitude

def isInfinite (x : Binary64) : Bool := x.magnitude = double.infinite

def isFinite (x : Binary64) : Bool := x.magnitude < double.infinite

def units (x : Binary64) : Nat := double.units x.magnitude

/-- The whole number a finite double denotes, if it is one that fits 64 signed bits. Negative zero
denotes zero. -/
def whole? (x : Binary64) : Option Int :=
  if x.isFinite ∧ x.units % (1 <<< double.places) = 0 then
    let n : Int := (x.units >>> double.places : Nat)
    let n := if x.isNegative then -n else n
    if -0x8000000000000000 ≤ n ∧ n < 0x8000000000000000 then some n else none
  else none

/-- The bit that keeps a double from being a signalling one. -/
def quietBit : Nat := 1 <<< (double.fractionBits - 1)

/-- A word of a format that is no wider, as a double. A not-a-number keeps its leading bits and
becomes quiet. -/
def ofWord (F : FloatFormat) (word : Nat) : Binary64 :=
  let negative := F.signBit ≤ word
  let magnitude := word % F.signBit
  if magnitude < F.infinite then ofMagnitude negative (double.floor (F.units magnitude))
  else if magnitude = F.infinite then ofMagnitude negative double.infinite
  else
    let payload := (magnitude - F.infinite) <<< (double.fractionBits - F.fractionBits)
    ofMagnitude negative (double.infinite + payload % quietBit + quietBit)

/-- The word of a format that denotes exactly this finite number. -/
def word? (F : FloatFormat) (x : Binary64) : Option Nat :=
  (F.magnitude? x.units).map fun m => if x.isNegative then F.signBit + m else m

end Binary64
end ObjectGraph
