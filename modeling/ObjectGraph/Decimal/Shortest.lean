import ObjectGraph.Binary64

/-! Shortest decimal text of a double: the fewest digits that read back as the same number, and of
those the nearest to it. -/
namespace ObjectGraph.Decimal

structure Digits where
  digits : Nat
  exponent : Int
  deriving DecidableEq, Repr

/-- The reals that round to a positive double, in units of 2^-1075: from `low` to `high`, with the
ends if the last bit is zero. `value` is the double itself. -/
structure Interval where
  low : Nat
  value : Nat
  high : Nat
  closed : Bool

def Interval.ofMagnitude (magnitude : Nat) : Interval :=
  let units := FloatFormat.double.units
  ⟨units (magnitude - 1) + units magnitude, 2 * units magnitude,
    units magnitude + units (magnitude + 1), magnitude % 2 = 0⟩

def unit : Nat := 1 <<< (FloatFormat.double.places + 1)

def power (exponent : Int) : Nat × Nat :=
  if 0 ≤ exponent then (Nat.pow 10 exponent.toNat, 1) else (1, Nat.pow 10 (-exponent).toNat)

def Interval.contains (i : Interval) (d : Digits) : Bool :=
  let (num, den) := power d.exponent
  let point := d.digits * num * unit
  if i.closed then i.low * den ≤ point ∧ point ≤ i.high * den
  else i.low * den < point ∧ point < i.high * den

/-- The neighbours of the double on the grid of `10 ^ exponent` that round to it, the nearer one if
both do. The lower one wins a tie if its last digit is even. -/
def Interval.onGrid (i : Interval) (exponent : Int) : Option Digits :=
  let (num, den) := power exponent
  let below := i.value * den / (num * unit)
  let low : Digits := ⟨below, exponent⟩
  let high : Digits := ⟨below + 1, exponent⟩
  let middle := (2 * below + 1) * num * unit
  match i.contains low, i.contains high with
  | true, true =>
      if 2 * i.value * den < middle ∨ (2 * i.value * den = middle ∧ below % 2 = 0)
      then some low else some high
  | true, false => some low
  | false, true => some high
  | false, false => none

/-- The exponent of the first digit of a positive number, looked for from `guess` downwards. -/
def leading (value : Nat) : (fuel : Nat) → (guess : Int) → Int
  | 0, guess => guess
  | fuel+1, guess =>
      let (num, den) := power guess
      if num * unit ≤ value * den then guess else leading value fuel (guess - 1)

def search (i : Interval) (first : Int) : (fuel : Nat) → (digits : Nat) → Digits
  | 0, _ => ⟨0, 0⟩
  | fuel+1, digits =>
      match i.onGrid (first - digits) with
      | some d => d
      | none => search i first fuel (digits + 1)

/-- The shortest digits of a positive finite double. The search starts one place above its first
digit, where the next power of ten may round to it; seventeen digits always suffice. -/
def shortest (x : Binary64) : Digits :=
  let i := Interval.ofMagnitude x.magnitude
  search i (leading i.value 640 309 + 1) 19 0

end ObjectGraph.Decimal
