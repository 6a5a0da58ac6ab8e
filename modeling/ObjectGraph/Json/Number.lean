import ObjectGraph.Binary64.Rounding
import ObjectGraph.Json.Lexer

/-! Numbers in JSON. A number without fraction and exponent is whole while it fits 64 bits; every
other one is a double, reached from its first digits by one multiplication or division. -/
namespace ObjectGraph.Json

inductive Number where
  | whole (n : Int)
  | float (x : Binary64)
  deriving DecidableEq, Repr

def digit? (b : UInt8) : Option Nat :=
  if 0x30 ≤ b ∧ b ≤ 0x39 then some (b.toNat - 0x30) else none

def startsWithDigit : Bytes → Bool
  | b :: _ => (digit? b).isSome
  | [] => false

/-- Appends digits to `n` as long as the result stays below `bound`; returns it with the count of
the digits taken. -/
def appendDigits (bound : Nat) : (n taken : Nat) → Bytes → Nat × Nat × Bytes
  | n, taken, [] => (n, taken, [])
  | n, taken, b :: bs =>
      match digit? b with
      | none => (n, taken, b :: bs)
      | some d =>
          if 10 * n + d < bound then appendDigits bound (10 * n + d) (taken + 1) bs
          else (n, taken, b :: bs)

def skipDigits : (count : Nat) → Bytes → Nat × Bytes
  | count, [] => (count, [])
  | count, b :: bs => if (digit? b).isSome then skipDigits (count + 1) bs else (count, b :: bs)

/-- The exponent of the greatest power of ten that is a double. -/
def greatestPower : Nat := 308

def scaleDown : (fuel : Nat) → (x : Binary64) → (places : Nat) → Binary64
  | 0, x, _ => x
  | fuel+1, x, places =>
      if x.isZero then x
      else if places ≤ greatestPower then x.div (Binary64.ofNat (Nat.pow 10 places))
      else
        scaleDown fuel (x.div (Binary64.ofNat (Nat.pow 10 greatestPower))) (places - greatestPower)

/-- The double for `significand * 10 ^ exponent`; none if it is out of range. -/
def scale? (significand : Nat) (exponent : Int) : Option Binary64 :=
  let x := Binary64.ofNat significand
  if x.isZero then some x
  else if exponent < 0 then
    some (scaleDown ((-exponent).toNat / greatestPower + 1) x (-exponent).toNat)
  else if greatestPower < exponent then none
  else
    let y := x.mul (Binary64.ofNat (Nat.pow 10 exponent.toNat))
    if y.isFinite then some y else none

def signed (negative : Bool) (x : Binary64) : Binary64 := if negative then x.neg else x

def scaled (negative : Bool) (significand : Nat) (exponent : Int) (rest : Bytes) :
    Except Fault (Number × Bytes) :=
  match scale? significand exponent with
  | some x => .ok (.float (signed negative x), rest)
  | none => .error .malformed

/-- Whether an exponent is negative, and what follows its sign. -/
def exponentSign : Bytes → Bool × Bytes
  | [] => (false, [])
  | b :: rest =>
      if b = 0x2b then (false, rest) else if b = 0x2d then (true, rest) else (false, b :: rest)

def exponentPart (negative : Bool) (significand : Nat) (exponent : Int) (bs : Bytes) :
    Except Fault (Number × Bytes) :=
  let (down, bs) := exponentSign bs
  match bs with
  | [] => .error .truncated
  | b :: _ =>
      if (digit? b).isNone then .error .malformed
      else
        let (power, _, rest) := appendDigits 0x80000000 0 0 bs
        if startsWithDigit rest then
          if significand ≠ 0 ∧ ¬ down then .error .malformed
          else .ok (.float (signed negative (Binary64.ofNat 0)), (skipDigits 0 rest).2)
        else scaled negative significand (if down then exponent - power else exponent + power) rest

def afterDigits (negative : Bool) (significand : Nat) (exponent : Int) (bs : Bytes) :
    Except Fault (Number × Bytes) :=
  match bs with
  | b :: rest =>
      if b = 0x65 ∨ b = 0x45 then exponentPart negative significand exponent rest
      else scaled negative significand exponent bs
  | [] => scaled negative significand exponent []

/-- What follows the decimal point. Digits that no longer fit the significand are dropped. -/
def fractionPart (negative : Bool) (significand : Nat) (exponent : Int) (bs : Bytes) :
    Except Fault (Number × Bytes) :=
  let (significand, taken, rest) := appendDigits 0x10000000000000000 significand 0 bs
  if startsWithDigit rest then
    afterDigits negative significand (exponent - taken) (skipDigits 0 rest).2
  else if taken = 0 then .error (if rest.isEmpty then .truncated else .malformed)
  else afterDigits negative significand (exponent - taken) rest

/-- What follows the digits before the point, if the number is a double in any case. -/
def doublePart (negative : Bool) (significand : Nat) (exponent : Int) (bs : Bytes) :
    Except Fault (Number × Bytes) :=
  match bs with
  | b :: rest =>
      if b = 0x2e then fractionPart negative significand exponent rest
      else afterDigits negative significand exponent bs
  | [] => afterDigits negative significand exponent []

def isDoubleMark (b : UInt8) : Bool := b = 0x2e ∨ b = 0x65 ∨ b = 0x45

/-- A number without fraction and exponent. Below -2^63, and for a zero with a sign, it is a
double. -/
def wholeNumber (negative : Bool) (n : Nat) : Number :=
  if ¬ negative then .whole n
  else if n = 0 ∨ 0x8000000000000000 < n then .float (Binary64.ofNat n).neg
  else .whole (-n)

def unsignedNumber (negative : Bool) (bs : Bytes) : Except Fault (Number × Bytes) :=
  match bs with
  | [] => .error .truncated
  | b :: after =>
      if (digit? b).isNone then .error .malformed
      else
        let (n, _, rest) :=
          if b = 0x30 then (0, 1, after) else appendDigits 0x10000000000000000 0 0 bs
        if startsWithDigit rest then
          if b = 0x30 then .error .malformed
          else
            let (dropped, rest) := skipDigits 0 rest
            doublePart negative n dropped rest
        else
          match rest with
          | c :: _ =>
              if isDoubleMark c then doublePart negative n 0 rest
              else .ok (wholeNumber negative n, rest)
          | [] => .ok (wholeNumber negative n, [])

def startsNumber (b : UInt8) : Bool := b = 0x2d ∨ (digit? b).isSome

def number (bs : Bytes) : Except Fault (Number × Bytes) :=
  match bs with
  | b :: rest => if b = 0x2d then unsignedNumber true rest else unsignedNumber false bs
  | [] => .error .truncated

def Number.found : Number → Found
  | .whole n => .integer n
  | .float x => .float x

def writeInt (n : Int) : Bytes :=
  let digits := Utf8.encode (Nat.toDigits 10 n.natAbs)
  if n < 0 then 0x2d :: digits else digits

end ObjectGraph.Json
