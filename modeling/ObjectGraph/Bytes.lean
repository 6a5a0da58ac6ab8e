/-! Byte strings, and whole numbers written in them at a fixed width. Writing and reading are
inverse at either byte order: `toNatLE_ofNatLE`, `ofNatLE_toNatLE` and their big-endian forms. -/
namespace ObjectGraph

instance decidableEqOutcome {ε α : Type} [DecidableEq ε] [DecidableEq α] :
    DecidableEq (Except ε α)
  | .ok x, .ok y => decidable_of_iff (x = y) (by simp)
  | .error e, .error f => decidable_of_iff (e = f) (by simp)
  | .ok _, .error _ | .error _, .ok _ => isFalse (by simp)

abbrev Bytes := List UInt8

namespace Bytes

def toNatLE : Bytes → Nat
  | [] => 0
  | b :: bs => b.toNat + 256 * toNatLE bs

/-- The `width` least significant bytes of a number, least significant first. -/
def ofNatLE : (width : Nat) → Nat → Bytes
  | 0, _ => []
  | width+1, n => UInt8.ofNat (n % 256) :: ofNatLE width (n / 256)

def toNatBE (bs : Bytes) : Nat := toNatLE bs.reverse

def ofNatBE (width n : Nat) : Bytes := (ofNatLE width n).reverse

@[simp] theorem length_ofNatLE (width n : Nat) : (ofNatLE width n).length = width := by
  induction width generalizing n with
  | zero => rfl
  | succ width ih => simp [ofNatLE, ih]

@[simp] theorem length_ofNatBE (width n : Nat) : (ofNatBE width n).length = width := by
  simp [ofNatBE]

theorem toNatLE_ofNatLE {width n : Nat} (h : n < Nat.pow 256 width) :
    toNatLE (ofNatLE width n) = n := by
  induction width generalizing n with
  | zero => simp at h; simp [ofNatLE, toNatLE, h]
  | succ width ih =>
    have hq : n / 256 < Nat.pow 256 width := by
      rw [Nat.pow_eq, Nat.pow_succ] at h
      rw [Nat.pow_eq]
      exact Nat.div_lt_of_lt_mul (by omega)
    simp only [ofNatLE, toNatLE, ih hq, UInt8.toNat_ofNat']
    omega

theorem toNatBE_ofNatBE {width n : Nat} (h : n < Nat.pow 256 width) :
    toNatBE (ofNatBE width n) = n := by
  simp [toNatBE, ofNatBE, toNatLE_ofNatLE h]

theorem ofNatLE_toNatLE (bs : Bytes) : ofNatLE bs.length (toNatLE bs) = bs := by
  induction bs with
  | nil => rfl
  | cons b bs ih =>
    have hb := b.toNat_lt
    have hr : (b.toNat + 256 * toNatLE bs) % 256 = b.toNat := by omega
    have hq : (b.toNat + 256 * toNatLE bs) / 256 = toNatLE bs := by omega
    simp [ofNatLE, toNatLE, hr, hq, ih]

theorem ofNatBE_toNatBE (bs : Bytes) : ofNatBE bs.length (toNatBE bs) = bs := by
  have h := ofNatLE_toNatLE bs.reverse
  rw [List.length_reverse] at h
  simp [ofNatBE, toNatBE, h]

theorem toNatLE_lt (bs : Bytes) : toNatLE bs < Nat.pow 256 bs.length := by
  induction bs with
  | nil => simp [toNatLE]
  | cons b bs ih =>
    have hb := b.toNat_lt
    simp only [toNatLE, List.length_cons, Nat.pow_eq, Nat.pow_succ] at ih ⊢
    omega

theorem toNatBE_lt (bs : Bytes) : toNatBE bs < Nat.pow 256 bs.length := by
  simpa [toNatBE] using toNatLE_lt bs.reverse

/-- Whether at least `n` bytes are there; at most `n` of them are looked at. -/
def holds : (n : Nat) → Bytes → Bool
  | 0, _ => true
  | _+1, [] => false
  | n+1, _ :: bs => holds n bs

@[simp] theorem holds_eq (n : Nat) (bs : Bytes) : holds n bs = decide (n ≤ bs.length) := by
  induction n generalizing bs with
  | zero => simp [holds]
  | succ n ih => cases bs <;> simp [holds, ih]

/-- The bytes of `whole` that stand before its tail `rest`. -/
def before (whole rest : Bytes) : Bytes := whole.take (whole.length - rest.length)

@[simp] theorem before_append (front rest : Bytes) : before (front ++ rest) rest = front := by
  simp [before]

end Bytes
end ObjectGraph
