import ObjectGraph.Proofs.Binary64.Widths

/-! The numbers that words denote by their signs, exponents and fractions. A word and the double
that stands for it denote one number (`number?_eq_some_iff`), so whether this number is whole or has
a narrower word can be said of numbers alone (`whole?_ofWord_iff`, `word?_ofWord_iff`). -/
namespace ObjectGraph
namespace FloatFormat

def bias (F : FloatFormat) : ℤ := 2 ^ (F.exponentBits - 1) - 1

/-- The number that a word denotes. The greatest exponent is that of infinities and of what is not
a number. -/
def number? (F : FloatFormat) (word : Nat) : Option ℚ :=
  let sign : ℚ := if F.signBit ≤ word then -1 else 1
  let exponent := word % F.signBit / 2 ^ F.fractionBits
  let fraction : ℚ := (word % 2 ^ F.fractionBits : Nat) / 2 ^ F.fractionBits
  if exponent = 0 then some (sign * fraction * 2 ^ (1 - F.bias))
  else if exponent < 2 ^ F.exponentBits - 1 then
    some (sign * (1 + fraction) * 2 ^ (exponent - F.bias))
  else none

def Has (F : FloatFormat) (q : ℚ) : Prop := ∃ word < 2 * F.signBit, F.number? word = some q

theorem bias_eq {F : FloatFormat} (hF : F.Narrow) :
    F.bias = F.places + 1 - (F.fractionBits : ℤ) := by
  have he : 2 ^ 1 ≤ 2 ^ (F.exponentBits - 1) :=
    Nat.pow_le_pow_right (by omega) (by have := hF.exponent; omega)
  have hcast : ((2 ^ (F.exponentBits - 1) : Nat) : ℤ) = 2 ^ (F.exponentBits - 1) := by push_cast; rfl
  simp only [bias, places, Nat.shiftLeft_eq, Nat.one_mul, ← hcast]
  omega

theorem places_le {F : FloatFormat} (hF : F.Narrow) : F.places ≤ double.places := by
  have hshift := hF.shift
  have hfraction := hF.fraction
  have hhalf : 2 ^ F.exponentBits = 2 * 2 ^ (F.exponentBits - 1) := by
    rw [← pow_succ', Nat.sub_add_cancel (by have := hF.exponent; omega)]
  have hdouble : (1 <<< double.exponentBits) = 2048 := rfl
  have hplaces : double.places = 1074 := rfl
  have hbits : double.fractionBits = 52 := rfl
  rw [Nat.shiftLeft_eq, Nat.one_mul, hhalf, hdouble] at hshift
  rw [hplaces]
  simp only [places, Nat.shiftLeft_eq, Nat.one_mul]
  omega

/-- The unit of a format that is no wider, in units of 2^-1074. -/
theorem unit_mul {F : FloatFormat} (hF : F.Narrow) (k : Nat) :
    ((2 : ℚ) ^ (k + 1 - F.bias) / 2 ^ F.fractionBits) * 2 ^ double.places =
      2 ^ (k + (double.places - F.places)) := by
  obtain ⟨d, hd⟩ := Nat.exists_eq_add_of_le (places_le hF)
  have hexp : (k : ℤ) + 1 - F.bias = ((k + F.fractionBits : Nat) : ℤ) - (F.places : ℤ) := by
    rw [bias_eq hF]
    push_cast
    ring
  rw [hexp, zpow_sub₀ two_ne_zero, zpow_natCast, zpow_natCast, hd, Nat.add_sub_cancel_left, pow_add,
    pow_add, pow_add]
  field_simp

/-- The number of a magnitude is its value in units of 2^-1074. -/
theorem number_subnormal {F : FloatFormat} (hF : F.Narrow) {m : Nat} (h : m < F.leadingBit) :
    (m : ℚ) / 2 ^ F.fractionBits * 2 ^ (1 - F.bias) = F.units m / 2 ^ double.places := by
  have hunit := unit_mul hF 0
  simp only [Nat.cast_zero, zero_add] at hunit
  rw [eq_div_iff (by positivity), units_subnormal h, Nat.shiftLeft_eq]
  push_cast
  rw [← hunit]
  ring

theorem number_normal {F : FloatFormat} (hF : F.Narrow) {f : Nat} (h : f < F.leadingBit) (k : Nat) :
    (1 + (f : ℚ) / 2 ^ F.fractionBits) * 2 ^ (((k + 1 : Nat) : ℤ) - F.bias) =
      F.units ((k + 1) * F.leadingBit + f) / 2 ^ double.places := by
  have hlead : (F.leadingBit : ℚ) = 2 ^ F.fractionBits := by simp [leadingBit, Nat.shiftLeft_eq]
  rw [eq_div_iff (by positivity), units_normal h, Nat.shiftLeft_eq]
  push_cast
  rw [← unit_mul hF, hlead]
  field_simp

/-- A word denotes a number if it is finite: the value of its magnitude, with its sign. -/
theorem number?_eq {F : FloatFormat} (hF : F.Narrow) (word : Nat) :
    F.number? word = if word % F.signBit < F.infinite then
      some ((if F.signBit ≤ word then (-1 : ℚ) else 1) *
        (F.units (word % F.signBit) / 2 ^ double.places))
    else none := by
  have hlead : 2 ^ F.fractionBits = F.leadingBit := by simp [leadingBit, Nat.shiftLeft_eq]
  have hfraction : word % 2 ^ F.fractionBits = word % F.signBit % F.leadingBit := by
    rw [hlead, Nat.mod_mod_of_dvd _ (by rw [signBit_eq]; exact Nat.dvd_mul_left _ _)]
  unfold number?
  rw [hfraction, hlead]
  generalize word % F.signBit = m
  dsimp only
  rcases F.magnitude_cases m with hm | ⟨k, f, hf, rfl⟩
  · have hfinite : m < F.infinite := by
      have he : 2 ^ 2 ≤ 2 ^ F.exponentBits := Nat.pow_le_pow_right (by omega) hF.exponent
      rw [infinite_eq]
      exact hm.trans_le (Nat.le_mul_of_pos_left _ (by omega))
    rw [if_pos (Nat.div_eq_of_lt hm), if_pos hfinite, Nat.mod_eq_of_lt hm, mul_assoc,
      number_subnormal hF hm]
  · have hexp : ((k + 1) * F.leadingBit + f) / F.leadingBit = k + 1 := by
      rw [Nat.mul_comm, Nat.mul_add_div F.leadingBit_pos, Nat.div_eq_of_lt hf, Nat.add_zero]
    have hmod : ((k + 1) * F.leadingBit + f) % F.leadingBit = f := by
      rw [Nat.mul_comm, Nat.mul_add_mod, Nat.mod_eq_of_lt hf]
    have hfinite : k + 1 < 2 ^ F.exponentBits - 1 ↔
        (k + 1) * F.leadingBit + f < F.infinite := by
      rw [infinite_eq, ← Nat.div_lt_iff_lt_mul F.leadingBit_pos, hexp]
    rw [hexp, hmod, if_neg (Nat.succ_ne_zero k), mul_assoc, number_normal hF hf]
    simp only [hfinite]

example : half.number? 0xc100 = some (-5 / 2) := by cbv

/-- The numbers of halves are small. -/
theorem units_half_lt {m : Nat} (h : m < half.infinite) :
    half.units m < 2 ^ 16 * 2 ^ double.places := by
  have hlead : half.leadingBit = 2 ^ 10 := rfl
  have hinf : half.infinite = 31 * 2 ^ 10 := rfl
  have hplaces : double.places = double.places - half.places + 24 := rfl
  rw [hplaces]
  obtain ⟨s, k, hs, hk, hu⟩ : ∃ s k, s < 2 ^ 11 ∧ k ≤ 29 ∧
      half.units m = s <<< (k + (double.places - half.places)) := by
    rcases half.magnitude_cases m with hm | ⟨k, f, hf, rfl⟩
    · exact ⟨m, 0, by omega, by omega, by rw [units_subnormal hm, Nat.zero_add]⟩
    · rw [hlead, hinf] at h
      exact ⟨half.leadingBit + f, k, by omega, by omega, units_normal hf k⟩
  generalize double.places - half.places = least at hu ⊢
  calc half.units m = s * 2 ^ (k + least) := by rw [hu, Nat.shiftLeft_eq]
    _ < 2 ^ 11 * 2 ^ (k + least) := Nat.mul_lt_mul_of_pos_right hs (Nat.two_pow_pos _)
    _ ≤ 2 ^ 11 * 2 ^ (29 + least) :=
      Nat.mul_le_mul_left _ (Nat.pow_le_pow_right (by omega) (by omega))
    _ = 2 ^ 16 * 2 ^ (least + 24) := by ring

end FloatFormat

namespace Binary64
open FloatFormat

variable {F G : FloatFormat} {word : Nat}

theorem natAbs_signedUnits (x : Binary64) : x.signedUnits.natAbs = x.units := by
  unfold signedUnits
  split <;> simp

theorem units_ofWord (hF : F.Narrow) (h : word % F.signBit < F.infinite) :
    (ofWord F word).units = F.units (word % F.signBit) := by
  obtain ⟨m, hx, hm, hfloor, -, -⟩ := exists_ofWord F word
  rw [units, hx, magnitude_ofMagnitude hm, hfloor h, units_floor hF h]

/-- A word and the double that stands for it denote one number. -/
theorem number?_eq_some_iff (hF : F.Narrow) {q : ℚ} : F.number? word = some q ↔
    (ofWord F word).isFinite ∧ (ofWord F word).signedUnits = q * 2 ^ double.places := by
  obtain ⟨m, hx, hm, -⟩ := exists_ofWord F word
  have hneg : (ofWord F word).isNegative = decide (F.signBit ≤ word) := by
    rw [hx, isNegative_ofMagnitude hm]
  have hpow : (2 : ℚ) ^ double.places ≠ 0 := by positivity
  rw [isFinite_ofWord, decide_eq_true_eq, number?_eq hF]
  by_cases hf : word % F.signBit < F.infinite
  · simp only [hf, if_true, true_and, Option.some.injEq, signedUnits, units_ofWord hF hf, hneg,
      decide_eq_true_eq, ← mul_div_assoc, div_eq_iff hpow]
    split <;> simp
  · simp [hf]

theorem exists_number?_iff (hF : F.Narrow) :
    (∃ q, F.number? word = some q) ↔ (ofWord F word).isFinite := by
  rw [isFinite_ofWord, decide_eq_true_eq, number?_eq hF]
  split
  · next h => simp [h]
  · next h => simp [h]

def FitsInteger (q : ℚ) : Prop := ∃ n : ℤ, q = n ∧ -2 ^ 63 ≤ n ∧ n ≤ 2 ^ 63 - 1

/-- A double is taken for a whole number if the number it denotes is one that fits. -/
theorem whole?_ofWord_iff (hF : F.Narrow) {q : ℚ} (hq : F.number? word = some q) :
    (∃ n, (ofWord F word).whole? = some n) ↔ FitsInteger q := by
  obtain ⟨hfinite, hunits⟩ := (number?_eq_some_iff hF).1 hq
  have hpow : (2 : ℚ) ^ double.places ≠ 0 := by positivity
  have hvalue (n : ℤ) : (ofWord F word).signedUnits = n * 2 ^ double.places ↔ q = n := by
    rw [← mul_left_inj' hpow, ← hunits]
    exact_mod_cast Iff.rfl
  simp only [whole?_eq_some_iff, hfinite, true_and, hvalue, FitsInteger, Int.le_sub_one_iff]

/-- Every whole number that has a half fits. -/
theorem fitsInteger_of_half {n : ℤ} (h : half.number? word = some (n : ℚ)) :
    FitsInteger n := by
  obtain ⟨hfinite, hunits⟩ := (number?_eq_some_iff narrow_half).1 h
  rw [isFinite_ofWord, decide_eq_true_eq] at hfinite
  have habs : (ofWord .half word).units = n.natAbs * 2 ^ double.places := by
    have hint : (ofWord .half word).signedUnits = n * 2 ^ double.places := by exact_mod_cast hunits
    rw [← natAbs_signedUnits, hint, Int.natAbs_mul, Int.natAbs_pow,
      show (2 : ℤ).natAbs = 2 from rfl]
  have hlt := units_half_lt hfinite
  rw [← units_ofWord narrow_half hfinite, habs] at hlt
  have hsmall := Nat.lt_of_mul_lt_mul_right hlt
  exact ⟨n, rfl, by omega, by omega⟩

theorem exists_word?_iff (x : Binary64) :
    (∃ w, x.word? F = some w) ↔ ∃ m, F.magnitude? x.units = some m := by
  simp only [word?, Option.map_eq_some_iff]
  constructor
  · rintro ⟨w, m, h, -⟩
    exact ⟨m, h⟩
  · rintro ⟨m, h⟩
    exact ⟨_, m, h, rfl⟩

/-- A double has a word in a format if the number it denotes has one. -/
theorem word?_ofWord_iff (hF : F.Narrow) (hG : G.Narrow) {q : ℚ} (hq : F.number? word = some q) :
    (∃ w, (ofWord F word).word? G = some w) ↔ G.Has q := by
  obtain ⟨hfinite, hunits⟩ := (number?_eq_some_iff hF).1 hq
  constructor
  · rintro ⟨w, hw⟩
    obtain ⟨hsame, hlt⟩ := ofWord_of_word? hG hfinite hw
    exact ⟨w, hlt, (number?_eq_some_iff hG).2 (by rw [hsame]; exact ⟨hfinite, hunits⟩)⟩
  · rintro ⟨w, hlt, hw⟩
    obtain ⟨hfinite', hunits'⟩ := (number?_eq_some_iff hG).1 hw
    rw [isFinite_ofWord, decide_eq_true_eq] at hfinite'
    have hsame : (ofWord F word).signedUnits = (ofWord G w).signedUnits := by
      exact_mod_cast hunits.trans hunits'.symm
    rw [exists_word?_iff, ← natAbs_signedUnits, hsame, natAbs_signedUnits, ← exists_word?_iff]
    exact ⟨w, word?_ofWord hG hlt hfinite'⟩

end Binary64
end ObjectGraph
