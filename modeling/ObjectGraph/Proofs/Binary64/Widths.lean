import ObjectGraph.Binary64
import Mathlib.Tactic

/-! Words of a format and the doubles they stand for: a magnitude is found again from its value
(`floor_units`), every value of a format that is no wider is a double's (`units_floor`), and so
words and doubles turn into each other without loss (`word?_ofWord`, `ofWord_of_word?`). Which
whole numbers doubles denote is said by `whole?_eq_some_iff`. -/
namespace ObjectGraph
namespace FloatFormat

/-- A format without a value that doubles lack. -/
structure Narrow (F : FloatFormat) : Prop where
  fraction : F.fractionBits ≤ double.fractionBits
  exponent : 2 ≤ F.exponentBits
  shift : (1 <<< F.exponentBits) + (double.places - F.places) ≤ 1 <<< double.exponentBits

theorem narrow_half : half.Narrow := ⟨by decide, by decide, by decide⟩
theorem narrow_single : single.Narrow := ⟨by decide, by decide, by decide⟩
theorem narrow_double : double.Narrow := ⟨by decide, by decide, by decide⟩

theorem leadingBit_pos (F : FloatFormat) : 0 < F.leadingBit := by
  simp [leadingBit, Nat.shiftLeft_eq]

theorem infinite_eq (F : FloatFormat) : F.infinite = (2 ^ F.exponentBits - 1) * F.leadingBit := by
  simp [infinite, leadingBit, Nat.shiftLeft_eq]

theorem signBit_eq (F : FloatFormat) : F.signBit = 2 ^ F.exponentBits * F.leadingBit := by
  simp [signBit, leadingBit, Nat.shiftLeft_eq, pow_add]

theorem infinite_lt_signBit (F : FloatFormat) : F.infinite < F.signBit := by
  have he : 0 < 2 ^ F.exponentBits := by positivity
  rw [infinite_eq, signBit_eq]
  exact Nat.mul_lt_mul_of_pos_right (by omega) F.leadingBit_pos

/-- A magnitude is subnormal, or an exponent above a fraction. -/
theorem magnitude_cases (F : FloatFormat) (m : Nat) :
    m < F.leadingBit ∨ ∃ k f, f < F.leadingBit ∧ m = (k + 1) * F.leadingBit + f := by
  rcases Nat.lt_or_ge m F.leadingBit with h | h
  · exact .inl h
  · have hpos : 0 < m / F.leadingBit := Nat.div_pos h F.leadingBit_pos
    refine .inr ⟨m / F.leadingBit - 1, m % F.leadingBit, Nat.mod_lt _ F.leadingBit_pos, ?_⟩
    rw [Nat.sub_add_cancel hpos, Nat.div_add_mod']

theorem units_subnormal {F : FloatFormat} {m : Nat} (h : m < F.leadingBit) :
    F.units m = m <<< (double.places - F.places) := by
  have hexp : m >>> F.fractionBits = 0 := by
    rw [Nat.shiftRight_eq_div_pow, Nat.div_eq_of_lt]
    simpa [leadingBit, Nat.shiftLeft_eq] using h
  simp [units, hexp, Nat.mod_eq_of_lt h]

theorem units_normal {F : FloatFormat} {f : Nat} (h : f < F.leadingBit) (k : Nat) :
    F.units ((k + 1) * F.leadingBit + f) =
      (F.leadingBit + f) <<< (k + (double.places - F.places)) := by
  have hexp : ((k + 1) * F.leadingBit + f) >>> F.fractionBits = k + 1 := by
    rw [Nat.shiftRight_eq_div_pow, show 2 ^ F.fractionBits = F.leadingBit by
      simp [leadingBit, Nat.shiftLeft_eq], Nat.mul_comm, Nat.mul_add_div F.leadingBit_pos,
      Nat.div_eq_of_lt h, Nat.add_zero]
  have hfrac : ((k + 1) * F.leadingBit + f) % F.leadingBit = f := by
    rw [Nat.mul_comm, Nat.mul_add_mod, Nat.mod_eq_of_lt h]
  simp [units, hexp, hfrac]

theorem log2_significand {F : FloatFormat} {f : Nat} (h : f < F.leadingBit) (k : Nat) :
    ((F.leadingBit + f) <<< k).log2 = F.fractionBits + k := by
  have hlead : F.leadingBit = 2 ^ F.fractionBits := by simp [leadingBit, Nat.shiftLeft_eq]
  have hpos : 0 < 2 ^ k := by positivity
  have hne : (F.leadingBit + f) <<< k ≠ 0 := by
    rw [Nat.shiftLeft_eq]
    exact Nat.mul_ne_zero (by have := F.leadingBit_pos; omega) (by omega)
  rw [Nat.log2_eq_iff hne, Nat.shiftLeft_eq, pow_succ, pow_add, ← hlead]
  constructor
  · exact Nat.mul_le_mul_right _ (by omega)
  · calc (F.leadingBit + f) * 2 ^ k < (F.leadingBit * 2) * 2 ^ k :=
          Nat.mul_lt_mul_of_pos_right (by omega) hpos
      _ = F.leadingBit * 2 ^ k * 2 := by ring

/-- A finite magnitude is the one found from its value. -/
theorem floor_units {F : FloatFormat} {m : Nat} (h : m < F.infinite) : F.floor (F.units m) = m := by
  rcases F.magnitude_cases m with hm | ⟨k, f, hf, rfl⟩
  · simp only [floor, units_subnormal hm, Nat.shiftLeft_shiftRight, if_pos hm]
  · have hlarge : ¬ (F.leadingBit + f) <<< k < F.leadingBit := by
      rw [Nat.shiftLeft_eq, not_lt]
      exact le_trans (by omega) (Nat.le_mul_of_pos_right _ (by positivity))
    have hexp : (k + 1) <<< F.fractionBits = (k + 1) * F.leadingBit := by
      simp [leadingBit, Nat.shiftLeft_eq]
    simp only [floor, units_normal hf, Nat.shiftLeft_add, Nat.shiftLeft_shiftRight, if_neg hlarge,
      log2_significand hf, Nat.add_sub_cancel_left, hexp]
    omega

theorem floor_lt_infinite {F : FloatFormat} (h : 2 ≤ F.exponentBits) (u : Nat) :
    F.floor u < F.infinite := by
  have hlead : F.leadingBit ≤ F.infinite := by
    have he : 2 ^ 2 ≤ 2 ^ F.exponentBits := Nat.pow_le_pow_right (by omega) h
    rw [infinite_eq]
    exact Nat.le_mul_of_pos_left _ (by omega)
  have hpos := F.leadingBit_pos
  simp only [floor]
  split <;> omega

/-- A number of 53 significant bits within the range of doubles is the value of one. -/
theorem units_floor_double {s k : Nat} (hs : s < 2 ^ 53) (hk : k ≤ 2045) :
    double.units (double.floor (s <<< k)) = s <<< k := by
  have hlead : double.leadingBit = 2 ^ 52 := rfl
  have hplaces : double.places - double.places = 0 := Nat.sub_self _
  rcases Nat.lt_or_ge (s <<< k) double.leadingBit with hsmall | hlarge
  · have hfloor : double.floor (s <<< k) = s <<< k := by
      simp only [floor, hplaces, Nat.shiftRight_zero, if_pos hsmall]
    rw [hfloor, units_subnormal hsmall, hplaces, Nat.shiftLeft_zero]
  · obtain ⟨shift, hshift⟩ : ∃ shift, (s <<< k).log2 = 52 + shift := by
      refine ⟨(s <<< k).log2 - 52, ?_⟩
      have := (Nat.le_log2 (k := 52) (by omega)).2 (hlead ▸ hlarge)
      omega
    have hne : s <<< k ≠ 0 := by omega
    obtain ⟨hlow, hhigh⟩ := (Nat.log2_eq_iff hne).1 hshift
    -- The significand leaves no bit behind when it is cut to 53 bits.
    have hle : shift ≤ k := by
      have hlt : s <<< k < 2 ^ (53 + k) := by
        rw [Nat.shiftLeft_eq, pow_add]
        exact Nat.mul_lt_mul_of_pos_right hs (by positivity)
      have := (Nat.log2_lt hne).2 hlt
      omega
    have hcut : (s <<< k) >>> shift = s <<< (k - shift) := by
      conv_lhs => rw [show k = k - shift + shift by omega, Nat.shiftLeft_add]
      exact Nat.shiftLeft_shiftRight _ _
    have hback : s <<< k = (s <<< (k - shift)) <<< shift := by
      rw [← Nat.shiftLeft_add, Nat.sub_add_cancel hle]
    have hpow : 0 < 2 ^ shift := by positivity
    rw [hback, Nat.shiftLeft_eq _ shift] at hlow hhigh
    have hc : 2 ^ 52 ≤ s <<< (k - shift) :=
      Nat.le_of_mul_le_mul_right (by rwa [pow_add] at hlow) hpow
    have hc' : s <<< (k - shift) < 2 ^ 53 :=
      Nat.lt_of_mul_lt_mul_right (a := 2 ^ shift) (by rwa [Nat.add_right_comm, pow_add] at hhigh)
    have hfloor : double.floor (s <<< k) =
        (shift + 1) * double.leadingBit + (s <<< (k - shift) - 2 ^ 52) := by
      have hinf : double.infinite = 2047 * 2 ^ 52 := rfl
      have hbits : double.fractionBits = 52 := rfl
      simp only [floor, hplaces, Nat.shiftRight_zero, if_neg (not_lt.2 hlarge), hshift, hbits,
        Nat.add_sub_cancel_left, hcut, hinf]
      rw [hlead, Nat.shiftLeft_eq, min_eq_left (by omega)]
    rw [hfloor, units_normal (by omega), hplaces, Nat.add_zero, hlead,
      Nat.add_sub_cancel' hc, ← hback]

/-- Every finite value of a format is a significand and a shift. -/
theorem units_eq_shiftLeft {F : FloatFormat} (hF : F.Narrow) {m : Nat} (h : m < F.infinite) :
    ∃ s k, F.units m = s <<< k ∧ s < 2 ^ 53 ∧ k ≤ 2045 := by
  have hlead : F.leadingBit ≤ 2 ^ 52 := by
    rw [leadingBit, Nat.shiftLeft_eq, Nat.one_mul]
    exact Nat.pow_le_pow_right (by omega) hF.fraction
  have hexp : 2 ^ 2 ≤ 2 ^ F.exponentBits := Nat.pow_le_pow_right (by omega) hF.exponent
  have hshift : 2 ^ F.exponentBits + (double.places - F.places) ≤ 2048 := by
    have := hF.shift
    rwa [Nat.shiftLeft_eq, Nat.one_mul] at this
  rcases F.magnitude_cases m with hm | ⟨k, f, hf, rfl⟩
  · exact ⟨m, _, units_subnormal hm, by omega, by omega⟩
  · refine ⟨_, _, units_normal hf k, by omega, ?_⟩
    have hk : k + 1 < 2 ^ F.exponentBits - 1 := by
      rw [infinite_eq] at h
      exact Nat.lt_of_mul_lt_mul_right (a := F.leadingBit) (by omega)
    omega

/-- Every finite value of a format is a double's. -/
theorem units_floor {F : FloatFormat} (hF : F.Narrow) {m : Nat} (h : m < F.infinite) :
    double.units (double.floor (F.units m)) = F.units m := by
  obtain ⟨s, k, hu, hs, hk⟩ := units_eq_shiftLeft hF h
  rw [hu, units_floor_double hs hk]

end FloatFormat

namespace Binary64
open FloatFormat

section magnitude
variable {negative : Bool} {m : Nat} (h : m < double.signBit)
include h

theorem magnitude_ofMagnitude : (ofMagnitude negative m).magnitude = m := by
  have hsign : double.signBit = 2 ^ 63 := rfl
  rw [hsign] at h
  cases negative <;> simp only [ofMagnitude, magnitude, UInt64.toNat_ofNat', hsign] <;> simp <;>
    omega

theorem isNegative_ofMagnitude : (ofMagnitude negative m).isNegative = negative := by
  have hsign : double.signBit = 2 ^ 63 := rfl
  rw [hsign] at h
  cases negative <;> simp only [ofMagnitude, isNegative, UInt64.toNat_ofNat', hsign] <;> simp <;>
    omega

end magnitude

theorem ofMagnitude_eq (x : Binary64) : ofMagnitude x.isNegative x.magnitude = x := by
  have hsign : double.signBit = 2 ^ 63 := rfl
  obtain ⟨bits⟩ := x
  have hb := bits.toNat_lt
  simp only [ofMagnitude, isNegative, magnitude, hsign, decide_eq_true_eq]
  congr 1
  apply UInt64.toNat_inj.1
  rw [UInt64.toNat_ofNat']
  split <;> omega

variable {F : FloatFormat} {word : Nat}

/-- The magnitude of the double that a word stands for. -/
theorem exists_ofWord (F : FloatFormat) (word : Nat) :
    ∃ m, ofWord F word = ofMagnitude (F.signBit ≤ word) m ∧ m < double.signBit ∧
      (word % F.signBit < F.infinite → m = double.floor (F.units (word % F.signBit))) ∧
      (m < double.infinite ↔ word % F.signBit < F.infinite) ∧
      (double.infinite < m ↔ F.infinite < word % F.signBit) := by
  have hsign : double.infinite + double.leadingBit = double.signBit := rfl
  have hquiet : double.leadingBit = 2 * quietBit := rfl
  have hpos : 0 < quietBit := by decide
  unfold ofWord
  dsimp only
  split_ifs with hfinite hinfinite
  · have hlt := floor_lt_infinite (F := double) (by decide) (F.units (word % F.signBit))
    exact ⟨_, rfl, by omega, fun _ => rfl, by omega, by omega⟩
  · exact ⟨_, rfl, by omega, by omega, by omega, by omega⟩
  · have hmod := Nat.mod_lt
      ((word % F.signBit - F.infinite) <<< (double.fractionBits - F.fractionBits)) hpos
    exact ⟨_, rfl, by omega, by omega, by omega, by omega⟩

theorem isFinite_ofWord : (ofWord F word).isFinite = decide (word % F.signBit < F.infinite) := by
  obtain ⟨m, hx, hm, -, hfinite, -⟩ := exists_ofWord F word
  simp only [hx, isFinite, magnitude_ofMagnitude hm, hfinite]

theorem isNaN_ofWord : (ofWord F word).isNaN = decide (F.infinite < word % F.signBit) := by
  obtain ⟨m, hx, hm, -, -, hnan⟩ := exists_ofWord F word
  simp only [hx, isNaN, magnitude_ofMagnitude hm, hnan]

/-- A finite word is the one that denotes its number. -/
theorem word?_ofWord (hF : F.Narrow) (hw : word < 2 * F.signBit)
    (h : word % F.signBit < F.infinite) : (ofWord F word).word? F = some word := by
  obtain ⟨m, hx, hm, hfloor, -, -⟩ := exists_ofWord F word
  have hunits : (ofWord F word).units = F.units (word % F.signBit) := by
    rw [units, hx, magnitude_ofMagnitude hm, hfloor h, units_floor hF h]
  have hmagnitude : F.magnitude? (F.units (word % F.signBit)) = some (word % F.signBit) := by
    simp only [magnitude?, floor_units h, if_true]
  rw [word?, hunits, hmagnitude, Option.map_some, hx, isNegative_ofMagnitude hm]
  simp only [Option.some.injEq, decide_eq_true_eq]
  split
  · next hneg =>
    rw [Nat.mod_eq_sub_mod hneg, Nat.mod_eq_of_lt (by omega)]
    omega
  · exact Nat.mod_eq_of_lt (by omega)

theorem word?_double {x : Binary64} (hx : x.isFinite) : x.word? .double = some x.bits.toNat := by
  have hfinite : x.magnitude < double.infinite := by simpa [isFinite] using hx
  have hmagnitude : double.magnitude? x.units = some x.magnitude := by
    simp only [magnitude?, units, floor_units hfinite, if_true]
  have hsign : double.signBit = 2 ^ 63 := rfl
  have hbits := x.bits.toNat_lt
  rw [word?, hmagnitude, Option.map_some, Option.some.injEq]
  simp only [isNegative, magnitude, hsign, decide_eq_true_eq]
  split <;> omega

/-- The word for a finite double stands for it. -/
theorem ofWord_of_word? (hF : F.Narrow) {x : Binary64} (hx : x.isFinite)
    (h : x.word? F = some word) : ofWord F word = x ∧ word < 2 * F.signBit := by
  have hfinite : x.magnitude < double.infinite := by simpa [isFinite] using hx
  obtain ⟨m, hm, rfl⟩ := Option.map_eq_some_iff.1 h
  have hunits : F.units m = x.units := units_of_magnitude? hm
  have hlt : m < F.infinite := by
    simp only [magnitude?] at hm
    split at hm <;> cases hm
    exact floor_lt_infinite hF.exponent _
  have hsign := F.infinite_lt_signBit
  have hmod : (if x.isNegative then F.signBit + m else m) % F.signBit = m := by
    split
    · rw [Nat.add_mod_left, Nat.mod_eq_of_lt (by omega)]
    · exact Nat.mod_eq_of_lt (by omega)
  have hneg : decide (F.signBit ≤ if x.isNegative then F.signBit + m else m) = x.isNegative := by
    cases x.isNegative
    · simp only [Bool.false_eq_true, if_false, decide_eq_false_iff_not]
      omega
    · simp
  obtain ⟨m', hword, -, hfloor, -, -⟩ := exists_ofWord F (if x.isNegative then F.signBit + m else m)
  rw [hmod] at hfloor
  constructor
  · rw [hword, hfloor hlt, hneg, hunits, units, floor_units hfinite, ofMagnitude_eq]
  · split <;> omega

/-- The value of a finite number in units of 2^-1074. -/
def signedUnits (x : Binary64) : Int := if x.isNegative then -(x.units : Int) else x.units

/-- The whole numbers that doubles denote and 64 signed bits hold. -/
theorem whole?_eq_some_iff {x : Binary64} {n : Int} : x.whole? = some n ↔
    x.isFinite ∧ x.signedUnits = n * 2 ^ double.places ∧ -2 ^ 63 ≤ n ∧ n < 2 ^ 63 := by
  have hunit : 1 <<< double.places = 2 ^ double.places := by rw [Nat.shiftLeft_eq, Nat.one_mul]
  have hpos : (0 : Int) < 2 ^ double.places := by positivity
  unfold whole? signedUnits
  rw [hunit, Nat.shiftRight_eq_div_pow]
  constructor
  · intro h
    split at h
    · next hf =>
      have hdiv := Nat.div_mul_cancel (Nat.dvd_of_mod_eq_zero hf.2)
      dsimp only at h
      generalize hm : (if x.isNegative then _ else _ : Int) = m at h
      split at h <;> cases h
      next hbounds =>
      refine ⟨hf.1, ?_, hbounds⟩
      rw [← hm, ← hdiv, Nat.mul_div_cancel _ (by positivity)]
      push_cast
      split <;> ring
    · cases h
  · rintro ⟨hfinite, hunits, hl, hu⟩
    have habs : x.units = n.natAbs * 2 ^ double.places := by
      have := congrArg Int.natAbs hunits
      rw [Int.natAbs_mul, Int.natAbs_pow] at this
      split at this <;> simpa using this
    have hmod : x.units % 2 ^ double.places = 0 := by rw [habs, Nat.mul_mod_left]
    have hdiv : x.units / 2 ^ double.places = n.natAbs := by
      rw [habs, Nat.mul_div_cancel _ (by positivity)]
    have hsign : (if x.isNegative = true then -(n.natAbs : Int) else n.natAbs) = n := by
      apply Int.eq_of_mul_eq_mul_right hpos.ne'
      rw [← hunits, habs]
      push_cast
      split <;> ring
    rw [if_pos ⟨hfinite, hmod⟩, hdiv]
    dsimp only
    rw [hsign, if_pos ⟨hl, hu⟩]

end Binary64
end ObjectGraph
