import ObjectGraph.Proofs.Binary64.Widths
import ObjectGraph.Proofs.Cbor.Head

/-! Floats as items. The word that is written for a float is the only one that is read for it, a
half of another not-a-number apart (`exists_word`, `encodeFloat_of_checkFloat`). -/
namespace ObjectGraph

/-- The not-a-number that is written for all of them. -/
def Binary64.nan : Binary64 := ⟨0x7ff8000000000000⟩

/-- A double that is not written as an integer or as another not-a-number. -/
structure Binary64.Plain (x : Binary64) : Prop where
  fraction : x.whole? = none
  quiet : x.isNaN → x = .nan

namespace Cbor

/-- The low bits of the initial byte of a float, and the width of its word in bytes. -/
inductive FloatForm : (info width : Nat) → FloatFormat → Prop
  | half : FloatForm 25 2 .half
  | single : FloatForm 26 4 .single
  | double : FloatForm 27 8 .double

variable {info width word : Nat} {F : FloatFormat} {x : Binary64}

theorem FloatForm.narrow (h : FloatForm info width F) : F.Narrow := by
  cases h with
  | half => exact FloatFormat.narrow_half
  | single => exact FloatFormat.narrow_single
  | double => exact FloatFormat.narrow_double

theorem FloatForm.words (h : FloatForm info width F) : Nat.pow 256 width = 2 * F.signBit := by
  cases h <;> rfl

theorem FloatForm.info_lt (h : FloatForm info width F) : info < 32 := by
  cases h <;> omega

theorem readFloat_append (h : FloatForm info width F) (hw : word < 2 * F.signBit)
    (hc : checkFloat F word = .ok x) (rest : Bytes) :
    readSimple info (Bytes.ofNatBE width word ++ rest) = .ok (.float x, rest) := by
  have hread := readUint_append (h.words ▸ hw) rest
  cases h <;> simp [readSimple, readFloat, hread, bind, Except.bind, hc]

theorem readFloat_ok {bs rest : Bytes} {v : Value} (h : readFloat F width bs = .ok (v, rest)) :
    ∃ word x, word < Nat.pow 256 width ∧ bs = Bytes.ofNatBE width word ++ rest ∧ v = .float x ∧
      checkFloat F word = .ok x := by
  unfold readFloat at h
  obtain ⟨⟨word, tail⟩, hu, h⟩ := bind_eq_ok.1 h
  obtain ⟨x, hc, h⟩ := bind_eq_ok.1 h
  cases h
  obtain ⟨rfl, hw⟩ := readUint_ok hu
  exact ⟨word, x, hw, rfl, rfl, hc⟩

theorem not_special_of_isFinite (h : x.isFinite) : x.isNaN = false ∧ x.isInfinite = false := by
  simp only [Binary64.isFinite, Binary64.isNaN, Binary64.isInfinite, decide_eq_true_eq,
    decide_eq_false_iff_not] at h ⊢
  omega

/-- What a word is taken for, and when it is taken at all. -/
theorem checkFloat_eq_ok : checkFloat F word = .ok x ↔ x = .ofWord F word ∧ x.whole? = none ∧
    (F ≠ .half → x.isFinite ∧ x.word? .half = none) ∧
    (F = .double → x.word? .single = none) := by
  unfold checkFloat
  dsimp only
  constructor
  · intro h
    split_ifs at h with hw hhalf hsingle
    cases h
    refine ⟨rfl, ?_, by simpa using hhalf, by simpa using hsingle⟩
    by_contra hsome
    obtain ⟨n, hn⟩ := Option.ne_none_iff_exists'.1 hsome
    exact hw ⟨(Binary64.whole?_eq_some_iff.1 hn).1, by rw [hn, Option.isSome_some]⟩
  · rintro ⟨rfl, hw, hhalf, hsingle⟩
    rw [if_neg (by simp [hw]), if_neg (by simpa using hhalf), if_neg (by simpa using hsingle)]

theorem encodeFloat_of_whole? {n : Int} (h : x.whole? = some n) : encodeFloat x = encodeInt n := by
  obtain ⟨hnan, hinf⟩ := not_special_of_isFinite (Binary64.whole?_eq_some_iff.1 h).1
  simp [encodeFloat, hnan, hinf, h]

/-- A finite float that is no integer is written in the narrowest form that holds it, and the word
of this form is taken for it. -/
theorem narrowest_word (hx : x.isFinite) (hn : x.whole? = none) (hf : FloatForm info width F)
    (hw : x.word? F = some word) (hhalf : F ≠ .half → x.word? .half = none)
    (hsingle : F = .double → x.word? .single = none) :
    word < 2 * F.signBit ∧ checkFloat F word = .ok x ∧
      encodeFloat x = initialByte 7 info :: Bytes.ofNatBE width word := by
  obtain ⟨hword, hlt⟩ := Binary64.ofWord_of_word? hf.narrow hx hw
  refine ⟨hlt, checkFloat_eq_ok.2 ⟨hword.symm, hn, fun h => ⟨hx, hhalf h⟩, hsingle⟩, ?_⟩
  obtain ⟨hnan, hinf⟩ := not_special_of_isFinite hx
  simp only [encodeFloat, hnan, hinf, hn, Bool.false_eq_true, if_false]
  cases hf with
  | half => simp [hw]; rfl
  | single => simp [hw, hhalf (by decide)]; rfl
  | double =>
    rw [Binary64.word?_double hx, Option.some.injEq] at hw
    simp [hhalf (by decide), hsingle rfl, hw]
    rfl

/-- A float in its own form has a word that is written and taken for it. -/
theorem exists_word (hx : x.Plain) : ∃ info width F word, FloatForm info width F ∧
    word < 2 * F.signBit ∧ checkFloat F word = .ok x ∧
    encodeFloat x = initialByte 7 info :: Bytes.ofNatBE width word := by
  by_cases hfinite : x.isFinite
  · rcases hhalf : x.word? .half with _ | word
    · rcases hsingle : x.word? .single with _ | word
      · exact ⟨_, _, _, _, .double, narrowest_word hfinite hx.fraction .double
          (Binary64.word?_double hfinite) (fun _ => hhalf) fun _ => hsingle⟩
      · exact ⟨_, _, _, _, .single, narrowest_word hfinite hx.fraction .single hsingle
          (fun _ => hhalf) nofun⟩
    · exact ⟨_, _, _, _, .half, narrowest_word hfinite hx.fraction .half hhalf
        (fun h => absurd rfl h) nofun⟩
  by_cases hnan : x.isNaN
  · obtain rfl := hx.quiet hnan
    exact ⟨_, _, _, 0x7e00, .half, by decide, by decide, by decide⟩
  · simp only [Binary64.isFinite, Binary64.isNaN, decide_eq_true_eq] at hfinite hnan
    have hinf : x.magnitude = FloatFormat.double.infinite := by omega
    rw [← Binary64.ofMagnitude_eq x, hinf]
    cases x.isNegative with
    | false => exact ⟨_, _, _, 0x7c00, .half, by decide, by decide, by decide⟩
    | true => exact ⟨_, _, _, 0xfc00, .half, by decide, by decide, by decide⟩

/-- The half of the not-a-number that is written. -/
theorem eq_of_ofWord_half_nan (hw : word < 0x10000) (hn : 0x7c00 < word % 0x8000)
    (h : Binary64.ofWord .half word = .nan) : word = 0x7e00 := by
  have hsign : FloatFormat.half.signBit = 0x8000 := rfl
  have hinf : FloatFormat.half.infinite = 0x7c00 := rfl
  have hwide : FloatFormat.double.fractionBits - FloatFormat.half.fractionBits = 42 := rfl
  have hquiet : Binary64.quietBit = 2 ^ 51 := rfl
  have hdouble : FloatFormat.double.infinite = 2047 * 2 ^ 52 := rfl
  have htop : FloatFormat.double.signBit = 2 ^ 63 := rfl
  simp only [Binary64.ofWord, hsign, hinf, if_neg (show ¬ word % 0x8000 < 0x7c00 by omega),
    if_neg (show ¬ word % 0x8000 = 0x7c00 by omega), hwide, hquiet, hdouble, Nat.shiftLeft_eq,
    Binary64.ofMagnitude, htop, Binary64.nan, Binary64.mk.injEq, decide_eq_true_eq] at h
  have hbits := congrArg UInt64.toNat h
  rw [UInt64.toNat_ofNat', show (0x7ff8000000000000 : UInt64).toNat = 0x7ff8000000000000 from rfl]
    at hbits
  split at hbits <;> omega

/-- A word that is taken for a float is written for it. -/
theorem encodeFloat_of_checkFloat (hf : FloatForm info width F) (hw : word < 2 * F.signBit)
    (h : checkFloat F word = .ok x) (hq : x.isNaN → x = .nan) :
    encodeFloat x = initialByte 7 info :: Bytes.ofNatBE width word := by
  obtain ⟨rfl, hn, hhalf, hsingle⟩ := checkFloat_eq_ok.1 h
  by_cases hfinite : (Binary64.ofWord F word).isFinite
  · have hword := Binary64.word?_ofWord hf.narrow hw
      (by simpa [Binary64.isFinite_ofWord] using hfinite)
    exact (narrowest_word hfinite hn hf hword (fun h => (hhalf h).2) hsingle).2.2
  obtain rfl : F = .half := by
    by_contra hF
    exact hfinite (hhalf hF).1
  cases hf
  have hsign : FloatFormat.half.signBit = 0x8000 := rfl
  have hinf : FloatFormat.half.infinite = 0x7c00 := rfl
  rw [Binary64.isFinite_ofWord, decide_eq_true_eq, hsign, hinf] at hfinite
  rw [hsign] at hw
  by_cases hnan : 0x7c00 < word % 0x8000
  · rw [Binary64.isNaN_ofWord, decide_eq_true_eq] at hq
    obtain rfl := eq_of_ofWord_half_nan (by omega) hnan (hq hnan)
    decide
  · obtain rfl | rfl : word = 0x7c00 ∨ word = 0xfc00 := by omega
    · decide
    · decide

end Cbor
end ObjectGraph
