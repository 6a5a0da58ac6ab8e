import ObjectGraph.Json.Skip
import ObjectGraph.Proofs.Json.Words

/-! Written words are passed over: text (`skipString_written`) and whole numbers
(`skipNumber_writeInt`), up to what follows them. -/
namespace ObjectGraph.Json

section Text

/-- A written byte is passed over in one step. What is kept of it does not matter. -/
theorem skipBytes_writeByte (b : UInt8) (rest done : Bytes) :
    ∃ done', ∀ fuel, stringBytes skipEscape (fuel + 1) (writeByte b ++ rest) done =
      stringBytes skipEscape fuel rest done' := by
  unfold writeByte
  split
  · next h => rcases h with rfl | rfl <;> exact ⟨_, fun _ => rfl⟩
  split
  · exact ⟨_, fun _ => rfl⟩
  split
  · exact ⟨_, fun _ => rfl⟩
  split
  · exact ⟨_, fun _ => rfl⟩
  split
  · exact ⟨_, fun _ => rfl⟩
  split
  · exact ⟨_, fun _ => rfl⟩
  split
  · next hc =>
    have hescape : skipEscape (0x75 :: 0x30 :: 0x30 :: (Utf8.encode (Hex.padded 2 b.toNat) ++ rest)) =
        .ok ([], rest) := by
      rw [skipEscape, if_pos rfl, hexQuad_written hc]
      rfl
    refine ⟨done, fun fuel => ?_⟩
    simp only [List.cons_append, List.nil_append]
    rw [stringBytes, if_neg (by decide), if_pos rfl, hescape]
    rfl
  · next hq _ _ _ _ _ hc =>
    rw [not_or] at hq
    refine ⟨b :: done, fun fuel => ?_⟩
    rw [List.singleton_append, stringBytes, if_neg hq.1, if_neg hq.2, if_neg hc]

theorem skipBytes_written {data : Bytes} {fuel : Nat} (h : data.length < fuel)
    (rest done : Bytes) :
    (stringBytes skipEscape fuel (data.flatMap writeByte ++ 0x22 :: rest) done).map Prod.snd =
      .ok rest := by
  induction data generalizing fuel done with
  | nil =>
    obtain ⟨fuel, rfl, -⟩ := exists_fuel h
    rfl
  | cons b data ih =>
    obtain ⟨fuel, rfl, h⟩ := exists_fuel h
    obtain ⟨done', hstep⟩ := skipBytes_writeByte b (data.flatMap writeByte ++ 0x22 :: rest) done
    rw [List.flatMap_cons, List.append_assoc, hstep]
    exact ih (by simpa using h) done'

/-- Text is passed over. -/
theorem skipString_written (data rest : Bytes) :
    skipString (data.flatMap writeByte ++ 0x22 :: rest) = .ok rest := by
  have hlen := length_le_flatMap_writeByte data
  exact skipBytes_written (by simp only [List.length_append, List.length_cons]; omega) rest []

end Text

section Numbers

variable {rest : Bytes}

theorem isSome_digit?_toDigits (n : Nat) :
    ∀ b ∈ Utf8.encode (Nat.toDigits 10 n), (digit? b).isSome := by
  induction n using Nat.strongRecOn with
  | ind n ih =>
    intro b hb
    rw [encode_toDigits, List.mem_append, List.mem_singleton] at hb
    rcases hb with hb | rfl
    · split at hb
      · cases hb
      · exact ih (n / 10) (by omega) b hb
    · rw [digit?_ofNat _ (Nat.mod_lt n (by omega))]
      rfl

theorem skipDigits_append {digits : Bytes} (h : ∀ b ∈ digits, (digit? b).isSome) (count : Nat)
    (rest : Bytes) : skipDigits count (digits ++ rest) = skipDigits (count + digits.length) rest := by
  induction digits generalizing count with
  | nil => rfl
  | cons b digits ih =>
    rw [List.cons_append, skipDigits, if_pos (h b (by simp)), ih fun c hc => h c (by simp [hc])]
    congr 1
    simp only [List.length_cons]
    omega

theorem skipDigits_of_ends (hr : Ends rest) (count : Nat) :
    skipDigits count rest = (count, rest) := by
  cases rest with
  | nil => rfl
  | cons b rest => simp [skipDigits, hr.1]

/-- A number without a fraction and an exponent ends where its digits do. -/
theorem skipFraction_of_ends (hr : Ends rest) : skipFraction rest = .ok rest := by
  cases rest with
  | nil => rfl
  | cons b rest =>
    have hmark : ¬ (b = 0x2e ∨ b = 0x65 ∨ b = 0x45) := of_decide_eq_false hr.2
    rw [not_or] at hmark
    simp only [skipFraction, if_neg hmark.1, if_neg hmark.2, bind, Except.bind]

theorem skipUnsigned_toDigits (n : Nat) (hr : Ends rest) :
    skipUnsigned (Utf8.encode (Nat.toDigits 10 n) ++ rest) = .ok rest := by
  by_cases hz : n = 0
  · subst hz
    have he : Utf8.encode (Nat.toDigits 10 0) = [0x30] := by decide
    rw [he, List.singleton_append, skipUnsigned, if_pos rfl, startsWithDigit_of_ends hr]
    exact skipFraction_of_ends hr
  · obtain ⟨d, more, hd, hdz, he⟩ := encode_toDigits_cons hz
    have hdigits := skipDigits_append (isSome_digit?_toDigits n) 0 rest
    rw [skipDigits_of_ends hr] at hdigits
    rw [he, List.cons_append] at hdigits ⊢
    have hstarts : startsWithDigit (UInt8.ofNat (48 + d) :: (more ++ rest)) = true := by
      rw [startsWithDigit, digit?_ofNat d hd]
      rfl
    rw [skipUnsigned, if_neg (zero_ne_digit d hd hdz), skipDigits1, if_pos hstarts, hdigits]
    exact skipFraction_of_ends hr

/-- A whole number is passed over. -/
theorem skipNumber_writeInt (n : Int) (hr : Ends rest) :
    skipNumber (writeInt n ++ rest) = .ok rest := by
  have hdigits := skipUnsigned_toDigits n.natAbs hr
  unfold writeInt
  split
  · rw [List.cons_append, skipNumber, if_pos rfl, hdigits]
  · by_cases hz : n.natAbs = 0
    · rw [hz] at hdigits ⊢
      exact hdigits
    · obtain ⟨d, more, hd, -, he⟩ := encode_toDigits_cons hz
      rw [he, List.cons_append] at hdigits ⊢
      rw [skipNumber, if_neg (digit_ne_minus d hd), hdigits]

end Numbers
end ObjectGraph.Json
