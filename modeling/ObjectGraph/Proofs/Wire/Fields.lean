import ObjectGraph.Proofs.Outcomes
import ObjectGraph.Proofs.Text.Utf8
import ObjectGraph.Wire.Reader

/-! What is read of a field that was written, with other bytes behind it: the field itself, or that
it is longer than the reader admits. And what has been read of bytes: a field that is written as the
bytes in front of those left. -/
namespace ObjectGraph.Wire

theorem encodeCount_ok {n : Nat} {bs : Bytes} (h : encodeCount n = .ok bs) :
    ∃ count : UInt32, count.toNat = n ∧ bs = encodeU32 count := by
  unfold encodeCount at h
  split at h
  · next hn =>
    simp only [Except.ok.injEq] at h
    have hmax : maxCount = 2 ^ 32 - 1 := rfl
    have hcount : (UInt32.ofNat n).toNat = n := UInt32.toNat_ofNat_of_lt' (by
      rw [UInt32.size]
      omega)
    exact ⟨.ofNat n, hcount, by rw [encodeU32, hcount, h]⟩
  · cases h

theorem readCount_append {n : Nat} {front : Bytes} (h : encodeCount n = .ok front) (max : Nat)
    (rest : Bytes) : readCount max (front ++ rest) =
      (if max < n then .error (.lengthTooLarge n max) else .ok n, rest) := by
  obtain ⟨count, rfl, rfl⟩ := encodeCount_ok h
  rw [readCount, readU32_append]
  dsimp only
  by_cases hm : max < count.toNat
  · rw [if_pos hm, if_pos hm]
  · rw [if_neg hm, if_neg hm]

theorem encodeBytes_ok {bs front : Bytes} (h : encodeBytes bs = .ok front) :
    ∃ length, encodeCount bs.length = .ok length ∧ front = length ++ bs := by
  unfold encodeBytes at h
  obtain ⟨length, hl, h⟩ := bind_eq_ok.1 h
  cases h
  exact ⟨length, hl, rfl⟩

theorem readBytes_append {bs front : Bytes} (h : encodeBytes bs = .ok front) (max : Nat)
    (rest : Bytes) : readBytes max (front ++ rest) =
      if max < bs.length then (.error (.lengthTooLarge bs.length max), bs ++ rest)
      else (.ok bs, rest) := by
  obtain ⟨length, hl, rfl⟩ := encodeBytes_ok h
  rw [readBytes, List.append_assoc, readCount_append hl]
  by_cases hm : max < bs.length
  · rw [if_pos hm, if_pos hm]
  · rw [if_neg hm, if_neg hm]
    exact take_append bs rest

/-- The limit on a text is one on its bytes, which are text again. -/
theorem readText_append {bound : Nat} {s : String} {front : Bytes}
    (h : encodeText bound s = .ok front) (max : Nat) (rest : Bytes) :
    readText max (front ++ rest) =
      if max < (Utf8.ofString s).length then
        (.error (.lengthTooLarge (Utf8.ofString s).length max), Utf8.ofString s ++ rest)
      else (.ok s, rest) := by
  have hbytes : encodeBytes (Utf8.ofString s) = .ok front := by
    unfold encodeText at h
    dsimp only at h
    split at h
    · cases h
    · exact h
  rw [readText, readBytes_append hbytes]
  by_cases hm : max < (Utf8.ofString s).length
  · rw [if_pos hm, if_pos hm]
  · rw [if_neg hm, if_neg hm]
    simp only [Utf8.toText_ofString]

section Read

variable {bs rest : Bytes}

theorem take_ok {n : Nat} {front : Bytes} (h : take n bs = (.ok front, rest)) :
    bs = front ++ rest ∧ front.length = n := by
  unfold take at h
  split at h
  · next hn =>
    cases h
    have hlen : n ≤ bs.length := by simpa using hn
    exact ⟨(List.take_append_drop n bs).symm, List.length_take_of_le hlen⟩
  · cases h

theorem readFlag_ok {flag : Bool} (h : readFlag bs = (.ok flag, rest)) :
    bs = encodeFlag flag ++ rest := by
  cases bs with
  | nil => cases h
  | cons b bs =>
    simp only [readFlag, readByte] at h
    split_ifs at h with h0 h1
    · subst h0
      cases h
      rfl
    · subst h1
      cases h
      rfl
    · cases h

theorem readU32_ok {n : UInt32} (h : readU32 bs = (.ok n, rest)) : bs = encodeU32 n ++ rest := by
  unfold readU32 at h
  rcases ht : take 4 bs with ⟨e | front, rest'⟩ <;> rw [ht] at h <;> cases h
  obtain ⟨rfl, hlen⟩ := take_ok ht
  have hbound : Bytes.toNatLE front < 2 ^ 32 := by
    have hlt := Bytes.toNatLE_lt front
    rwa [hlen] at hlt
  have hfront := Bytes.ofNatLE_toNatLE front
  rw [hlen] at hfront
  rw [encodeU32, UInt32.toNat_ofNat_of_lt' hbound, hfront]

theorem encodeCount_toNat (count : UInt32) : encodeCount count.toNat = .ok (encodeU32 count) := by
  have hcount := count.toNat_lt
  have hmax : maxCount = 2 ^ 32 - 1 := rfl
  rw [encodeCount, if_pos (by omega), encodeU32]

theorem readCount_ok {max n : Nat} (h : readCount max bs = (.ok n, rest)) :
    ∃ front, encodeCount n = .ok front ∧ bs = front ++ rest := by
  unfold readCount at h
  rcases hr : readU32 bs with ⟨e | count, rest'⟩ <;> rw [hr] at h
  · cases h
  · dsimp only at h
    split at h <;> cases h
    exact ⟨_, encodeCount_toNat count, readU32_ok hr⟩

theorem readBytes_ok {max : Nat} {data : Bytes} (h : readBytes max bs = (.ok data, rest)) :
    ∃ front, encodeBytes data = .ok front ∧ bs = front ++ rest := by
  unfold readBytes at h
  rcases hc : readCount max bs with ⟨e | n, rest'⟩ <;> rw [hc] at h
  · cases h
  · obtain ⟨rfl, rfl⟩ := take_ok h
    obtain ⟨length, hl, rfl⟩ := readCount_ok hc
    refine ⟨length ++ data, ?_, by rw [List.append_assoc]⟩
    rw [encodeBytes, hl]
    rfl

theorem readText_ok {max : Nat} {s : String} (h : readText max bs = (.ok s, rest)) :
    ∃ front, encodeText maxCount s = .ok front ∧ bs = front ++ rest := by
  unfold readText at h
  rcases hb : readBytes max bs with ⟨e | data, rest'⟩ <;> rw [hb] at h
  · cases h
  · dsimp only at h
    rcases ht : Utf8.toText data with fault | text <;> rw [ht] at h <;> cases h
    obtain rfl := Utf8.ofString_of_toText ht
    obtain ⟨front, hf, hsplit⟩ := readBytes_ok hb
    obtain ⟨length, hl, -⟩ := encodeBytes_ok hf
    -- The length has been read from four bytes, so it is no greater than a writer admits.
    have hshort : ¬ maxCount < (Utf8.ofString s).length := by
      intro hlong
      rw [encodeCount, if_neg (by omega)] at hl
      cases hl
    exact ⟨front, by rw [encodeText, if_neg hshort, hf], hsplit⟩

end Read

end ObjectGraph.Wire
