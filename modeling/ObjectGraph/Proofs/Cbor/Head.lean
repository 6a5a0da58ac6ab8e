import ObjectGraph.Cbor.Decode
import ObjectGraph.Cbor.Encode
import ObjectGraph.Proofs.Outcomes
import ObjectGraph.Proofs.Text.Utf8

/-! Heads of items: the major type and argument that `head` writes are those that the readers
take from it, whatever follows (`head_eq`), and a head that is read is the one that is written
(`head_of_argument`). Behind a head each type of item has its own reading. -/
namespace ObjectGraph.Cbor

theorem initialByte_major {major info : Nat} (hm : major < 8) (hi : info < 32) :
    (initialByte major info).toNat / 32 = major := by
  unfold initialByte
  rw [UInt8.toNat_ofNat']
  omega

theorem initialByte_info {major info : Nat} (hi : info < 32) :
    (initialByte major info).toNat % 32 = info := by
  unfold initialByte
  rw [UInt8.toNat_ofNat']
  omega

theorem take_append (front rest : Bytes) :
    take front.length (front ++ rest) = .ok (front, rest) := by
  simp [take]

theorem readUint_append {width n : Nat} (h : n < Nat.pow 256 width) (rest : Bytes) :
    readUint width (Bytes.ofNatBE width n ++ rest) = .ok (n, rest) := by
  have ht := take_append (Bytes.ofNatBE width n) rest
  rw [Bytes.length_ofNatBE] at ht
  simp [readUint, ht, bind, Except.bind, Bytes.toNatBE_ofNatBE h]

theorem readArgument_append {width least n : Nat} (hl : least < n) (h : n < Nat.pow 256 width)
    (rest : Bytes) : readArgument width least (Bytes.ofNatBE width n ++ rest) = .ok (n, rest) := by
  simp [readArgument, readUint_append h, bind, Except.bind, hl]

/-- A head is an initial byte and the bytes of an argument that is read back from behind it. -/
theorem head_eq (major : Nat) {n : Nat} (h : n < 2 ^ 64) :
    ∃ info bytes, info < 28 ∧ head major n = initialByte major info :: bytes ∧
      ∀ rest, argument info (bytes ++ rest) = .ok (n, rest) := by
  unfold head
  split
  · next h0 => exact ⟨n, [], by omega, rfl, fun rest => by simp [argument, h0]⟩
  split
  · exact ⟨24, _, by omega, rfl, readArgument_append (by omega) (by norm_num; omega)⟩
  split
  · exact ⟨25, _, by omega, rfl, readArgument_append (by omega) (by norm_num; omega)⟩
  split
  · exact ⟨26, _, by omega, rfl, readArgument_append (by omega) (by norm_num; omega)⟩
  · exact ⟨27, _, by omega, rfl, readArgument_append (by omega) (by norm_num; omega)⟩

/-- A head that is written for a count is read as that count, if so many bytes follow. -/
theorem head_reads (major : Nat) {n : Nat} (h : n < 2 ^ 64) :
    ∃ info bytes, info < 32 ∧ head major n = initialByte major info :: bytes ∧
      (∀ rest, argument info (bytes ++ rest) = .ok (n, rest)) ∧
      ∀ rest : Bytes, n ≤ rest.length → count info (bytes ++ rest) = .ok (n, rest) := by
  obtain ⟨info, bytes, hi, hh, ha⟩ := head_eq major h
  refine ⟨info, bytes, by omega, hh, ha, ?_⟩
  intro rest hn
  simp [count, ha, bind, Except.bind, hn]

theorem head_ne_nil (major n : Nat) : head major n ≠ [] := by
  unfold head
  split_ifs <;> simp

section items
variable (fuel : Nat) (rest : Bytes)

theorem readItem_unsigned {n : Nat} (h : n < 2 ^ 64) :
    readItem (fuel + 1) (head 0 n ++ rest) = .ok (.unsigned (UInt64.ofNat n), rest) := by
  obtain ⟨info, bytes, hi, hh, ha, -⟩ := head_reads 0 h
  simp [hh, readItem, initialByte_major (show 0 < 8 by omega) hi, initialByte_info hi, ha, bind,
    Except.bind]

theorem readItem_negative {n : Nat} (h : n < 2 ^ 63) :
    readItem (fuel + 1) (head 1 n ++ rest) = .ok (.negative (UInt64.ofNat n), rest) := by
  obtain ⟨info, bytes, hi, hh, ha, -⟩ := head_reads 1 (show n < 2 ^ 64 by omega)
  simp [hh, readItem, initialByte_major (show 1 < 8 by omega) hi, initialByte_info hi, ha, bind,
    Except.bind]
  omega

theorem readItem_bytes {data : Bytes} (h : data.length < 2 ^ 64) :
    readItem (fuel + 1) (head 2 data.length ++ (data ++ rest)) = .ok (.bytes data, rest) := by
  obtain ⟨info, bytes, hi, hh, -, hc⟩ := head_reads 2 h
  simp [hh, readItem, initialByte_major (show 2 < 8 by omega) hi, initialByte_info hi, hc, bind,
    Except.bind, take_append]

theorem readItem_text {s : String} (h : (Utf8.ofString s).length < 2 ^ 64) :
    readItem (fuel + 1) (head 3 (Utf8.ofString s).length ++ (Utf8.ofString s ++ rest)) =
      .ok (.text s, rest) := by
  obtain ⟨info, bytes, hi, hh, -, hc⟩ := head_reads 3 h
  simp [hh, readItem, initialByte_major (show 3 < 8 by omega) hi, initialByte_info hi, hc, bind,
    Except.bind, take_append]

theorem readItem_array {n : Nat} (h : n < 2 ^ 64) (hn : n ≤ rest.length) :
    readItem (fuel + 1) (head 4 n ++ rest) =
      (readItems (readItem fuel) n rest []).map fun step => (.array step.1, step.2) := by
  obtain ⟨info, bytes, hi, hh, -, hc⟩ := head_reads 4 h
  simp [hh, readItem, initialByte_major (show 4 < 8 by omega) hi, initialByte_info hi, hc rest hn,
    bind, Except.bind]
  cases readItems (readItem fuel) n rest [] <;> rfl

theorem readItem_map {n : Nat} (h : n < 2 ^ 64) (hn : n ≤ rest.length) :
    readItem (fuel + 1) (head 5 n ++ rest) =
      (readEntries (readItem fuel) n none rest []).map fun step => (.map step.1, step.2) := by
  obtain ⟨info, bytes, hi, hh, -, hc⟩ := head_reads 5 h
  simp [hh, readItem, initialByte_major (show 5 < 8 by omega) hi, initialByte_info hi, hc rest hn,
    bind, Except.bind]
  cases readEntries (readItem fuel) n none rest [] <;> rfl

end items

theorem take_ok {n : Nat} {bs front rest : Bytes} (h : take n bs = .ok (front, rest)) :
    bs = front ++ rest ∧ front.length = n := by
  unfold take at h
  split at h
  · next hn =>
    rw [Bytes.holds_eq, decide_eq_true_eq] at hn
    cases h
    exact ⟨(List.take_append_drop n bs).symm, List.length_take_of_le hn⟩
  · cases h

theorem readUint_ok {width n : Nat} {bs rest : Bytes} (h : readUint width bs = .ok (n, rest)) :
    bs = Bytes.ofNatBE width n ++ rest ∧ n < Nat.pow 256 width := by
  unfold readUint at h
  obtain ⟨⟨front, tail⟩, ht, h⟩ := bind_eq_ok.1 h
  cases h
  obtain ⟨rfl, rfl⟩ := take_ok ht
  exact ⟨by rw [Bytes.ofNatBE_toNatBE], Bytes.toNatBE_lt front⟩

theorem readArgument_ok {width least n : Nat} {bs rest : Bytes}
    (h : readArgument width least bs = .ok (n, rest)) :
    bs = Bytes.ofNatBE width n ++ rest ∧ n < Nat.pow 256 width ∧ least < n := by
  unfold readArgument at h
  obtain ⟨⟨m, tail⟩, hu, h⟩ := bind_eq_ok.1 h
  obtain ⟨hbs, hm⟩ := readUint_ok hu
  dsimp only at h
  split at h <;> cases h
  next hl => exact ⟨hbs, hm, hl⟩

/-- An argument that is read stands in the head that is written for it. -/
theorem head_of_argument {info n : Nat} {bs rest : Bytes} (h : argument info bs = .ok (n, rest)) :
    n < 2 ^ 64 ∧ ∀ major, initialByte major info :: bs = head major n ++ rest := by
  unfold argument at h
  split at h
  · next hi =>
    cases h
    exact ⟨by omega, fun major => by simp [head, hi]⟩
  have hpow : Nat.pow 256 1 = 0x100 ∧ Nat.pow 256 2 = 0x10000 ∧ Nat.pow 256 4 = 0x100000000 ∧
      Nat.pow 256 8 = 2 ^ 64 := by decide
  split at h
  · obtain ⟨rfl, hn, hl⟩ := readArgument_ok h
    refine ⟨by omega, fun major => ?_⟩
    rw [head, if_neg (by omega), if_pos (by omega)]
    rfl
  · obtain ⟨rfl, hn, hl⟩ := readArgument_ok h
    refine ⟨by omega, fun major => ?_⟩
    rw [head, if_neg (by omega), if_neg (by omega), if_pos (by omega)]
    rfl
  · obtain ⟨rfl, hn, hl⟩ := readArgument_ok h
    refine ⟨by omega, fun major => ?_⟩
    rw [head, if_neg (by omega), if_neg (by omega), if_neg (by omega), if_pos (by omega)]
    rfl
  · obtain ⟨rfl, hn, hl⟩ := readArgument_ok h
    refine ⟨by omega, fun major => ?_⟩
    rw [head, if_neg (by omega), if_neg (by omega), if_neg (by omega), if_neg (by omega)]
    rfl
  · cases h
  · cases h

theorem head_of_count {info n : Nat} {bs rest : Bytes} (h : count info bs = .ok (n, rest)) :
    n < 2 ^ 64 ∧ ∀ major, initialByte major info :: bs = head major n ++ rest := by
  unfold count at h
  obtain ⟨⟨m, tail⟩, ha, h⟩ := bind_eq_ok.1 h
  dsimp only at h
  split at h <;> cases h
  exact head_of_argument ha

theorem initialByte_toNat (b : UInt8) : initialByte (b.toNat / 32) (b.toNat % 32) = b := by
  rw [initialByte, Nat.div_add_mod', UInt8.ofNat_toNat]

/-- The initial byte of a head has its major type. -/
theorem head_first (major : Nat) (hm : major < 8) (n : Nat) :
    ∃ b bytes, head major n = b :: bytes ∧ b.toNat / 32 = major := by
  unfold head
  split_ifs <;> exact ⟨_, _, rfl, initialByte_major hm (by omega)⟩

/-- A head ends where its argument does. -/
theorem head_append_inj {major n m : Nat} (hn : n < 2 ^ 64) (hm : m < 2 ^ 64) {xs ys : Bytes}
    (h : head major n ++ xs = head major m ++ ys) : n = m ∧ xs = ys := by
  obtain ⟨info, bytes, hi, hh, ha⟩ := head_eq major hn
  obtain ⟨info', bytes', hi', hh', ha'⟩ := head_eq major hm
  rw [hh, hh', List.cons_append, List.cons_append, List.cons.injEq] at h
  have hinfo : info = info' := by
    have hbyte := congrArg (fun b => b.toNat % 32) h.1
    simpa only [initialByte_info (show info < 32 by omega),
      initialByte_info (show info' < 32 by omega)] using hbyte
  have hread := ha xs
  rw [h.2, hinfo, ha' ys, Except.ok.injEq, Prod.mk.injEq] at hread
  exact ⟨hread.1.symm, hread.2.symm⟩

end ObjectGraph.Cbor
