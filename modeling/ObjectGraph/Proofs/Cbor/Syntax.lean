import ObjectGraph.Proofs.Binary64.Values
import ObjectGraph.Proofs.Cbor.Reading

/-! The bytes that are decoded, as a grammar that says nothing of the values they stand for
(`decode_isOk_iff`): heads are the shortest ones, keys grow, and floats are told apart by the
numbers they denote. -/
namespace ObjectGraph.Cbor
open Binary64 (FitsInteger)
open FloatFormat (half single double)

/-- Low bits of an initial byte that announce an argument of so many bytes. -/
inductive Announces : (info width : Nat) → Prop
  | one : Announces 24 1
  | two : Announces 25 2
  | four : Announces 26 4
  | eight : Announces 27 8

/-- The bytes hold a major type and an argument, in the initial byte or behind it. -/
inductive HeadForm (major n : Nat) : Bytes → Prop
  | short : n < 24 → HeadForm major n [initialByte major n]
  | long {info width : Nat} {bs : Bytes} : Announces info width → bs.length = width →
      Bytes.toNatBE bs = n → HeadForm major n (initialByte major info :: bs)

/-- The bytes are the shortest head of a major type and an argument. -/
structure IsHead (major n : Nat) (bs : Bytes) : Prop where
  form : HeadForm major n bs
  shortest : ∀ cs, HeadForm major n cs → bs.length ≤ cs.length

/-- The bytes are one item in its deterministic form. -/
inductive IsItem : Bytes → Prop
  | unsigned {n : Nat} {bs : Bytes} : IsHead 0 n bs → IsItem bs
  | negative {n : Nat} {bs : Bytes} : IsHead 1 n bs → n ≤ 2 ^ 63 - 1 → IsItem bs
  | bytes {front data : Bytes} : IsHead 2 data.length front → IsItem (front ++ data)
  | text {front data : Bytes} : IsHead 3 data.length front → data.toByteArray.IsValidUTF8 →
      IsItem (front ++ data)
  | array {front : Bytes} {parts : List Bytes} : IsHead 4 parts.length front →
      (∀ part ∈ parts, IsItem part) → IsItem (front ++ parts.flatten)
  | map {front : Bytes} {pairs : List (Bytes × Bytes)} : IsHead 5 pairs.length front →
      (∀ p ∈ pairs, IsItem p.1) → (∀ p ∈ pairs, IsItem p.2) →
      (pairs.map Prod.fst).Pairwise (· < ·) →
      IsItem (front ++ (pairs.map fun p => p.1 ++ p.2).flatten)
  | bool (b : Bool) : IsItem [if b then 0xf5 else 0xf4]
  | null : IsItem [0xf6]
  | half {bs : Bytes} : bs.length = 2 →
      (∀ n : ℤ, half.number? (Bytes.toNatBE bs) ≠ some (n : ℚ)) → IsItem (0xf9 :: bs)
  | single {bs : Bytes} {q : ℚ} : bs.length = 4 → single.number? (Bytes.toNatBE bs) = some q →
      ¬ FitsInteger q → ¬ half.Has q → IsItem (0xfa :: bs)
  | double {bs : Bytes} {q : ℚ} : bs.length = 8 → double.number? (Bytes.toNatBE bs) = some q →
      ¬ FitsInteger q → ¬ half.Has q → ¬ single.Has q → IsItem (0xfb :: bs)

theorem headForm_head (major : Nat) {n : Nat} (h : n < 2 ^ 64) :
    HeadForm major n (head major n) := by
  have long {info width : Nat} (hi : Announces info width) (hn : n < Nat.pow 256 width) :
      HeadForm major n (initialByte major info :: Bytes.ofNatBE width n) :=
    .long hi (Bytes.length_ofNatBE _ _) (Bytes.toNatBE_ofNatBE hn)
  unfold head
  split_ifs with h0
  · exact .short h0
  · exact long .one (by norm_num; omega)
  · exact long .two (by norm_num; omega)
  · exact long .four (by norm_num; omega)
  · exact long .eight (by norm_num; omega)

/-- No form of a head is shorter than the one that is written, and no other is as short. -/
theorem HeadForm.eq_head {major n : Nat} {bs : Bytes} (h : HeadForm major n bs) :
    n < 2 ^ 64 ∧ (head major n).length ≤ bs.length ∧
      (bs.length ≤ (head major n).length → bs = head major n) := by
  cases h with
  | short hn => simp [head, hn]; omega
  | @long info width bs hi hl hn =>
    subst hn hl
    have hlt := Bytes.toNatBE_lt bs
    have hback := Bytes.ofNatBE_toNatBE bs
    generalize Bytes.toNatBE bs = n at hlt hback ⊢
    rw [← hback]
    generalize bs.length = width at hi hlt ⊢
    cases hi <;> norm_num at hlt <;> unfold head <;> split_ifs <;>
      refine ⟨by omega, by simp, fun hl => ?_⟩ <;> first | rfl | simp at hl

theorem isHead_iff {major n : Nat} {bs : Bytes} :
    IsHead major n bs ↔ n < 2 ^ 64 ∧ bs = head major n := by
  constructor
  · rintro ⟨hform, hshortest⟩
    obtain ⟨hn, -, heq⟩ := hform.eq_head
    exact ⟨hn, heq (hshortest _ (headForm_head major hn))⟩
  · rintro ⟨hn, rfl⟩
    exact ⟨headForm_head major hn, fun cs hcs => hcs.eq_head.2.1⟩

section floats
variable {F : FloatFormat} {word : Nat}

theorem checkFloat_half_iff :
    (∃ x, checkFloat .half word = .ok x) ↔ ∀ n : ℤ, half.number? word ≠ some (n : ℚ) := by
  simp only [checkFloat_eq_ok, exists_eq_left, ne_eq, not_true_eq_false, false_implies, and_true,
    show (half = double) = False by simp; decide]
  constructor
  · intro hnone n hn
    obtain ⟨m, hm⟩ := (Binary64.whole?_ofWord_iff FloatFormat.narrow_half hn).2
      (Binary64.fitsInteger_of_half hn)
    rw [hnone] at hm
    cases hm
  · intro hne
    by_contra hsome
    obtain ⟨n, hn⟩ := Option.ne_none_iff_exists'.1 hsome
    obtain ⟨hfinite, hunits, -⟩ := Binary64.whole?_eq_some_iff.1 hn
    exact hne n ((Binary64.number?_eq_some_iff FloatFormat.narrow_half).2
      ⟨hfinite, by rw [hunits]; push_cast; rfl⟩)

/-- A word that is wider than a half is taken for a finite number that is written in no other
way. -/
theorem checkFloat_wide_iff (hF : F.Narrow) (hne : F ≠ .half) :
    (∃ x, checkFloat F word = .ok x) ↔ ∃ q, F.number? word = some q ∧ ¬ FitsInteger q ∧
      ¬ half.Has q ∧ (F = .double → ¬ single.Has q) := by
  have key {q : ℚ} (hq : F.number? word = some q) :
      (∃ x, checkFloat F word = .ok x) ↔ ¬ FitsInteger q ∧ ¬ half.Has q ∧
        (F = .double → ¬ single.Has q) := by
    have hfinite := (Binary64.exists_number?_iff hF).1 ⟨q, hq⟩
    simp only [checkFloat_eq_ok, exists_eq_left, hne, hfinite, ne_eq, not_false_eq_true,
      true_implies, true_and, ← Binary64.whole?_ofWord_iff hF hq,
      ← Binary64.word?_ofWord_iff hF FloatFormat.narrow_half hq,
      ← Binary64.word?_ofWord_iff hF FloatFormat.narrow_single hq, not_exists,
      ← Option.eq_none_iff_forall_ne_some]
  constructor
  · rintro ⟨x, hx⟩
    obtain ⟨rfl, -, hwide, -⟩ := checkFloat_eq_ok.1 hx
    obtain ⟨q, hq⟩ := (Binary64.exists_number?_iff hF).2 (hwide hne).1
    exact ⟨q, hq, (key hq).1 ⟨_, hx⟩⟩
  · rintro ⟨q, hq, h⟩
    exact (key hq).2 h

end floats

/-- The bytes of a float that is read hold a word for it. -/
theorem isItem_float {info width word : Nat} {F : FloatFormat} {x : Binary64}
    (hf : FloatForm info width F) (hw : word < 2 * F.signBit) (hc : checkFloat F word = .ok x) :
    IsItem (initialByte 7 info :: Bytes.ofNatBE width word) := by
  have hword : Bytes.toNatBE (Bytes.ofNatBE width word) = word :=
    Bytes.toNatBE_ofNatBE (hf.words ▸ hw)
  cases hf with
  | half => exact .half (by simp) (by rw [hword]; exact checkFloat_half_iff.1 ⟨x, hc⟩)
  | single =>
    obtain ⟨q, hq, hint, hhalf, -⟩ :=
      (checkFloat_wide_iff FloatFormat.narrow_single (by decide)).1 ⟨x, hc⟩
    exact .single (by simp) (by rw [hword, hq]) hint hhalf
  | double =>
    obtain ⟨q, hq, hint, hhalf, hsingle⟩ :=
      (checkFloat_wide_iff FloatFormat.narrow_double (by decide)).1 ⟨x, hc⟩
    exact .double (by simp) (by rw [hword, hq]) hint hhalf (hsingle rfl)

/-- Bytes that stand for a value are an item. -/
theorem Denotes.isItem {bs : Bytes} {v : Value} (h : Denotes bs v) (hr : v.InRange) :
    IsItem bs := by
  induction v using Value.induction generalizing bs with
  | tag number content _ => cases h
  | null => cases h; exact .null
  | bool b => cases h; exact .bool b
  | unsigned n => cases h; exact .unsigned (isHead_iff.2 ⟨n.toNat_lt, rfl⟩)
  | negative n =>
    cases h
    have hn := inRange_negative.1 hr
    exact .negative (isHead_iff.2 ⟨n.toNat_lt, rfl⟩) (by omega)
  | float x => cases h with | float hf hw hc => exact isItem_float hf hw hc
  | bytes data => cases h with | bytes hl => exact .bytes (isHead_iff.2 ⟨hl, rfl⟩)
  | text s =>
    cases h with | text hl =>
    exact .text (isHead_iff.2 ⟨hl, rfl⟩) (Utf8.isValidUTF8_iff.2 ⟨s, rfl⟩)
  | array items ih =>
    cases h with | array hl hp =>
    refine .array (isHead_iff.2 ⟨hp.length_eq ▸ hl, by rw [hp.length_eq]⟩) fun part hm => ?_
    obtain ⟨v, hv, hd⟩ := exists_right_of_mem hp hm
    exact ih v hv hd (inRange_array.1 hr v hv)
  | map entries ih =>
    cases h with | map hl hp hs =>
    refine .map (isHead_iff.2 ⟨hp.length_eq ▸ hl, by rw [hp.length_eq]⟩) ?_ ?_
      (List.isChain_iff_pairwise.1 hs)
    · intro p hm
      obtain ⟨e, he, hk, -⟩ := exists_right_of_mem hp hm
      exact (ih e he).1 hk (inRange_map.1 hr e he).1
    · intro p hm
      obtain ⟨e, he, -, hv⟩ := exists_right_of_mem hp hm
      exact (ih e he).2 hv (inRange_map.1 hr e he).2

/-- Members that each have a partner have a list of partners. -/
theorem exists_partners {α β : Type} {R : α → β → Prop} {as : List α}
    (h : ∀ a ∈ as, ∃ b, R a b) : ∃ bs, List.Forall₂ R as bs := by
  induction as with
  | nil => exact ⟨[], .nil⟩
  | cons a as ih =>
    obtain ⟨b, hb⟩ := h a List.mem_cons_self
    obtain ⟨bs, hbs⟩ := ih fun a ha => h a (List.mem_cons_of_mem _ ha)
    exact ⟨b :: bs, .cons hb hbs⟩

/-- A word in the bytes of a float stands for it. -/
theorem denotes_float {info width : Nat} {F : FloatFormat} {bs : Bytes}
    (hf : FloatForm info width F) (hl : bs.length = width)
    (hc : ∃ x, checkFloat F (Bytes.toNatBE bs) = .ok x) :
    ∃ v, Denotes (initialByte 7 info :: bs) v ∧ v.InRange := by
  obtain ⟨x, hx⟩ := hc
  subst hl
  have hlt := Bytes.toNatBE_lt bs
  have hd := Denotes.float hf (hf.words ▸ hlt) hx
  rw [Bytes.ofNatBE_toNatBE] at hd
  exact ⟨_, hd, fun w hw n hn => by cases hw; cases hn⟩

/-- An item stands for a value that holds no integer out of range. -/
theorem IsItem.denotes {bs : Bytes} (h : IsItem bs) : ∃ v, Denotes bs v ∧ v.InRange := by
  have hnat {n : Nat} (hn : n < 2 ^ 64) : (UInt64.ofNat n).toNat = n := by
    rw [UInt64.toNat_ofNat', Nat.mod_eq_of_lt hn]
  induction h with
  | @unsigned n bs hhead =>
    obtain ⟨hn, rfl⟩ := isHead_iff.1 hhead
    refine ⟨.unsigned (UInt64.ofNat n), ?_, fun w hw m hm => by cases hw; cases hm; omega⟩
    simpa only [hnat hn] using Denotes.unsigned (UInt64.ofNat n)
  | @negative n bs hhead hle =>
    obtain ⟨hn, rfl⟩ := isHead_iff.1 hhead
    refine ⟨.negative (UInt64.ofNat n), ?_, inRange_negative.2 (by rw [hnat hn]; omega)⟩
    simpa only [hnat hn] using Denotes.negative (UInt64.ofNat n)
  | bytes hhead =>
    obtain ⟨hl, rfl⟩ := isHead_iff.1 hhead
    exact ⟨_, .bytes hl, fun w hw n hn => by cases hw; cases hn⟩
  | text hhead hvalid =>
    obtain ⟨s, rfl⟩ := Utf8.isValidUTF8_iff.1 hvalid
    obtain ⟨hl, rfl⟩ := isHead_iff.1 hhead
    exact ⟨_, .text hl, fun w hw n hn => by cases hw; cases hn⟩
  | array hhead _ ih =>
    obtain ⟨hl, rfl⟩ := isHead_iff.1 hhead
    obtain ⟨items, hitems⟩ := exists_partners ih
    have hp := forall₂_of_mem hitems fun _ _ _ _ h => h.1
    rw [hp.length_eq] at hl ⊢
    refine ⟨_, .array hl hp, inRange_array.2 fun v hv => ?_⟩
    obtain ⟨part, -, -, hr⟩ := exists_left_of_mem hitems hv
    exact hr
  | @map front pairs hhead _ _ hkeys ihk ihv =>
    obtain ⟨hl, rfl⟩ := isHead_iff.1 hhead
    have hpartner : ∀ p ∈ pairs, ∃ e : Value × Value, DenotesEntry p e ∧
        e.1.InRange ∧ e.2.InRange := by
      intro p hm
      obtain ⟨k, hk, hkr⟩ := ihk p hm
      obtain ⟨v, hv, hvr⟩ := ihv p hm
      exact ⟨(k, v), ⟨hk, hv⟩, hkr, hvr⟩
    obtain ⟨entries, hentries⟩ := exists_partners hpartner
    have hp := forall₂_of_mem hentries fun _ _ _ _ h => h.1
    rw [hp.length_eq] at hl ⊢
    refine ⟨_, .map hl hp (List.isChain_iff_pairwise.2 hkeys), inRange_map.2 fun e he => ?_⟩
    obtain ⟨p, -, -, hr⟩ := exists_left_of_mem hentries he
    exact hr
  | bool b => exact ⟨_, .bool b, fun w hw n hn => by cases hw; cases hn⟩
  | null => exact ⟨_, .null, fun w hw n hn => by cases hw; cases hn⟩
  | half hl hne => exact denotes_float .half hl (checkFloat_half_iff.2 hne)
  | single hl hq hint hhalf =>
    exact denotes_float .single hl ((checkFloat_wide_iff FloatFormat.narrow_single (by decide)).2
      ⟨_, hq, hint, hhalf, fun h => absurd h (by decide)⟩)
  | double hl hq hint hhalf hsingle =>
    exact denotes_float .double hl ((checkFloat_wide_iff FloatFormat.narrow_double (by decide)).2
      ⟨_, hq, hint, hhalf, fun _ => hsingle⟩)

/-- The bytes that are decoded are those of exactly one item, with nothing after it. -/
theorem decode_isOk_iff (bs : Bytes) : (∃ v, decode bs = .ok v) ↔ IsItem bs := by
  simp only [decode_eq_ok_iff]
  constructor
  · rintro ⟨v, hd, hr⟩
    exact hd.isItem hr
  · exact IsItem.denotes

end ObjectGraph.Cbor
