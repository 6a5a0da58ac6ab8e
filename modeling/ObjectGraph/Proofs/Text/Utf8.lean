import ObjectGraph.Text.Utf8
import Mathlib.Tactic

/-! Text survives its bytes: reading what was written gives the characters back, in one part of a
text as in the whole of it (`decodeFrom_utf8EncodeChar`, `toText_ofString`), and bytes that can be
read are the ones that are written for their text (`ofString_of_toText`). -/
namespace ObjectGraph.Utf8

private theorem toNat_byte {n : Nat} (h : n < 256) : (UInt8.ofNat n).toNat = n := by
  rw [UInt8.toNat_ofNat']; omega

theorem decodeFrom_ascii {b : UInt8} (h : b < 0x80) (bs : Bytes) (valid : Nat) (done : List Char) :
    decodeFrom (b :: bs) valid none done =
      decodeFrom bs (valid + 1) none (Char.ofNat b.toNat :: done) := by
  simp only [decodeFrom, if_pos h]

theorem decodeFrom_lead {b : UInt8} {p : Pending} (h : ¬ b < 0x80) (hp : Pending.ofLead b = some p)
    (bs : Bytes) (valid : Nat) (done : List Char) :
    decodeFrom (b :: bs) valid none done = decodeFrom bs valid (some p) done := by
  simp only [decodeFrom, if_neg h, hp]

/-- The last byte of a character. -/
theorem decodeFrom_last {p : Pending} {b : UInt8} (hr : p.low ≤ b ∧ b ≤ p.high) (hn : p.need = 1)
    (bs : Bytes) (valid : Nat) (done : List Char) :
    decodeFrom (b :: bs) valid (some p) done =
      decodeFrom bs (valid + p.seen + 1) none
        (Char.ofNat (p.value * 64 + b.toNat % 64) :: done) := by
  simp only [decodeFrom, if_pos hr, if_pos hn]

theorem decodeFrom_middle {p : Pending} {b : UInt8} (hr : p.low ≤ b ∧ b ≤ p.high)
    (hn : p.need ≠ 1) (bs : Bytes) (valid : Nat) (done : List Char) :
    decodeFrom (b :: bs) valid (some p) done =
      decodeFrom bs valid
        (some ⟨p.seen + 1, p.need - 1, 0x80, 0xbf, p.value * 64 + b.toNat % 64⟩) done := by
  simp only [decodeFrom, if_pos hr, if_neg hn]

theorem ofLead_two {n : Nat} (hl : 0xc2 ≤ n) (hu : n < 0xe0) :
    Pending.ofLead (UInt8.ofNat n) = some ⟨1, 1, 0x80, 0xbf, n % 32⟩ := by
  have hn := toNat_byte (show n < 256 by omega)
  simp only [Pending.ofLead, UInt8.lt_iff_toNat_lt, hn, UInt8.reduceToNat]
  rw [if_neg (by omega), if_pos hu]


/-- A lead of three bytes, with a second byte that is neither overlong nor of a surrogate. -/
theorem ofLead_three {n m : Nat} (hl : 0xe0 ≤ n) (hu : n < 0xf0) (hm : 0x80 ≤ m ∧ m < 0xc0)
    (ho : n = 0xe0 → 0xa0 ≤ m) (hs : n = 0xed → m < 0xa0) :
    ∃ p, Pending.ofLead (UInt8.ofNat n) = some p ∧ p.seen = 1 ∧ p.need = 2 ∧ p.value = n % 16 ∧
      p.low.toNat ≤ m ∧ m ≤ p.high.toNat := by
  have hn := toNat_byte (show n < 256 by omega)
  simp only [Pending.ofLead, UInt8.lt_iff_toNat_lt, ← UInt8.toNat_inj, hn, UInt8.reduceToNat]
  rw [if_neg (by omega), if_neg (by omega)]
  by_cases h0 : n = 0xe0
  · exact ⟨_, if_pos h0, rfl, rfl, by simp [h0], ho h0, by simp; omega⟩
  rw [if_neg h0]
  by_cases hd : n = 0xed
  · exact ⟨_, if_pos hd, rfl, rfl, by simp [hd], hm.1, by have := hs hd; simp; omega⟩
  rw [if_neg hd]
  exact ⟨_, if_pos hu, rfl, rfl, rfl, hm.1, by simp; omega⟩

/-- A lead of four bytes, with a second byte that is neither overlong nor above the last
character. -/
theorem ofLead_four {n m : Nat} (hl : 0xf0 ≤ n) (hu : n ≤ 0xf4) (hm : 0x80 ≤ m ∧ m < 0xc0)
    (ho : n = 0xf0 → 0x90 ≤ m) (ha : n = 0xf4 → m < 0x90) :
    ∃ p, Pending.ofLead (UInt8.ofNat n) = some p ∧ p.seen = 1 ∧ p.need = 3 ∧ p.value = n % 8 ∧
      p.low.toNat ≤ m ∧ m ≤ p.high.toNat := by
  have hn := toNat_byte (show n < 256 by omega)
  simp only [Pending.ofLead, UInt8.lt_iff_toNat_lt, ← UInt8.toNat_inj, hn, UInt8.reduceToNat]
  rw [if_neg (by omega), if_neg (by omega), if_neg (by omega), if_neg (by omega),
    if_neg (by omega)]
  by_cases h0 : n = 0xf0
  · exact ⟨_, if_pos h0, rfl, rfl, by simp [h0], ho h0, by simp; omega⟩
  rw [if_neg h0]
  by_cases h4 : n < 0xf4
  · exact ⟨_, if_pos h4, rfl, rfl, rfl, hm.1, by simp; omega⟩
  have h4 : n = 0xf4 := by omega
  refine ⟨⟨1, 3, 0x80, 0x8f, 4⟩, ?_, rfl, rfl, by simp [h4], hm.1, ?_⟩
  · rw [if_neg (by omega), if_pos h4]
  · have := ha h4
    simp
    omega

private theorem not_ascii {n : Nat} (h : 0x80 ≤ n ∧ n < 256) : ¬ UInt8.ofNat n < 0x80 := by
  simp only [UInt8.lt_iff_toNat_lt, toNat_byte h.2, UInt8.reduceToNat]
  omega

private theorem byte_range {low high : UInt8} {m : Nat} (hm : m < 256) (hl : low.toNat ≤ m)
    (hh : m ≤ high.toNat) : low ≤ UInt8.ofNat m ∧ UInt8.ofNat m ≤ high := by
  simp only [UInt8.le_iff_toNat_le, toNat_byte hm]
  exact ⟨hl, hh⟩

/-- A byte that continues a character and is not its second one. -/
private theorem trailing_range (v : Nat) :
    0x80 ≤ UInt8.ofNat (v % 64 + 0x80) ∧ UInt8.ofNat (v % 64 + 0x80) ≤ 0xbf :=
  byte_range (by omega) (by simp) (by simp; omega)

/-- The bytes of a character are read as that character. -/
theorem decodeFrom_utf8EncodeChar (c : Char) (bs : Bytes) (valid : Nat) (done : List Char) :
    decodeFrom (String.utf8EncodeChar c ++ bs) valid none done =
      decodeFrom bs (valid + (String.utf8EncodeChar c).length) none (c :: done) := by
  have hv : c.val.toNat < 0xd800 ∨ 0xdfff < c.val.toNat ∧ c.val.toNat < 0x110000 := c.valid
  have hc : Char.ofNat c.val.toNat = c := Char.ofNat_toNat c
  unfold String.utf8EncodeChar
  generalize c.val.toNat = v at hv hc
  dsimp only
  split
  · next h =>
    have hn := toNat_byte (show v < 256 by omega)
    have hb : UInt8.ofNat v < 0x80 := by
      simp only [UInt8.lt_iff_toNat_lt, hn, UInt8.reduceToNat]
      omega
    rw [List.cons_append, List.nil_append, decodeFrom_ascii hb, hn, hc]
    rfl
  split
  · next h1 h2 =>
    have hlead := not_ascii (n := v / 64 % 0x20 + 0xc0) (by omega)
    rw [List.cons_append, List.cons_append, List.nil_append,
      decodeFrom_lead hlead (ofLead_two (by omega) (by omega)),
      decodeFrom_last (trailing_range v) rfl, toNat_byte (by omega)]
    have he : (v / 64 % 0x20 + 0xc0) % 32 * 64 + (v % 64 + 0x80) % 64 = v := by omega
    rw [he, hc]
    rfl
  split
  · next h1 h2 h3 =>
    have hlead := not_ascii (n := v / 4096 % 0x10 + 0xe0) (by omega)
    obtain ⟨p, hp, hseen, hneed, hval, hlow, hhigh⟩ :=
      ofLead_three (n := v / 4096 % 0x10 + 0xe0) (m := v / 64 % 64 + 0x80)
        (by omega) (by omega) (by omega) (by omega) (by omega)
    simp only [List.cons_append, List.nil_append]
    rw [decodeFrom_lead hlead hp,
      decodeFrom_middle (byte_range (by omega) hlow hhigh) (by omega),
      decodeFrom_last (trailing_range v) (by simp [hneed]), toNat_byte (by omega),
      toNat_byte (by omega), hval, hseen]
    have he : ((v / 4096 % 0x10 + 0xe0) % 16 * 64 + (v / 64 % 64 + 0x80) % 64) * 64 +
        (v % 64 + 0x80) % 64 = v := by omega
    rw [he, hc]
    rfl
  · next h1 h2 h3 =>
    have hlead := not_ascii (n := v / 262144 % 0x08 + 0xf0) (by omega)
    obtain ⟨p, hp, hseen, hneed, hval, hlow, hhigh⟩ :=
      ofLead_four (n := v / 262144 % 0x08 + 0xf0) (m := v / 4096 % 64 + 0x80)
        (by omega) (by omega) (by omega) (by omega) (by omega)
    simp only [List.cons_append, List.nil_append]
    rw [decodeFrom_lead hlead hp,
      decodeFrom_middle (byte_range (by omega) hlow hhigh) (by omega),
      decodeFrom_middle (trailing_range _) (by simp [hneed]),
      decodeFrom_last (trailing_range v) (by simp [hneed]), toNat_byte (by omega),
      toNat_byte (by omega), toNat_byte (by omega), hval, hseen]
    have he : (((v / 262144 % 0x08 + 0xf0) % 8 * 64 + (v / 4096 % 64 + 0x80) % 64) * 64 +
        (v / 64 % 64 + 0x80) % 64) * 64 + (v % 64 + 0x80) % 64 = v := by omega
    rw [he, hc]
    rfl

theorem decodeFrom_encode (text : List Char) (valid : Nat) (done : List Char) :
    decodeFrom (encode text) valid none done = .ok (done.reverse ++ text) := by
  induction text generalizing valid done with
  | nil => simp [encode, decodeFrom]
  | cons c text ih =>
    have hc := decodeFrom_utf8EncodeChar c (encode text) valid done
    rw [ih] at hc
    simpa [encode] using hc

/-- Text is read back from its bytes. -/
@[simp] theorem toText_ofString (s : String) : toText (ofString s) = .ok s := by
  simp [toText, decode, ofString, decodeFrom_encode, Except.map]

theorem toNat_ofNat {n : Nat} (h : n < 0xd800 ∨ 0xdfff < n ∧ n < 0x110000) :
    (Char.ofNat n).val.toNat = n := by
  have hv : n.isValidChar := h
  rw [Char.ofNat, dif_pos hv]
  rfl

theorem utf8EncodeChar_one {a : UInt8} (h : a < 0x80) :
    String.utf8EncodeChar (Char.ofNat a.toNat) = [a] := by
  have ha : a.toNat < 128 := by simpa [UInt8.lt_iff_toNat_lt] using h
  rw [String.utf8EncodeChar, toNat_ofNat (by omega)]
  simp only [if_pos (show a.toNat ≤ 127 by omega), UInt8.ofNat_toNat]

private theorem ofNat_byte {a : UInt8} {n : Nat} (h : n = a.toNat) : UInt8.ofNat n = a := by
  rw [h, UInt8.ofNat_toNat]

theorem utf8EncodeChar_two {a b : UInt8} (ha : 0xc2 ≤ a.toNat ∧ a.toNat < 0xe0)
    (hb : 0x80 ≤ b.toNat ∧ b.toNat ≤ 0xbf) :
    String.utf8EncodeChar (Char.ofNat (a.toNat % 32 * 64 + b.toNat % 64)) = [a, b] := by
  rw [String.utf8EncodeChar, toNat_ofNat (by omega)]
  rw [if_neg (by omega), if_pos (by omega), ofNat_byte (a := a) (by omega),
    ofNat_byte (a := b) (by omega)]

theorem utf8EncodeChar_three {a b c : UInt8} (ha : 0xe0 ≤ a.toNat ∧ a.toNat < 0xf0)
    (hb : 0x80 ≤ b.toNat ∧ b.toNat ≤ 0xbf) (hc : 0x80 ≤ c.toNat ∧ c.toNat ≤ 0xbf)
    (ho : a.toNat = 0xe0 → 0xa0 ≤ b.toNat) (hs : a.toNat = 0xed → b.toNat < 0xa0) :
    String.utf8EncodeChar
      (Char.ofNat ((a.toNat % 16 * 64 + b.toNat % 64) * 64 + c.toNat % 64)) = [a, b, c] := by
  rw [String.utf8EncodeChar, toNat_ofNat (by omega)]
  rw [if_neg (by omega), if_neg (by omega), if_pos (by omega), ofNat_byte (a := a) (by omega),
    ofNat_byte (a := b) (by omega), ofNat_byte (a := c) (by omega)]

theorem utf8EncodeChar_four {a b c d : UInt8} (ha : 0xf0 ≤ a.toNat ∧ a.toNat ≤ 0xf4)
    (hb : 0x80 ≤ b.toNat ∧ b.toNat ≤ 0xbf) (hc : 0x80 ≤ c.toNat ∧ c.toNat ≤ 0xbf)
    (hd : 0x80 ≤ d.toNat ∧ d.toNat ≤ 0xbf)
    (ho : a.toNat = 0xf0 → 0x90 ≤ b.toNat) (hl : a.toNat = 0xf4 → b.toNat < 0x90) :
    String.utf8EncodeChar (Char.ofNat
      (((a.toNat % 8 * 64 + b.toNat % 64) * 64 + c.toNat % 64) * 64 + d.toNat % 64)) =
      [a, b, c, d] := by
  rw [String.utf8EncodeChar, toNat_ofNat (by omega)]
  rw [if_neg (by omega), if_neg (by omega), if_neg (by omega), ofNat_byte (a := a) (by omega),
    ofNat_byte (a := b) (by omega), ofNat_byte (a := c) (by omega), ofNat_byte (a := d) (by omega)]

/-- Bytes that finish a character under way, and the character. -/
inductive Completes : Pending → Bytes → Char → Prop
  | last {p : Pending} {b : UInt8} : p.low ≤ b ∧ b ≤ p.high → p.need = 1 →
      Completes p [b] (Char.ofNat (p.value * 64 + b.toNat % 64))
  | middle {p : Pending} {b : UInt8} {tail : Bytes} {c : Char} : p.low ≤ b ∧ b ≤ p.high →
      p.need ≠ 1 →
      Completes ⟨p.seen + 1, p.need - 1, 0x80, 0xbf, p.value * 64 + b.toNat % 64⟩ tail c →
      Completes p (b :: tail) c

/-- What is read after the first byte of a character finishes it. -/
theorem completes_of_decodeFrom {bs : Bytes} {valid : Nat} {p : Pending} {done text : List Char}
    (h : decodeFrom bs valid (some p) done = .ok text) :
    ∃ tail c rest valid', bs = tail ++ rest ∧ Completes p tail c ∧
      decodeFrom rest valid' none (c :: done) = .ok text := by
  induction bs generalizing valid p with
  | nil => simp [decodeFrom] at h
  | cons b bs ih =>
    by_cases hr : p.low ≤ b ∧ b ≤ p.high
    · by_cases hn : p.need = 1
      · rw [decodeFrom_last hr hn] at h
        exact ⟨[b], _, bs, _, rfl, .last hr hn, h⟩
      · rw [decodeFrom_middle hr hn] at h
        obtain ⟨tail, c, rest, valid', rfl, hc, hd⟩ := ih h
        exact ⟨b :: tail, c, rest, valid', rfl, .middle hr hn hc, hd⟩
    · simp only [decodeFrom, if_neg hr] at h
      cases h

section completes
variable {p : Pending} {tail : Bytes} {c : Char} (h : Completes p tail c)
include h

theorem Completes.one (hn : p.need = 1) : ∃ b, (p.low ≤ b ∧ b ≤ p.high) ∧ tail = [b] ∧
    c = Char.ofNat (p.value * 64 + b.toNat % 64) := by
  cases h with
  | last hr _ => exact ⟨_, hr, rfl, rfl⟩
  | middle _ hne _ => exact absurd hn hne

theorem Completes.more (hn : p.need ≠ 1) : ∃ b bs, (p.low ≤ b ∧ b ≤ p.high) ∧ tail = b :: bs ∧
    Completes ⟨p.seen + 1, p.need - 1, 0x80, 0xbf, p.value * 64 + b.toNat % 64⟩ bs c := by
  cases h with
  | last _ he => exact absurd he hn
  | middle hr _ hc => exact ⟨_, _, hr, rfl, hc⟩

end completes

/-- What a first byte above the ASCII range says about the second one. -/
theorem ofLead_cases {a : UInt8} {p : Pending} (h : Pending.ofLead a = some p) :
    (p.need = 1 ∧ p.value = a.toNat % 32 ∧ (0xc2 ≤ a.toNat ∧ a.toNat < 0xe0) ∧
      p.low = 0x80 ∧ p.high = 0xbf) ∨
    (p.need = 2 ∧ p.value = a.toNat % 16 ∧ (0xe0 ≤ a.toNat ∧ a.toNat < 0xf0) ∧
      ∀ b, p.low ≤ b ∧ b ≤ p.high → (0x80 ≤ b.toNat ∧ b.toNat ≤ 0xbf) ∧
        (a.toNat = 0xe0 → 0xa0 ≤ b.toNat) ∧ (a.toNat = 0xed → b.toNat < 0xa0)) ∨
    (p.need = 3 ∧ p.value = a.toNat % 8 ∧ (0xf0 ≤ a.toNat ∧ a.toNat ≤ 0xf4) ∧
      ∀ b, p.low ≤ b ∧ b ≤ p.high → (0x80 ≤ b.toNat ∧ b.toNat ≤ 0xbf) ∧
        (a.toNat = 0xf0 → 0x90 ≤ b.toNat) ∧ (a.toNat = 0xf4 → b.toNat < 0x90)) := by
  simp only [Pending.ofLead, UInt8.lt_iff_toNat_lt, ← UInt8.toNat_inj, UInt8.reduceToNat] at h
  split_ifs at h <;> cases h <;>
    simp only [UInt8.le_iff_toNat_le, UInt8.reduceToNat] <;> grind

/-- A first byte and what finishes its character are the bytes of the character. -/
theorem utf8EncodeChar_of_completes {a : UInt8} {p : Pending} {tail : Bytes} {c : Char}
    (hp : Pending.ofLead a = some p) (h : Completes p tail c) :
    String.utf8EncodeChar c = a :: tail := by
  have hrest : ∀ b : UInt8, 0x80 ≤ b ∧ b ≤ 0xbf → 0x80 ≤ b.toNat ∧ b.toNat ≤ 0xbf := by
    intro b hb
    simpa [UInt8.le_iff_toNat_le] using hb
  rcases ofLead_cases hp with ⟨hn, hv, hr, hl, hh⟩ | ⟨hn, hv, hr, hb⟩ | ⟨hn, hv, hr, hb⟩
  · obtain ⟨b, hrb, rfl, rfl⟩ := h.one hn
    rw [hl, hh] at hrb
    rw [hv, utf8EncodeChar_two hr (hrest b hrb)]
  · obtain ⟨b, _, hrb, rfl, hlast⟩ := h.more (by omega)
    obtain ⟨d, hrd, rfl, rfl⟩ := hlast.one (by simp [hn])
    obtain ⟨hcont, ho, hs⟩ := hb b hrb
    rw [hv, utf8EncodeChar_three hr hcont (hrest d hrd) ho hs]
  · obtain ⟨b, _, hrb, rfl, hthird⟩ := h.more (by omega)
    obtain ⟨d, _, hrd, rfl, hlast⟩ := hthird.more (by simp [hn])
    obtain ⟨e, hre, rfl, rfl⟩ := hlast.one (by simp [hn])
    obtain ⟨hcont, ho, hl⟩ := hb b hrb
    rw [hv, utf8EncodeChar_four hr hcont (hrest d hrd) (hrest e hre) ho hl]

/-- The bytes that are read as characters are the bytes of these characters. -/
theorem encode_of_decodeFrom (bs : Bytes) (valid : Nat) (done text : List Char)
    (h : decodeFrom bs valid none done = .ok text) :
    ∃ cs, text = done.reverse ++ cs ∧ encode cs = bs := by
  match bs with
  | [] =>
    simp only [decodeFrom, Except.ok.injEq] at h
    exact ⟨[], by simp [h], rfl⟩
  | a :: bs =>
    by_cases ha : a < 0x80
    · rw [decodeFrom_ascii ha] at h
      obtain ⟨cs, rfl, rfl⟩ := encode_of_decodeFrom bs _ _ _ h
      exact ⟨Char.ofNat a.toNat :: cs, by simp, by simp [encode, utf8EncodeChar_one ha]⟩
    · rcases hp : Pending.ofLead a with _ | p
      · simp [decodeFrom, if_neg ha, hp] at h
      · rw [decodeFrom_lead ha hp] at h
        obtain ⟨tail, c, rest, valid', rfl, hc, hd⟩ := completes_of_decodeFrom h
        obtain ⟨cs, rfl, rfl⟩ := encode_of_decodeFrom rest _ _ _ hd
        exact ⟨c :: cs, by simp, by simp [encode, utf8EncodeChar_of_completes hp hc]⟩
termination_by bs.length

theorem ofString_of_toText {bs : Bytes} {s : String} (h : toText bs = .ok s) : ofString s = bs := by
  rcases hd : decode bs with fault | text
  · simp [toText, hd, Except.map] at h
  · obtain ⟨cs, rfl, rfl⟩ := encode_of_decodeFrom bs 0 [] text hd
    simp only [toText, hd, Except.map, Except.ok.injEq] at h
    simp [← h, ofString]

/-- The bytes of texts are those that the standard library takes for UTF-8. -/
theorem isValidUTF8_iff {bs : Bytes} :
    bs.toByteArray.IsValidUTF8 ↔ ∃ s, ofString s = bs := by
  constructor
  · rintro ⟨text, h⟩
    refine ⟨String.ofList text, ?_⟩
    have hdata := congrArg (fun array : ByteArray => array.data.toList) h
    simpa [ofString, encode, List.utf8Encode] using hdata.symm
  · rintro ⟨s, rfl⟩
    exact ⟨s.toList, rfl⟩

end ObjectGraph.Utf8
