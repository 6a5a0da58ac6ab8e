import ObjectGraph.Json.Number
import ObjectGraph.Proofs.Text.Utf8

/-! The words of a JSON document survive their writing: text (`string_writeString`), in whatever way
it is spelled (`string_spelled`), and whole numbers (`number_writeInt`), in front of whatever ends
them. -/
namespace ObjectGraph.Json

theorem skipBlanks_cons {b : UInt8} (h : isBlank b = false) (bs : Bytes) :
    skipBlanks (b :: bs) = b :: bs := by
  simp [skipBlanks, h]

def Blanks (ws : Bytes) : Prop := ∀ b ∈ ws, isBlank b = true

theorem blanks_of_all {ws : Bytes} (h : ws.all isBlank = true) : Blanks ws :=
  List.all_eq_true.1 h

theorem Blanks.nil : Blanks [] := nofun

theorem Blanks.append {ws vs : Bytes} (h : Blanks ws) (h' : Blanks vs) : Blanks (ws ++ vs) := by
  intro b hb
  rcases List.mem_append.1 hb with hb | hb
  · exact h b hb
  · exact h' b hb

theorem skipBlanks_append {ws : Bytes} (h : Blanks ws) (bs : Bytes) :
    skipBlanks (ws ++ bs) = skipBlanks bs :=
  List.dropWhile_append_of_pos h

theorem skipBlanks_blanks {ws : Bytes} (h : Blanks ws) : skipBlanks ws = [] := by
  have hskip := skipBlanks_append h []
  rwa [List.append_nil] at hskip

section Text

/-- The two digits of a control byte. -/
theorem hexQuad_control : ∀ n < 0x20, ∃ high low,
    Utf8.encode (Hex.padded 2 n) = [high, low] ∧ hexValue? high = some (n / 16) ∧
      hexValue? low = some (n % 16) := by
  have hdigits : ∀ n < 0x20, (Utf8.encode (Hex.padded 2 n)).map hexValue? =
      [some (n / 16), some (n % 16)] := by decide
  intro n hn
  have hmap := hdigits n hn
  rw [List.map_eq_cons_iff] at hmap
  obtain ⟨high, lows, he, hhigh, hlow⟩ := hmap
  rw [List.map_eq_singleton_iff] at hlow
  obtain ⟨low, rfl, hlow⟩ := hlow
  exact ⟨high, low, he, hhigh, hlow⟩

/-- A control byte is read from its escape. -/
theorem hexQuad_written {b : UInt8} (h : b < 0x20) (rest : Bytes) :
    hexQuad (0x30 :: 0x30 :: (Utf8.encode (Hex.padded 2 b.toNat) ++ rest)) = .ok (b.toNat, rest) := by
  obtain ⟨high, low, he, hhigh, hlow⟩ := hexQuad_control b.toNat h
  have hzero : hexValue? 0x30 = some 0 := rfl
  rw [he]
  simp only [List.cons_append, List.nil_append, hexQuad, hzero, hhigh, hlow]
  congr 2
  omega

theorem exists_fuel {n fuel : Nat} (h : n < fuel) : ∃ f, fuel = f + 1 ∧ n ≤ f :=
  ⟨fuel - 1, by omega, by omega⟩

/-- What a letter after a backslash stands for. -/
inductive Escape : UInt8 → UInt8 → Prop
  | quote : Escape 0x22 0x22
  | backslash : Escape 0x5c 0x5c
  | slash : Escape 0x2f 0x2f
  | backspace : Escape 0x62 0x08
  | formFeed : Escape 0x66 0x0c
  | lineFeed : Escape 0x6e 0x0a
  | carriageReturn : Escape 0x72 0x0d
  | tabulator : Escape 0x74 0x09

inductive Quad : Bytes → Nat → Prop
  | mk {a b c d : UInt8} {i j k m : Nat} : hexValue? a = some i → hexValue? b = some j →
      hexValue? c = some k → hexValue? d = some m →
      Quad [a, b, c, d] (((i * 16 + j) * 16 + k) * 16 + m)

/-- The bytes between two quotes are a way to write the data: each byte as it is or behind a
backslash, each character by its number or those of its two surrogates. -/
inductive Spells : (text data : Bytes) → Prop
  | nil : Spells [] []
  | plain {b : UInt8} {text data : Bytes} : 0x20 ≤ b → b ≠ 0x22 → b ≠ 0x5c → Spells text data →
      Spells (b :: text) (b :: data)
  | letter {l b : UInt8} {text data : Bytes} : Escape l b → Spells text data →
      Spells (0x5c :: l :: text) (b :: data)
  | number {digits text data : Bytes} (c : Char) : Quad digits c.toNat → Spells text data →
      Spells (0x5c :: 0x75 :: (digits ++ text)) (String.utf8EncodeChar c ++ data)
  | surrogates {high low text data : Bytes} (c : Char) : 0x10000 ≤ c.toNat →
      Quad high (0xd800 + (c.toNat - 0x10000) / 0x400) →
      Quad low (0xdc00 + (c.toNat - 0x10000) % 0x400) → Spells text data →
      Spells (0x5c :: 0x75 :: (high ++ 0x5c :: 0x75 :: (low ++ text)))
        (String.utf8EncodeChar c ++ data)

theorem Quad.read {digits : Bytes} {n : Nat} (h : Quad digits n) (rest : Bytes) :
    hexQuad (digits ++ rest) = .ok (n, rest) := by
  cases h with
  | mk ha hb hc hd => simp only [List.cons_append, List.nil_append, hexQuad, ha, hb, hc, hd]

theorem utf8Char_toNat (c : Char) : utf8Char c.toNat = String.utf8EncodeChar c := by
  rw [utf8Char, Char.ofNat_toNat]

/-- The number of a character is not that of a surrogate. -/
theorem not_surrogate (c : Char) :
    isLowSurrogate c.toNat = false ∧ isHighSurrogate c.toNat = false := by
  have hc := c.valid
  simp only [UInt32.isValidChar, Nat.isValidChar] at hc
  have hn : c.toNat = c.val.toNat := rfl
  constructor <;> simp only [isLowSurrogate, isHighSurrogate, decide_eq_false_iff_not] <;> omega

theorem escape_number {digits : Bytes} (c : Char) (h : Quad digits c.toNat) (rest : Bytes) :
    escape (0x75 :: (digits ++ rest)) = .ok (String.utf8EncodeChar c, rest) := by
  obtain ⟨hlow, hhigh⟩ := not_surrogate c
  simp only [escape, if_true, unicodeEscape, h.read, bind, Except.bind, hlow, hhigh,
    Bool.false_eq_true, if_false, utf8Char_toNat]

theorem escape_surrogates {high low : Bytes} (c : Char) (hc : 0x10000 ≤ c.toNat)
    (hh : Quad high (0xd800 + (c.toNat - 0x10000) / 0x400))
    (hl : Quad low (0xdc00 + (c.toNat - 0x10000) % 0x400)) (rest : Bytes) :
    escape (0x75 :: (high ++ 0x5c :: 0x75 :: (low ++ rest))) =
      .ok (String.utf8EncodeChar c, rest) := by
  have hbound : c.toNat < 0x110000 := by
    have hvalid := c.valid
    simp only [UInt32.isValidChar, Nat.isValidChar] at hvalid
    have hn : c.toNat = c.val.toNat := rfl
    omega
  have hhigh : isLowSurrogate (0xd800 + (c.toNat - 0x10000) / 0x400) = false ∧
      isHighSurrogate (0xd800 + (c.toNat - 0x10000) / 0x400) = true := by
    simp only [isLowSurrogate, isHighSurrogate, decide_eq_false_iff_not, decide_eq_true_eq]
    omega
  have hlow : isLowSurrogate (0xdc00 + (c.toNat - 0x10000) % 0x400) = true := by
    simp only [isLowSurrogate, decide_eq_true_eq]
    omega
  have hword : keyword [0x5c, 0x75] (0x5c :: 0x75 :: (low ++ rest)) = .ok (low ++ rest) := rfl
  have hsum : (0xd800 + (c.toNat - 0x10000) / 0x400 - 0xd800) * 0x400 +
      (0xdc00 + (c.toNat - 0x10000) % 0x400 - 0xdc00) + 0x10000 = c.toNat := by
    omega
  simp only [escape, if_true, unicodeEscape, hh.read, hl.read, hword, bind, Except.bind, hhigh.1,
    hhigh.2, hlow, Bool.false_eq_true, if_false, hsum, utf8Char_toNat]

theorem Escape.read {l b : UInt8} (h : Escape l b) (rest : Bytes) :
    escape (l :: rest) = .ok ([b], rest) := by
  cases h <;> rfl

theorem stringBytes_escape {fuel : Nat} {bs rest written done : Bytes}
    (h : escape bs = .ok (written, rest)) :
    stringBytes escape (fuel + 1) (0x5c :: bs) done =
      stringBytes escape fuel rest (written.reverse ++ done) := by
  rw [stringBytes, if_neg (by decide), if_pos rfl, h]

/-- Text is read from any way to write it. -/
theorem stringBytes_spelled {text data : Bytes} (h : Spells text data) {fuel : Nat}
    (hf : text.length < fuel) (rest done : Bytes) :
    stringBytes escape fuel (text ++ 0x22 :: rest) done = .ok (done.reverse ++ data, rest) := by
  induction h generalizing fuel done with
  | nil =>
    obtain ⟨fuel, rfl, -⟩ := exists_fuel hf
    simp [stringBytes]
  | @plain b text data hb hq hs _ ih =>
    obtain ⟨fuel, rfl, hf⟩ := exists_fuel hf
    have hcontrol : ¬ b < 0x20 := UInt8.not_lt.2 hb
    rw [List.cons_append, stringBytes, if_neg hq, if_neg hs, if_neg hcontrol,
      ih (by simpa using hf), List.reverse_cons, List.append_assoc, List.singleton_append]
  | letter hl _ ih =>
    obtain ⟨fuel, rfl, hf⟩ := exists_fuel hf
    rw [List.cons_append, List.cons_append, stringBytes_escape (hl.read _),
      ih (by simp only [List.length_cons] at hf; omega)]
    simp
  | number c hq _ ih =>
    obtain ⟨fuel, rfl, hf⟩ := exists_fuel hf
    simp only [List.length_cons, List.length_append] at hf
    rw [List.cons_append, List.cons_append, List.append_assoc,
      stringBytes_escape (escape_number c hq _), ih (by omega)]
    simp
  | surrogates c hc hh hl _ ih =>
    obtain ⟨fuel, rfl, hf⟩ := exists_fuel hf
    simp only [List.length_cons, List.length_append] at hf
    simp only [List.cons_append, List.append_assoc]
    rw [stringBytes_escape (escape_surrogates c hc hh hl _), ih (by omega)]
    simp

theorem string_spelled {text : Bytes} {s : String} (h : Spells text (Utf8.ofString s))
    (rest : Bytes) : string (text ++ 0x22 :: rest) = .ok (s, rest) := by
  unfold string
  rw [stringBytes_spelled h (by simp only [List.length_append, List.length_cons]; omega)]
  simp [bind, Except.bind]

theorem Spells.append {text text' data data' : Bytes} (h : Spells text data)
    (h' : Spells text' data') : Spells (text ++ text') (data ++ data') := by
  induction h with
  | nil => exact h'
  | plain hb hq hs _ ih => exact .plain hb hq hs ih
  | letter hl _ ih => exact .letter hl ih
  | number c hq _ ih =>
    rw [List.cons_append, List.cons_append, List.append_assoc, List.append_assoc]
    exact .number c hq ih
  | surrogates c hc hh hl _ ih =>
    simp only [List.cons_append, List.append_assoc]
    exact .surrogates c hc hh hl ih

theorem spells_control {b : UInt8} (h : b < 0x20) :
    Spells ([0x5c, 0x75, 0x30, 0x30] ++ Utf8.encode (Hex.padded 2 b.toNat)) [b] := by
  have hb : b.toNat < 0x20 := h
  obtain ⟨high, low, he, hhigh, hlow⟩ := hexQuad_control b.toNat hb
  have hnat : (Char.ofNat b.toNat).toNat = b.toNat := Utf8.toNat_ofNat (by omega)
  have hquad : Quad [0x30, 0x30, high, low] (Char.ofNat b.toNat).toNat := by
    have hzero : hexValue? 0x30 = some 0 := rfl
    have hsum : ((0 * 16 + 0) * 16 + b.toNat / 16) * 16 + b.toNat % 16 = b.toNat := by omega
    have hdigits := Quad.mk hzero hzero hhigh hlow
    rwa [hsum, ← hnat] at hdigits
  have hspells := Spells.number (Char.ofNat b.toNat) hquad .nil
  rw [Utf8.utf8EncodeChar_one (UInt8.lt_trans h (by decide))] at hspells
  rw [he]
  exact hspells

theorem spells_writeByte (b : UInt8) : Spells (writeByte b) [b] := by
  unfold writeByte
  split
  · next h =>
    rcases h with rfl | rfl
    · exact .letter .quote .nil
    · exact .letter .backslash .nil
  split
  · next h => exact h ▸ .letter .backspace .nil
  split
  · next h => exact h ▸ .letter .formFeed .nil
  split
  · next h => exact h ▸ .letter .lineFeed .nil
  split
  · next h => exact h ▸ .letter .carriageReturn .nil
  split
  · next h => exact h ▸ .letter .tabulator .nil
  split
  · next hc => exact spells_control hc
  · next hq _ _ _ _ _ hc =>
    rw [not_or] at hq
    exact .plain (UInt8.not_lt.1 hc) hq.1 hq.2 .nil

theorem spells_written (data : Bytes) : Spells (data.flatMap writeByte) data := by
  induction data with
  | nil => exact .nil
  | cons b data ih => exact (spells_writeByte b).append ih

theorem writeByte_ne_nil (b : UInt8) : writeByte b ≠ [] := by
  unfold writeByte
  repeat' split
  all_goals simp

theorem length_le_flatMap_writeByte (data : Bytes) :
    data.length ≤ (data.flatMap writeByte).length := by
  induction data with
  | nil => simp
  | cons b data ih =>
    have hb := List.length_pos_iff.2 (writeByte_ne_nil b)
    simp only [List.flatMap_cons, List.length_cons, List.length_append]
    omega

theorem writeString_append (s : String) (rest : Bytes) :
    writeString s ++ rest = 0x22 :: ((Utf8.ofString s).flatMap writeByte ++ 0x22 :: rest) := by
  simp [writeString]

/-- Text is read back from its string. -/
theorem string_writeString (s : String) (rest : Bytes) :
    string ((Utf8.ofString s).flatMap writeByte ++ 0x22 :: rest) = .ok (s, rest) :=
  string_spelled (spells_written (Utf8.ofString s)) rest

end Text

section Numbers

/-- The bytes after a number that do not belong to it. -/
def Ends : Bytes → Prop
  | [] => True
  | b :: _ => digit? b = none ∧ isDoubleMark b = false

theorem startsWithDigit_of_ends {rest : Bytes} (h : Ends rest) : startsWithDigit rest = false := by
  cases rest with
  | nil => rfl
  | cons b rest => simp [startsWithDigit, h.1]

theorem Blanks.ends {ws rest : Bytes} (h : Blanks ws) (hr : Ends rest) : Ends (ws ++ rest) := by
  cases ws with
  | nil => exact hr
  | cons b ws =>
    have hb : isBlank b = true := h b List.mem_cons_self
    simp only [isBlank, decide_eq_true_eq] at hb
    rcases hb with rfl | rfl | rfl | rfl <;> exact ⟨rfl, rfl⟩

theorem utf8EncodeChar_digitChar :
    ∀ d < 10, String.utf8EncodeChar (Nat.digitChar d) = [UInt8.ofNat (48 + d)] := by
  decide

theorem digit?_ofNat : ∀ d < 10, digit? (UInt8.ofNat (48 + d)) = some d := by
  decide

/-- The decimal digits of a number, the last one apart. -/
theorem encode_toDigits (n : Nat) :
    Utf8.encode (Nat.toDigits 10 n) =
      (if n < 10 then [] else Utf8.encode (Nat.toDigits 10 (n / 10))) ++
        [UInt8.ofNat (48 + n % 10)] := by
  rw [Nat.toDigits_eq_if (by omega)]
  split
  · next h =>
    rw [Nat.mod_eq_of_lt h, ← utf8EncodeChar_digitChar n h]
    simp [Utf8.encode]
  · rw [← utf8EncodeChar_digitChar (n % 10) (Nat.mod_lt _ (by omega))]
    simp [Utf8.encode]

theorem appendDigits_digit {bound n d : Nat} (hd : d < 10) (h : 10 * n + d < bound) (taken : Nat)
    (rest : Bytes) :
    appendDigits bound n taken (UInt8.ofNat (48 + d) :: rest) =
      appendDigits bound (10 * n + d) (taken + 1) rest := by
  rw [appendDigits, digit?_ofNat d hd]
  simp only [if_pos h]

/-- The digits of a number below the bound are all taken. -/
theorem appendDigits_toDigits {bound n : Nat} (h : n < bound) :
    ∃ taken, ∀ rest, appendDigits bound 0 0 (Utf8.encode (Nat.toDigits 10 n) ++ rest) =
      appendDigits bound n taken rest := by
  induction n using Nat.strongRecOn with
  | ind n ih =>
    rw [encode_toDigits]
    by_cases hn : n < 10
    · use 1
      intro rest
      rw [if_pos hn, List.nil_append, List.singleton_append, Nat.mod_eq_of_lt hn,
        appendDigits_digit hn (by omega), Nat.mul_zero, Nat.zero_add]
    · obtain ⟨taken, htaken⟩ := ih (n / 10) (by omega) (by omega)
      use taken + 1
      intro rest
      rw [if_neg hn, List.append_assoc, List.singleton_append, htaken,
        appendDigits_digit (Nat.mod_lt _ (by omega)) (by omega), Nat.div_add_mod]

theorem appendDigits_of_ends {rest : Bytes} (h : Ends rest) (bound n taken : Nat) :
    appendDigits bound n taken rest = (n, taken, rest) := by
  cases rest with
  | nil => rfl
  | cons b rest => rw [appendDigits, h.1]

/-- A number other than zero is not written with a zero in front. -/
theorem encode_toDigits_cons {n : Nat} (h : n ≠ 0) :
    ∃ d rest, d < 10 ∧ d ≠ 0 ∧ Utf8.encode (Nat.toDigits 10 n) = UInt8.ofNat (48 + d) :: rest := by
  induction n using Nat.strongRecOn with
  | ind n ih =>
    rw [encode_toDigits]
    by_cases hn : n < 10
    · exact ⟨n, [], hn, h, by rw [if_pos hn, Nat.mod_eq_of_lt hn]; rfl⟩
    · obtain ⟨d, rest, hd, hz, he⟩ := ih (n / 10) (by omega) (by omega)
      exact ⟨d, rest ++ [UInt8.ofNat (48 + n % 10)], hd, hz, by rw [if_neg hn, he]; rfl⟩

theorem zero_ne_digit : ∀ d < 10, d ≠ 0 → UInt8.ofNat (48 + d) ≠ 0x30 := by
  decide

theorem unsignedNumber_toDigits {n : Nat} (h : n < 2 ^ 64) (negative : Bool) {rest : Bytes}
    (hr : Ends rest) :
    unsignedNumber negative (Utf8.encode (Nat.toDigits 10 n) ++ rest) =
      .ok (wholeNumber negative n, rest) := by
  have hafter : startsWithDigit rest = false := startsWithDigit_of_ends hr
  by_cases hz : n = 0
  · subst hz
    have he : Utf8.encode (Nat.toDigits 10 0) = [0x30] := by decide
    have hdigit : digit? 0x30 = some 0 := rfl
    rw [he, List.singleton_append]
    cases rest with
    | nil => simp [unsignedNumber, hdigit, startsWithDigit]
    | cons c rest => simp [unsignedNumber, hdigit, hafter, hr.2]
  · obtain ⟨taken, htaken⟩ := appendDigits_toDigits (show n < 0x10000000000000000 by omega)
    have happend := htaken rest
    obtain ⟨d, more, hd, hdz, he⟩ := encode_toDigits_cons hz
    have hdigit := digit?_ofNat d hd
    have hne := zero_ne_digit d hd hdz
    rw [appendDigits_of_ends hr, he, List.cons_append] at happend
    rw [he, List.cons_append]
    simp only [unsignedNumber, hdigit, hne, happend]
    cases rest with
    | nil => rfl
    | cons c rest => simp [hafter, hr.2]

theorem digit_ne_minus : ∀ d < 10, UInt8.ofNat (48 + d) ≠ 0x2d := by
  decide

/-- A whole number starts with a minus or a digit. -/
theorem writeInt_cons (n : Int) :
    ∃ b rest, writeInt n = b :: rest ∧ startsNumber b = true := by
  unfold writeInt
  split
  · exact ⟨0x2d, _, rfl, rfl⟩
  · by_cases hz : n.natAbs = 0
    · exact ⟨0x30, [], by rw [hz]; decide, rfl⟩
    · obtain ⟨d, rest, hd, -, he⟩ := encode_toDigits_cons hz
      have hdigit := digit?_ofNat d hd
      exact ⟨_, rest, he, decide_eq_true (.inr (by rw [hdigit]; rfl))⟩

/-- A whole number of 64 bits is read back from its text. -/
theorem number_writeInt {n : Int} (hl : -2 ^ 63 ≤ n) (hu : n < 2 ^ 64) {rest : Bytes}
    (hr : Ends rest) : number (writeInt n ++ rest) = .ok (.whole n, rest) := by
  unfold writeInt
  by_cases hn : n < 0
  · have hdigits := unsignedNumber_toDigits (n := n.natAbs) (by omega) true hr
    rw [if_pos hn, List.cons_append]
    have hwhole : wholeNumber true n.natAbs = .whole n := by
      have hrange : ¬ (n.natAbs = 0 ∨ 0x8000000000000000 < n.natAbs) := by omega
      simp only [wholeNumber, if_neg hrange]
      rw [Int.ofNat_natAbs_of_nonpos (by omega), neg_neg]
      rfl
    rw [← hwhole, ← hdigits]
    rfl
  · have hdigits := unsignedNumber_toDigits (n := n.natAbs) (by omega) false hr
    have hcast : ((n.natAbs : Nat) : Int) = n := Int.natAbs_of_nonneg (by omega)
    have hwhole : wholeNumber false n.natAbs = .whole n := by simp [wholeNumber, hcast]
    rw [if_neg hn, ← hwhole, ← hdigits]
    by_cases hz : n.natAbs = 0
    · rw [hz]
      rfl
    · obtain ⟨d, more, hd, -, he⟩ := encode_toDigits_cons hz
      rw [he, List.cons_append]
      simp only [number, if_neg (digit_ne_minus d hd)]

end Numbers
end ObjectGraph.Json
