import ObjectGraph.Proofs.Cbor.Grammar

/-! What the reader accepts: exactly the items, but for those that hold an integer below -2^63
(`decode_eq_ok_iff`). -/
namespace ObjectGraph.Cbor

theorem readItems_ok {item : Bytes → Except Error (Value × Bytes)} {D : Bytes → Value → Prop}
    (hi : ∀ {bs v rest}, item bs = .ok (v, rest) → ∃ front, bs = front ++ rest ∧ D front v)
    {n : Nat} {bs rest : Bytes} {done vs : List Value}
    (h : readItems item n bs done = .ok (vs, rest)) :
    ∃ parts items, vs = done.reverse ++ items ∧ bs = parts.flatten ++ rest ∧ items.length = n ∧
      List.Forall₂ D parts items := by
  induction n generalizing bs done with
  | zero =>
    simp only [readItems, Except.ok.injEq, Prod.mk.injEq] at h
    obtain ⟨rfl, rfl⟩ := h
    exact ⟨[], [], by simp, rfl, rfl, .nil⟩
  | succ n ih =>
    simp only [readItems] at h
    split at h
    · cases h
    next v tail hv =>
    obtain ⟨front, rfl, hd⟩ := hi hv
    obtain ⟨parts, items, rfl, rfl, rfl, hp⟩ := ih h
    exact ⟨front :: parts, v :: items, by simp, by simp, rfl, .cons hd hp⟩

theorem checkKey_ok {last : Option Bytes} {key : Bytes} (h : checkKey last key = .ok ()) :
    ∀ k ∈ last, k < key := by
  rintro k rfl
  simp only [checkKey] at h
  split_ifs at h with heq hlt
  grind

theorem readEntries_ok {item : Bytes → Except Error (Value × Bytes)}
    (hi : ∀ {bs v rest}, item bs = .ok (v, rest) → ∃ front, bs = front ++ rest ∧ Denotes front v)
    {n : Nat} {last : Option Bytes} {bs rest : Bytes} {done es : List (Value × Value)}
    (h : readEntries item n last bs done = .ok (es, rest)) :
    ∃ pairs entries, es = done.reverse ++ entries ∧
      bs = (pairs.map fun p => p.1 ++ p.2).flatten ++ rest ∧ entries.length = n ∧
      List.Forall₂ DenotesEntry pairs entries ∧
      (last.toList ++ pairs.map Prod.fst).IsChain (· < ·) := by
  induction n generalizing last bs done with
  | zero =>
    simp only [readEntries, Except.ok.injEq, Prod.mk.injEq] at h
    obtain ⟨rfl, rfl⟩ := h
    exact ⟨[], [], by simp, rfl, rfl, .nil, by cases last <;> simp⟩
  | succ n ih =>
    simp only [readEntries] at h
    split at h
    · cases h
    next k afterKey hk =>
    obtain ⟨key, rfl, hkey⟩ := hi hk
    rw [Bytes.before_append] at h
    split at h
    · cases h
    next hlast =>
    split at h
    · cases h
    next v tail hv =>
    obtain ⟨value, rfl, hvalue⟩ := hi hv
    obtain ⟨pairs, entries, rfl, rfl, rfl, hp, hchain⟩ := ih h
    refine ⟨(key, value) :: pairs, (k, v) :: entries, by simp, by simp, rfl,
      .cons ⟨hkey, hvalue⟩ hp, ?_⟩
    cases last with
    | none => exact hchain
    | some k => exact .cons_cons (checkKey_ok hlast k rfl) hchain

theorem readSimple_ok {info : Nat} {bs rest : Bytes} {v : Value}
    (h : readSimple info bs = .ok (v, rest)) :
    ∃ front, initialByte 7 info :: bs = front ++ rest ∧ Denotes front v := by
  have float {width : Nat} {F : FloatFormat} (hf : FloatForm info width F)
      (h : readFloat F width bs = .ok (v, rest)) :
      ∃ front, initialByte 7 info :: bs = front ++ rest ∧ Denotes front v := by
    obtain ⟨word, x, hw, rfl, rfl, hc⟩ := readFloat_ok h
    exact ⟨_, rfl, .float hf (hf.words ▸ hw) hc⟩
  unfold readSimple at h
  split at h
  · cases h; exact ⟨_, rfl, .bool false⟩
  · cases h; exact ⟨_, rfl, .bool true⟩
  · cases h; exact ⟨_, rfl, .null⟩
  · exact float .half h
  · exact float .single h
  · exact float .double h
  · cases h
  · cases h

/-- A byte with what follows it is a head, going by its major type and the argument it announces. -/
theorem cons_eq_head {b : UInt8} {major n : Nat} {bs rest : Bytes} (hm : b.toNat / 32 = major)
    (hh : ∀ major, initialByte major (b.toNat % 32) :: bs = head major n ++ rest) :
    b :: bs = head major n ++ rest := by
  subst hm
  rw [← hh, initialByte_toNat]

/-- What is read as an item is one. -/
theorem denotes_of_readItem {fuel : Nat} {bs rest : Bytes} {v : Value}
    (h : readItem fuel bs = .ok (v, rest)) : ∃ front, bs = front ++ rest ∧ Denotes front v := by
  induction fuel generalizing bs rest v with
  | zero => cases bs <;> simp [readItem] at h
  | succ fuel ih =>
    rcases bs with _ | ⟨b, bs⟩
    · simp [readItem] at h
    simp only [readItem] at h
    split at h
    next hmajor =>
      obtain ⟨⟨n, tail⟩, ha, h⟩ := bind_eq_ok.1 h
      cases h
      obtain ⟨hn, hh⟩ := head_of_argument ha
      refine ⟨_, ?_, .unsigned _⟩
      rw [UInt64.toNat_ofNat', Nat.mod_eq_of_lt hn, cons_eq_head hmajor hh]
    next hmajor =>
      obtain ⟨⟨n, tail⟩, ha, h⟩ := bind_eq_ok.1 h
      dsimp only at h
      split at h <;> cases h
      obtain ⟨hn, hh⟩ := head_of_argument ha
      refine ⟨_, ?_, .negative _⟩
      rw [UInt64.toNat_ofNat', Nat.mod_eq_of_lt hn, cons_eq_head hmajor hh]
    next hmajor =>
      obtain ⟨⟨n, tail⟩, hc, h⟩ := bind_eq_ok.1 h
      obtain ⟨⟨data, tail⟩, ht, h⟩ := bind_eq_ok.1 h
      cases h
      obtain ⟨hn, hh⟩ := head_of_count hc
      obtain ⟨rfl, rfl⟩ := take_ok ht
      exact ⟨_, by rw [List.append_assoc, cons_eq_head hmajor hh], .bytes hn⟩
    next hmajor =>
      obtain ⟨⟨n, tail⟩, hc, h⟩ := bind_eq_ok.1 h
      obtain ⟨⟨data, tail⟩, ht, htext⟩ := bind_eq_ok.1 h
      obtain ⟨hn, hh⟩ := head_of_count hc
      obtain ⟨rfl, rfl⟩ := take_ok ht
      dsimp only at htext
      rcases hs : Utf8.toText data with fault | s <;> rw [hs] at htext <;> cases htext
      obtain rfl := Utf8.ofString_of_toText hs
      exact ⟨_, by rw [List.append_assoc, cons_eq_head hmajor hh], .text hn⟩
    next hmajor =>
      obtain ⟨⟨n, tail⟩, hc, h⟩ := bind_eq_ok.1 h
      obtain ⟨⟨items, tail⟩, ht, h⟩ := bind_eq_ok.1 h
      cases h
      obtain ⟨hn, hh⟩ := head_of_count hc
      obtain ⟨parts, items, rfl, rfl, rfl, hp⟩ := readItems_ok ih ht
      exact ⟨_, by rw [List.append_assoc, cons_eq_head hmajor hh], .array hn hp⟩
    next hmajor =>
      obtain ⟨⟨n, tail⟩, hc, h⟩ := bind_eq_ok.1 h
      obtain ⟨⟨entries, tail⟩, ht, h⟩ := bind_eq_ok.1 h
      cases h
      obtain ⟨hn, hh⟩ := head_of_count hc
      obtain ⟨pairs, entries, rfl, rfl, rfl, hp, hs⟩ := readEntries_ok ih ht
      exact ⟨_, by rw [List.append_assoc, cons_eq_head hmajor hh], .map hn hp hs⟩
    next hmajor => cases h
    next h0 h1 h2 h3 h4 h5 h6 =>
      have hlt := b.toNat_lt
      simp only [imp_false] at h0 h1 h2 h3 h4 h5 h6
      have hmajor : b.toNat / 32 = 7 := by omega
      have hbyte := initialByte_toNat b
      rw [hmajor] at hbyte
      rw [← hbyte]
      exact readSimple_ok h

def Value.InRange (v : Value) : Prop := ∀ w, Occurs w v → ∀ n, w.toInt? = some n → -2 ^ 63 ≤ n

theorem inRange_array {items : List Value} :
    (Value.array items).InRange ↔ ∀ v ∈ items, v.InRange := by
  constructor
  · exact fun h v hv w hw => h w (.item hv hw)
  · intro h w hw n hn
    cases hw with
    | self => cases hn
    | item hv hw => exact h _ hv w hw n hn

theorem inRange_map {entries : List (Value × Value)} :
    (Value.map entries).InRange ↔ ∀ e ∈ entries, e.1.InRange ∧ e.2.InRange := by
  constructor
  · exact fun h e he => ⟨fun w hw => h w (.key he hw), fun w hw => h w (.value he hw)⟩
  · intro h w hw n hn
    cases hw with
    | self => cases hn
    | key he hw => exact (h _ he).1 w hw n hn
    | value he hw => exact (h _ he).2 w hw n hn

theorem inRange_negative {n : UInt64} : (Value.negative n).InRange ↔ n.toNat < 2 ^ 63 := by
  constructor
  · intro h
    have := h _ (.self _) _ rfl
    omega
  · intro h w hw m hm
    cases hw
    cases hm
    omega

/-- Reading takes these bytes, whatever follows, for this item. -/
def Reads (item : Bytes → Except Error (Value × Bytes)) (bs : Bytes) (v : Value) : Prop :=
  ∀ rest, item (bs ++ rest) = .ok (v, rest)

theorem readItems_flatten {item : Bytes → Except Error (Value × Bytes)} {parts : List Bytes}
    {vs : List Value} (h : List.Forall₂ (Reads item) parts vs) (rest : Bytes) (done : List Value) :
    readItems item parts.length (parts.flatten ++ rest) done = .ok (done.reverse ++ vs, rest) := by
  induction h generalizing done with
  | nil => simp [readItems]
  | @cons part v parts vs hp _ ih =>
    simp [readItems, hp (parts.flatten ++ rest), ih]

theorem checkKey_of_chain {last : Option Bytes} {key : Bytes} {keys : List Bytes}
    (h : (last.toList ++ key :: keys).IsChain (· < ·)) : checkKey last key = .ok () := by
  cases last with
  | none => rfl
  | some last =>
    have hlt : last < key := (List.isChain_cons_cons.1 h).1
    have hne : key ≠ last := by grind
    have hge : ¬ key < last := by grind
    simp [checkKey, hne, hge]

theorem readEntries_flatten {item : Bytes → Except Error (Value × Bytes)}
    {pairs : List (Bytes × Bytes)} {es : List (Value × Value)}
    (h : List.Forall₂ (fun p e => Reads item p.1 e.1 ∧ Reads item p.2 e.2) pairs es)
    (last : Option Bytes) (hs : (last.toList ++ pairs.map Prod.fst).IsChain (· < ·)) (rest : Bytes)
    (done : List (Value × Value)) :
    readEntries item pairs.length last ((pairs.map fun p => p.1 ++ p.2).flatten ++ rest) done =
      .ok (done.reverse ++ es, rest) := by
  induction h generalizing last done with
  | nil => simp [readEntries]
  | @cons p e pairs es hp _ ih =>
    have hchain : ((some p.1).toList ++ pairs.map Prod.fst).IsChain (· < ·) :=
      List.IsChain.right_of_append (by simpa using hs)
    simp only [List.length_cons, readEntries, List.map_cons, List.flatten_cons, List.append_assoc,
      hp.1 _, hp.2 _, Bytes.before_append, checkKey_of_chain hs, ih (some p.1) hchain]
    simp

/-- Reading takes these bytes for this item, but for an integer that is out of range. -/
structure Meets (item : Bytes → Except Error (Value × Bytes)) (bs : Bytes) (v : Value) : Prop where
  reads : v.InRange → Reads item bs v
  refuses : ¬ v.InRange → ∀ rest, item (bs ++ rest) = .error .integerRange

theorem readItems_refuses {item : Bytes → Except Error (Value × Bytes)} {parts : List Bytes}
    {vs : List Value} (h : List.Forall₂ (Meets item) parts vs) (hr : ¬ ∀ v ∈ vs, v.InRange)
    (rest : Bytes) (done : List Value) :
    readItems item parts.length (parts.flatten ++ rest) done = .error .integerRange := by
  induction h generalizing done with
  | nil => exact absurd (by simp) hr
  | @cons part v parts vs hp _ ih =>
    simp only [List.length_cons, List.flatten_cons, List.append_assoc, readItems]
    by_cases hv : v.InRange
    · rw [hp.reads hv]
      exact ih (fun hvs => hr (List.forall_mem_cons.2 ⟨hv, hvs⟩)) _
    · rw [hp.refuses hv]

theorem readEntries_refuses {item : Bytes → Except Error (Value × Bytes)}
    {pairs : List (Bytes × Bytes)} {es : List (Value × Value)}
    (h : List.Forall₂ (fun p e => Meets item p.1 e.1 ∧ Meets item p.2 e.2) pairs es)
    (hr : ¬ ∀ e ∈ es, e.1.InRange ∧ e.2.InRange)
    (last : Option Bytes) (hs : (last.toList ++ pairs.map Prod.fst).IsChain (· < ·)) (rest : Bytes)
    (done : List (Value × Value)) :
    readEntries item pairs.length last ((pairs.map fun p => p.1 ++ p.2).flatten ++ rest) done =
      .error .integerRange := by
  induction h generalizing last done with
  | nil => exact absurd (by simp) hr
  | @cons p e pairs es hp _ ih =>
    have hchain : ((some p.1).toList ++ pairs.map Prod.fst).IsChain (· < ·) :=
      List.IsChain.right_of_append (by simpa using hs)
    simp only [List.length_cons, readEntries, List.map_cons, List.flatten_cons, List.append_assoc]
    by_cases hk : e.1.InRange
    · simp only [hp.1.reads hk _, Bytes.before_append, checkKey_of_chain hs]
      by_cases hv : e.2.InRange
      · simp only [hp.2.reads hv _]
        exact ih (fun hes => hr (List.forall_mem_cons.2 ⟨⟨hk, hv⟩, hes⟩)) _ hchain _
      · simp only [hp.2.refuses hv]
    · simp only [hp.1.refuses hk]

theorem Denotes.length_pos {bs : Bytes} {v : Value} (h : Denotes bs v) : 0 < bs.length := by
  obtain ⟨b, tail, rfl, -⟩ := h.first
  exact Nat.succ_pos _

theorem Meets.of_reads {item : Bytes → Except Error (Value × Bytes)} {bs : Bytes} {v : Value}
    (hr : v.InRange) (h : Reads item bs v) : Meets item bs v :=
  ⟨fun _ => h, fun hn => absurd hr hn⟩

theorem readItem_float (fuel : Nat) {info width word : Nat} {F : FloatFormat} {x : Binary64}
    (hf : FloatForm info width F) (hw : word < 2 * F.signBit) (hc : checkFloat F word = .ok x) :
    Reads (readItem (fuel + 1)) (initialByte 7 info :: Bytes.ofNatBE width word) (.float x) := by
  intro rest
  simp only [List.cons_append, readItem, initialByte_major (show 7 < 8 by omega) hf.info_lt,
    initialByte_info hf.info_lt, readFloat_append hf hw hc rest]

theorem readItem_negative_refuses (fuel : Nat) {n : Nat} (hl : 2 ^ 63 ≤ n) (hu : n < 2 ^ 64)
    (rest : Bytes) : readItem (fuel + 1) (head 1 n ++ rest) = .error .integerRange := by
  obtain ⟨info, bytes, hi, hh, ha, -⟩ := head_reads 1 hu
  have hn : ¬ n < 0x8000000000000000 := by omega
  simp [hh, readItem, initialByte_major (show 1 < 8 by omega) hi, initialByte_info hi, ha, bind,
    Except.bind, hn]

theorem inRange_scalar {v : Value} (hv : ∀ w, Occurs w v → w = v) (hn : v.toInt? = none) :
    v.InRange := by
  intro w hw n h
  rw [hv w hw, hn] at h
  cases h

theorem meets_unsigned (fuel : Nat) (n : UInt64) :
    Meets (readItem (fuel + 1)) (head 0 n.toNat) (.unsigned n) := by
  refine .of_reads (fun w hw m hm => by cases hw; cases hm; omega) fun rest => ?_
  simpa using readItem_unsigned fuel rest n.toNat_lt

theorem meets_negative (fuel : Nat) (n : UInt64) :
    Meets (readItem (fuel + 1)) (head 1 n.toNat) (.negative n) := by
  constructor
  · intro hr rest
    simpa using readItem_negative fuel rest (inRange_negative.1 hr)
  · intro hr rest
    rw [inRange_negative, not_lt] at hr
    exact readItem_negative_refuses fuel hr n.toNat_lt rest

/-- An array is read to its end if its items are. -/
theorem meets_array {fuel : Nat} {parts : List Bytes} {items : List Value}
    (hl : items.length < 2 ^ 64) (hp : List.Forall₂ Denotes parts items)
    (h : List.Forall₂ (Meets (readItem fuel)) parts items) :
    Meets (readItem (fuel + 1)) (head 4 items.length ++ parts.flatten) (.array items) := by
  have hcount : parts.length ≤ parts.flatten.length := count_le_flatten fun part hm => by
    obtain ⟨v, -, hd⟩ := exists_right_of_mem hp hm
    exact hd.length_pos
  have hread (rest : Bytes) := readItem_array fuel (parts.flatten ++ rest) hl (by
    rw [← hp.length_eq, List.length_append]
    omega)
  constructor
  · intro hr rest
    have hreads := forall₂_of_mem h fun part _ v hv hm => hm.reads (inRange_array.1 hr v hv)
    rw [List.append_assoc, hread, ← hp.length_eq, readItems_flatten hreads]
    rfl
  · intro hr rest
    rw [List.append_assoc, hread, ← hp.length_eq,
      readItems_refuses h (fun hitems => hr (inRange_array.2 hitems))]
    rfl

theorem meets_map {fuel : Nat} {pairs : List (Bytes × Bytes)} {entries : List (Value × Value)}
    (hl : entries.length < 2 ^ 64) (hp : List.Forall₂ DenotesEntry pairs entries)
    (hs : (pairs.map Prod.fst).IsChain (· < ·))
    (h : List.Forall₂ (fun p e => Meets (readItem fuel) p.1 e.1 ∧ Meets (readItem fuel) p.2 e.2)
      pairs entries) :
    Meets (readItem (fuel + 1)) (head 5 entries.length ++ (pairs.map fun p => p.1 ++ p.2).flatten)
      (.map entries) := by
  have hcount : pairs.length ≤ (pairs.map fun p => p.1 ++ p.2).flatten.length := by
    have hparts := count_le_flatten fun part (hm : part ∈ pairs.map fun p => p.1 ++ p.2) => by
      obtain ⟨p, hpair, rfl⟩ := List.mem_map.1 hm
      obtain ⟨e, -, hk, -⟩ := exists_right_of_mem hp hpair
      exact Nat.lt_of_lt_of_le hk.length_pos (by simp)
    rwa [List.length_map] at hparts
  have hread (rest : Bytes) :=
    readItem_map fuel ((pairs.map fun p => p.1 ++ p.2).flatten ++ rest) hl (by
      rw [← hp.length_eq, List.length_append]
      omega)
  have hkeys : ((none : Option Bytes).toList ++ pairs.map Prod.fst).IsChain (· < ·) := hs
  constructor
  · intro hr rest
    have hreads : List.Forall₂ (fun (p : Bytes × Bytes) (e : Value × Value) =>
        Reads (readItem fuel) p.1 e.1 ∧ Reads (readItem fuel) p.2 e.2) pairs entries :=
      forall₂_of_mem h fun p _ e he hm =>
        ⟨hm.1.reads (inRange_map.1 hr e he).1, hm.2.reads (inRange_map.1 hr e he).2⟩
    rw [List.append_assoc, hread, ← hp.length_eq, readEntries_flatten hreads none hkeys]
    rfl
  · intro hr rest
    rw [List.append_assoc, hread, ← hp.length_eq,
      readEntries_refuses h (fun hentries => hr (inRange_map.2 hentries)) none hkeys]
    rfl

/-- An item has a byte, so there is a level left for it wherever there are as many as it has
bytes. -/
theorem Denotes.meets_within {part : Bytes} {v : Value} (h : Denotes part v)
    (hm : ∀ {fuel}, part.length ≤ fuel + 1 → Meets (readItem (fuel + 1)) part v) {fuel : Nat}
    (hf : part.length ≤ fuel) : Meets (readItem fuel) part v := by
  have hpos := h.length_pos
  obtain ⟨fuel, rfl⟩ : ∃ m, fuel = m + 1 := ⟨fuel - 1, by omega⟩
  exact hm hf

/-- An item is read to its end, unless an integer in it is out of range. -/
theorem Denotes.meets {bs : Bytes} {v : Value} (h : Denotes bs v) {fuel : Nat}
    (hf : bs.length ≤ fuel + 1) : Meets (readItem (fuel + 1)) bs v := by
  induction v using Value.induction generalizing bs fuel with
  | tag number content _ => cases h
  | null =>
    cases h
    exact .of_reads (inRange_scalar (by rintro _ ⟨⟩; rfl) rfl) fun rest => rfl
  | bool b =>
    cases h
    refine .of_reads (inRange_scalar (by rintro _ ⟨⟩; rfl) rfl) fun rest => ?_
    cases b <;> rfl
  | unsigned n => cases h; exact meets_unsigned fuel n
  | negative n => cases h; exact meets_negative fuel n
  | float x =>
    cases h with | float hform hw hc =>
    exact .of_reads (inRange_scalar (by rintro _ ⟨⟩; rfl) rfl) (readItem_float fuel hform hw hc)
  | bytes data =>
    cases h with | bytes hl =>
    refine .of_reads (inRange_scalar (by rintro _ ⟨⟩; rfl) rfl) fun rest => ?_
    rw [List.append_assoc]
    exact readItem_bytes fuel rest hl
  | text s =>
    cases h with | text hl =>
    refine .of_reads (inRange_scalar (by rintro _ ⟨⟩; rfl) rfl) fun rest => ?_
    rw [List.append_assoc]
    exact readItem_text fuel rest hl
  | array items ih =>
    cases h with | @array parts _ hl hp =>
    have hhead := List.length_pos_iff.2 (head_ne_nil 4 items.length)
    rw [List.length_append] at hf
    refine meets_array hl hp (forall₂_of_mem hp fun part hm v hv hd => ?_)
    have hpart := length_le_flatten hm
    exact hd.meets_within (ih v hv hd) (by omega)
  | map entries ih =>
    cases h with | @map pairs _ hl hp hs =>
    have hhead := List.length_pos_iff.2 (head_ne_nil 5 entries.length)
    rw [List.length_append] at hf
    refine meets_map hl hp hs (forall₂_of_mem hp fun p hm e he hd => ?_)
    obtain ⟨hk, hv⟩ := hd
    have hpair := length_le_flatten (List.mem_map.2 ⟨p, hm, rfl⟩ :
      p.1 ++ p.2 ∈ pairs.map fun p => p.1 ++ p.2)
    rw [List.length_append] at hpair
    exact ⟨hk.meets_within ((ih e he).1 hk) (by omega), hv.meets_within ((ih e he).2 hv) (by omega)⟩

theorem Denotes.decode {bs : Bytes} {v : Value} (h : Denotes bs v) :
    (v.InRange → Cbor.decode bs = .ok v) ∧
      (¬ v.InRange → Cbor.decode bs = .error .integerRange) := by
  have hpos := h.length_pos
  have hmeets := h.meets (show bs.length ≤ bs.length - 1 + 1 by omega)
  rw [Nat.sub_add_cancel hpos] at hmeets
  constructor
  · intro hr
    have hread := hmeets.reads hr []
    rw [List.append_nil] at hread
    rw [Cbor.decode, hread]
  · intro hr
    have hread := hmeets.refuses hr []
    rw [List.append_nil] at hread
    rw [Cbor.decode, hread]

/-- The bytes that are decoded are those of an item that can be read. -/
theorem decode_eq_ok_iff {bs : Bytes} {v : Value} :
    decode bs = .ok v ↔ Denotes bs v ∧ v.InRange := by
  constructor
  · intro h
    have hd : Denotes bs v := by
      unfold decode at h
      split at h <;> cases h
      next hread =>
        obtain ⟨front, rfl, hd⟩ := denotes_of_readItem hread
        rwa [List.append_nil]
    refine ⟨hd, ?_⟩
    by_contra hr
    rw [hd.decode.2 hr] at h
    cases h
  · rintro ⟨hd, hr⟩
    exact hd.decode.1 hr

end ObjectGraph.Cbor
