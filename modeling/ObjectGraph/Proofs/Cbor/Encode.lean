import ObjectGraph.Proofs.Cbor.Head

/-! What the encoder of items does, part by part: the bytes of an array are those of its items one
after another (`encode_array_iff`), and those of a map are its entries in strict order of their
keys (`encode_map_iff`). No part has more bytes than the whole (`Occurs.encode`). -/
namespace ObjectGraph.Cbor

/-- An item is part of another, map keys counted. -/
inductive Occurs : Value → Value → Prop
  | self (v : Value) : Occurs v v
  | item {w v : Value} {items : List Value} : v ∈ items → Occurs w v → Occurs w (.array items)
  | key {w : Value} {e : Value × Value} {entries : List (Value × Value)} :
      e ∈ entries → Occurs w e.1 → Occurs w (.map entries)
  | value {w : Value} {e : Value × Value} {entries : List (Value × Value)} :
      e ∈ entries → Occurs w e.2 → Occurs w (.map entries)
  | tagged {w content : Value} {number : UInt64} : Occurs w content → Occurs w (.tag number content)

theorem Occurs.trans {u w v : Value} (h : Occurs u w) (h' : Occurs w v) : Occurs u v := by
  induction h' with
  | self => exact h
  | item hm _ ih => exact .item hm ih
  | key hm _ ih => exact .key hm ih
  | value hm _ ih => exact .value hm ih
  | tagged _ ih => exact .tagged ih

/-- Induction on the parts of an item. -/
theorem Value.induction {motive : Value → Prop} (null : motive .null)
    (bool : ∀ b, motive (.bool b)) (unsigned : ∀ n, motive (.unsigned n))
    (negative : ∀ n, motive (.negative n)) (float : ∀ x, motive (.float x))
    (bytes : ∀ bs, motive (.bytes bs)) (text : ∀ s, motive (.text s))
    (array : ∀ items, (∀ v ∈ items, motive v) → motive (.array items))
    (map : ∀ entries, (∀ e ∈ entries, motive e.1 ∧ motive e.2) → motive (.map entries))
    (tag : ∀ number content, motive content → motive (.tag number content)) (v : Value) :
    motive v :=
  @Value.rec motive (fun items => ∀ v ∈ items, motive v)
    (fun entries => ∀ e ∈ entries, motive e.1 ∧ motive e.2) (fun e => motive e.1 ∧ motive e.2)
    null bool unsigned negative float bytes text array map tag
    (by simp) (fun v vs hv hvs => by simpa using ⟨hv, hvs⟩)
    (by simp) (fun e es he hes => List.forall_mem_cons.2 ⟨he, hes⟩)
    (fun _ _ hk hv => ⟨hk, hv⟩) v

section partners
variable {α β : Type} {R : α → β → Prop} {as : List α} {bs : List β}

theorem exists_right_of_mem (h : List.Forall₂ R as bs) {a : α} (ha : a ∈ as) :
    ∃ b ∈ bs, R a b := by
  induction h with
  | nil => cases ha
  | cons hab _ ih =>
    rcases List.mem_cons.1 ha with rfl | ha
    · exact ⟨_, List.mem_cons_self, hab⟩
    · obtain ⟨b, hb, hr⟩ := ih ha
      exact ⟨b, List.mem_cons_of_mem _ hb, hr⟩

theorem exists_left_of_mem (h : List.Forall₂ R as bs) {b : β} (hb : b ∈ bs) : ∃ a ∈ as, R a b :=
  exists_right_of_mem (R := flip R) (List.Forall₂.flip h) hb

theorem forall₂_of_mem {S : α → β → Prop} (h : List.Forall₂ R as bs)
    (hi : ∀ a ∈ as, ∀ b ∈ bs, R a b → S a b) : List.Forall₂ S as bs := by
  induction h with
  | nil => exact .nil
  | cons hab _ ih =>
    refine .cons (hi _ List.mem_cons_self _ List.mem_cons_self hab) (ih ?_)
    intro a ha b hb
    exact hi a (List.mem_cons_of_mem _ ha) b (List.mem_cons_of_mem _ hb)

theorem forall₂_comp_of_mem {γ : Type} {S : β → γ → Prop} {T : α → γ → Prop} {cs : List γ}
    (h : List.Forall₂ R as bs) (h' : List.Forall₂ S bs cs)
    (hi : ∀ a ∈ as, ∀ b ∈ bs, ∀ c, R a b → S b c → T a c) : List.Forall₂ T as cs := by
  induction h generalizing cs with
  | nil => cases h'; exact .nil
  | cons hab _ ih =>
    cases h' with | cons hbc h' =>
    refine .cons (hi _ List.mem_cons_self _ List.mem_cons_self _ hab hbc) (ih h' ?_)
    intro a ha b hb
    exact hi a (List.mem_cons_of_mem _ ha) b (List.mem_cons_of_mem _ hb)

/-- Partners of two lists that stand side by side, where each two members have one. -/
theorem exists_forall₂ {γ : Type} {S : α → γ → Prop} {T : β → γ → Prop}
    (h : List.Forall₂ R as bs) (hi : ∀ a ∈ as, ∀ b ∈ bs, R a b → ∃ c, S a c ∧ T b c) :
    ∃ cs, List.Forall₂ S as cs ∧ List.Forall₂ T bs cs := by
  induction h with
  | nil => exact ⟨[], .nil, .nil⟩
  | cons hab _ ih =>
    obtain ⟨c, hc, hc'⟩ := hi _ List.mem_cons_self _ List.mem_cons_self hab
    obtain ⟨cs, hcs, hcs'⟩ := ih fun a ha b hb =>
      hi a (List.mem_cons_of_mem _ ha) b (List.mem_cons_of_mem _ hb)
    exact ⟨c :: cs, .cons hc hcs, .cons hc' hcs'⟩

/-- Partners follow a list into another order. -/
theorem exists_perm_forall₂ {moved : List β} (h : List.Forall₂ R as bs) (hp : bs.Perm moved) :
    ∃ as', as.Perm as' ∧ List.Forall₂ R as' moved := by
  obtain ⟨as', ha, hm⟩ : Relation.Comp List.Perm (List.Forall₂ R) as moved := by
    rw [← List.forall₂_comp_perm_eq_perm_comp_forall₂]
    exact ⟨bs, h, hp⟩
  exact ⟨as', ha, hm⟩

end partners

theorem encodeItems_ok {vs : List Value} {done : List Bytes} {bs : Bytes}
    (h : encodeItems vs done = .ok bs) :
    ∃ parts, List.Forall₂ (fun v b => encode v = .ok b) vs parts ∧
      bs = done.reverse.flatten ++ parts.flatten := by
  induction vs generalizing done with
  | nil =>
    simp only [encodeItems, Except.ok.injEq] at h
    exact ⟨[], .nil, by simp [h]⟩
  | cons v vs ih =>
    simp only [encodeItems] at h
    split at h
    · cases h
    · next b hb =>
      obtain ⟨parts, hp, rfl⟩ := ih h
      exact ⟨b :: parts, .cons hb hp, by simp⟩

theorem encodeEntries_ok {es : List (Value × Value)} {done out : List Entry}
    (h : encodeEntries es done = .ok out) :
    ∃ encoded, List.Forall₂ (fun e o => encode e.1 = .ok o.1 ∧ o.2 = encode e.2) es encoded ∧
      out = done.reverse ++ encoded := by
  induction es generalizing done with
  | nil =>
    simp only [encodeEntries, Except.ok.injEq] at h
    exact ⟨[], .nil, by simp [h]⟩
  | cons e es ih =>
    obtain ⟨k, v⟩ := e
    simp only [encodeEntries] at h
    split at h
    · cases h
    · next key hk =>
      obtain ⟨encoded, he, rfl⟩ := ih h
      exact ⟨(key, encode v) :: encoded, .cons ⟨hk, rfl⟩ he, by simp⟩

theorem joinEntries_ok {es : List Entry} {done : List Bytes} {bs : Bytes}
    (h : joinEntries es done = .ok bs) :
    ∃ pairs : List (Bytes × Bytes), es = pairs.map (fun p => (p.1, .ok p.2)) ∧
      bs = done.reverse.flatten ++ (pairs.map fun p => p.1 ++ p.2).flatten := by
  induction es generalizing done with
  | nil =>
    simp only [joinEntries, Except.ok.injEq] at h
    exact ⟨[], rfl, by simp [h]⟩
  | cons e es ih =>
    obtain ⟨key, value⟩ := e
    cases value with
    | error e => simp [joinEntries] at h
    | ok value =>
      obtain ⟨pairs, rfl, rfl⟩ := ih (by simpa only [joinEntries] using h)
      exact ⟨(key, value) :: pairs, rfl, by simp⟩

theorem insertEntry_perm (e : Entry) (es : List Entry) : (insertEntry e es).Perm (e :: es) := by
  induction es with
  | nil => exact .refl _
  | cons f fs ih =>
    simp only [insertEntry]
    split
    · exact .refl _
    · exact (ih.cons f).trans (.swap e f fs)

theorem sortEntries_perm (es : List Entry) : (sortEntries es).Perm es := by
  have key : ∀ sorted : List Entry,
      (es.foldl (fun sorted e => insertEntry e sorted) sorted).Perm (sorted ++ es) := by
    induction es with
    | nil => simp
    | cons e es ih =>
      intro sorted
      have hmiddle : (e :: (sorted ++ es)).Perm (sorted ++ e :: es) := List.perm_middle.symm
      exact (ih _).trans (((insertEntry_perm e sorted).append_right es).trans hmiddle)
  simpa [sortEntries] using key []

/-- No entry stands before one with a smaller key. -/
def KeySorted (es : List Entry) : Prop := es.Pairwise fun e f => ¬ f.1 < e.1

theorem KeySorted.insertEntry {es : List Entry} (h : KeySorted es) (e : Entry) :
    KeySorted (insertEntry e es) := by
  induction es with
  | nil => simp [Cbor.insertEntry, KeySorted]
  | cons f fs ih =>
    have hf := List.pairwise_cons.1 h
    simp only [Cbor.insertEntry]
    split
    · next hlt =>
      refine List.pairwise_cons.2 ⟨fun g hg => ?_, h⟩
      rcases List.mem_cons.1 hg with rfl | hg
      · grind
      · have := hf.1 g hg
        grind
    · next hlt =>
      refine List.pairwise_cons.2 ⟨fun g hg => ?_, ih hf.2⟩
      rcases List.mem_cons.1 ((insertEntry_perm e fs).mem_iff.1 hg) with rfl | hg
      · exact hlt
      · exact hf.1 g hg

theorem sortEntries_sorted (es : List Entry) : KeySorted (sortEntries es) := by
  have key : ∀ sorted : List Entry, KeySorted sorted →
      KeySorted (es.foldl (fun sorted e => insertEntry e sorted) sorted) := by
    induction es with
    | nil => exact fun _ h => h
    | cons e es ih => exact fun _ h => ih _ (h.insertEntry e)
  exact key [] .nil

/-- Sorted entries of which no two neighbours have one key have growing keys. -/
theorem keys_increase {es : List Entry} (hs : KeySorted es) (ht : hasTwins es = false) :
    (es.map Prod.fst).IsChain (· < ·) := by
  induction es with
  | nil => exact .nil
  | cons e es ih =>
    cases es with
    | nil => exact .singleton _
    | cons f fs =>
      simp only [hasTwins, Bool.or_eq_false_iff, decide_eq_false_iff_not] at ht
      have hs := List.pairwise_cons.1 hs
      have hef := hs.1 f (by simp)
      refine .cons_cons ?_ (ih hs.2 ht.2)
      grind

theorem encodeItems_of {vs : List Value} {parts : List Bytes}
    (h : List.Forall₂ (fun v b => encode v = .ok b) vs parts) (done : List Bytes) :
    encodeItems vs done = .ok (done.reverse.flatten ++ parts.flatten) := by
  induction h generalizing done with
  | nil => simp [encodeItems]
  | cons hv _ ih => simp [encodeItems, hv, ih]

/-- An array is written as its head and its items. -/
theorem encode_array_iff {items : List Value} {bs : Bytes} : encode (.array items) = .ok bs ↔
    ∃ parts, List.Forall₂ (fun v b => encode v = .ok b) items parts ∧
      bs = head 4 items.length ++ parts.flatten := by
  constructor
  · intro h
    rw [encode] at h
    obtain ⟨body, hb, h⟩ := bind_eq_ok.1 h
    cases h
    obtain ⟨parts, hp, rfl⟩ := encodeItems_ok hb
    exact ⟨parts, hp, rfl⟩
  · rintro ⟨parts, hp, rfl⟩
    simp [encode, encodeItems_of hp [], bind, Except.bind]

theorem encodeEntries_of {es : List (Value × Value)} {encoded : List Entry}
    (h : List.Forall₂ (fun e o => encode e.1 = .ok o.1 ∧ o.2 = encode e.2) es encoded)
    (done : List Entry) : encodeEntries es done = .ok (done.reverse ++ encoded) := by
  induction h generalizing done with
  | nil => simp [encodeEntries]
  | @cons e o es encoded he _ ih =>
    have ho : o = (o.1, encode e.2) := Prod.ext rfl he.2
    simp only [encodeEntries, he.1, ih]
    rw [← ho]
    simp

theorem joinEntries_of (pairs : List (Bytes × Bytes)) (done : List Bytes) :
    joinEntries (pairs.map fun p => (p.1, .ok p.2)) done =
      .ok (done.reverse.flatten ++ (pairs.map fun p => p.1 ++ p.2).flatten) := by
  induction pairs generalizing done with
  | nil => simp [joinEntries]
  | cons p pairs ih => simp [joinEntries, ih]

/-- Entries with growing keys are already sorted. -/
theorem sortEntries_eq {es sorted : List Entry} (hp : es.Perm sorted)
    (hs : (sorted.map Prod.fst).IsChain (· < ·)) : sortEntries es = sorted := by
  have hkeys := List.isChain_iff_pairwise.1 hs
  have hle : KeySorted sorted := (List.pairwise_map.1 hkeys).imp fun h => by grind
  have hnodup : (sorted.map Prod.fst).Nodup := hkeys.imp fun h => by grind
  have hsame := (sortEntries_perm es).trans hp
  refine List.Perm.eq_of_pairwise ?_ (sortEntries_sorted es) hle hsame
  intro e f he hf hef hfe
  have hkey : e.1 = f.1 := by grind
  exact List.inj_on_of_nodup_map hnodup (hsame.mem_iff.1 he) hf hkey

theorem hasTwins_eq_false {es : List Entry} (hs : (es.map Prod.fst).IsChain (· < ·)) :
    hasTwins es = false := by
  induction es with
  | nil => rfl
  | cons e es ih =>
    cases es with
    | nil => rfl
    | cons f fs =>
      obtain ⟨hlt, hs⟩ := List.isChain_cons_cons.1 hs
      have hne : e.1 ≠ f.1 := by grind
      simp [hasTwins, hne, ih hs]

/-- A map is written as its head and its entries in strict order of their keys. -/
theorem encode_map_iff {entries : List (Value × Value)} {bs : Bytes} :
    encode (.map entries) = .ok bs ↔ ∃ moved pairs, entries.Perm moved ∧
      List.Forall₂ (fun e p => encode e.1 = .ok p.1 ∧ encode e.2 = .ok p.2) moved pairs ∧
      (pairs.map Prod.fst).IsChain (· < ·) ∧
      bs = head 5 entries.length ++ (pairs.map fun p => p.1 ++ p.2).flatten := by
  constructor
  · intro h
    rw [encode] at h
    obtain ⟨encoded, hencoded, h⟩ := bind_eq_ok.1 h
    dsimp only at h
    split at h
    · cases h
    next htwins =>
    obtain ⟨body, hb, h⟩ := bind_eq_ok.1 h
    cases h
    obtain ⟨encoded, he, rfl⟩ := encodeEntries_ok hencoded
    obtain ⟨pairs, hp, rfl⟩ := joinEntries_ok hb
    have hchain := keys_increase (sortEntries_sorted encoded) (by simpa using htwins)
    -- The entries in the order of their keys stand in the same relation to the sorted bytes.
    obtain ⟨moved, hperm, hmoved⟩ := exists_perm_forall₂ he (sortEntries_perm encoded).symm
    rw [hp, List.forall₂_map_right_iff] at hmoved
    rw [hp, List.map_map] at hchain
    exact ⟨moved, pairs, hperm, hmoved.imp fun _ _ h => ⟨h.1, h.2.symm⟩, hchain, rfl⟩
  · rintro ⟨moved, pairs, hperm, hmoved, hchain, rfl⟩
    obtain ⟨sorted, hsorted⟩ : ∃ sorted : List Entry, sorted = pairs.map fun p => (p.1, .ok p.2) :=
      ⟨_, rfl⟩
    have hwritten : List.Forall₂ (fun (e : Value × Value) (o : Entry) =>
        encode e.1 = .ok o.1 ∧ o.2 = encode e.2) moved sorted := by
      rw [hsorted, List.forall₂_map_right_iff]
      exact hmoved.imp fun _ _ h => ⟨h.1, h.2.symm⟩
    have hkeys : (sorted.map Prod.fst).IsChain (· < ·) := by
      rwa [hsorted, List.map_map]
    obtain ⟨encoded, he, hp⟩ := List.perm_comp_forall₂ hperm hwritten
    simp only [encode, encodeEntries_of he [], bind, Except.bind, List.reverse_nil, List.nil_append]
    rw [sortEntries_eq hp hkeys, hasTwins_eq_false hkeys, hsorted, joinEntries_of]
    simp

/-- Parts that are not empty are no more than the bytes they make up. -/
theorem count_le_flatten {parts : List Bytes} (h : ∀ part ∈ parts, 0 < part.length) :
    parts.length ≤ parts.flatten.length := by
  induction parts with
  | nil => exact Nat.le_refl 0
  | cons part parts ih =>
    have hpart := h part (by simp)
    have hparts := ih fun p hp => h p (by simp [hp])
    simp only [List.length_cons, List.flatten_cons, List.length_append]
    omega

theorem length_le_flatten {part : Bytes} {parts : List Bytes} (h : part ∈ parts) :
    part.length ≤ parts.flatten.length :=
  (List.sublist_flatten_of_mem h).length_le

theorem encode_ne_nil {v : Value} {bs : Bytes} (h : encode v = .ok bs) : bs ≠ [] := by
  rintro rfl
  cases v with
  | null | bool | tag => simp [encode] at h
  | unsigned n | negative n | bytes data | text s => simp [encode, head_ne_nil] at h
  | float x =>
    simp only [encode, Except.ok.injEq, encodeFloat, encodeInt] at h
    split_ifs at h
    split at h
    · split_ifs at h <;> exact head_ne_nil _ _ h
    · split at h <;> cases h
  | array items =>
    obtain ⟨parts, -, he⟩ := encode_array_iff.1 h
    simp [head_ne_nil] at he
  | map entries =>
    obtain ⟨moved, pairs, -, -, -, he⟩ := encode_map_iff.1 h
    simp [head_ne_nil] at he

/-- What the head of an item counts: bytes, items or entries. -/
def Value.extent : Value → Nat
  | .bytes bs => bs.length
  | .text s => (Utf8.ofString s).length
  | .array items => items.length
  | .map entries => entries.length
  | _ => 0

theorem extent_le_of_encode {v : Value} {bs : Bytes} (h : encode v = .ok bs) :
    v.extent ≤ bs.length := by
  cases v with
  | bytes data | text s =>
    simp only [encode, Except.ok.injEq] at h
    simp [← h, Value.extent]
  | array items =>
    obtain ⟨parts, hp, rfl⟩ := encode_array_iff.1 h
    have hcount : parts.length ≤ parts.flatten.length := count_le_flatten fun part hm => by
      obtain ⟨v, -, hv⟩ := exists_left_of_mem hp hm
      exact List.length_pos_iff.2 (encode_ne_nil hv)
    rw [Value.extent, hp.length_eq, List.length_append]
    omega
  | map entries =>
    obtain ⟨moved, pairs, hperm, hp, -, rfl⟩ := encode_map_iff.1 h
    have hcount := count_le_flatten fun part (hm : part ∈ pairs.map fun p => p.1 ++ p.2) => by
      obtain ⟨p, hpair, rfl⟩ := List.mem_map.1 hm
      obtain ⟨e, -, he, -⟩ := exists_left_of_mem hp hpair
      exact List.length_pos_iff.2 (List.append_ne_nil_of_left_ne_nil (encode_ne_nil he) _)
    rw [List.length_map] at hcount
    rw [Value.extent, hperm.length_eq, hp.length_eq, List.length_append]
    omega
  | _ => exact Nat.zero_le _

/-- What occurs in an item that has a byte form has one too, which is no longer. -/
theorem Occurs.encode {v w : Value} (h : Occurs w v) {bs : Bytes} (he : encode v = .ok bs) :
    ∃ part, Cbor.encode w = .ok part ∧ part.length ≤ bs.length := by
  -- The bytes of a map's entry are among those of the map.
  have entry {entries : List (Value × Value)} {e : Value × Value} {bs : Bytes}
      (hm : e ∈ entries) (he : Cbor.encode (.map entries) = .ok bs) : ∃ p : Bytes × Bytes,
      Cbor.encode e.1 = .ok p.1 ∧ Cbor.encode e.2 = .ok p.2 ∧ (p.1 ++ p.2).length ≤ bs.length := by
    obtain ⟨moved, pairs, hperm, hp, -, rfl⟩ := encode_map_iff.1 he
    obtain ⟨p, hpair, hk, hv⟩ := exists_right_of_mem hp (hperm.mem_iff.1 hm)
    have hle := length_le_flatten (List.mem_map_of_mem (f := fun p => p.1 ++ p.2) hpair)
    exact ⟨p, hk, hv, by rw [@List.length_append _ (head _ _)]; omega⟩
  induction h generalizing bs with
  | self => exact ⟨bs, he, Nat.le_refl _⟩
  | item hm _ ih =>
    obtain ⟨parts, hp, rfl⟩ := encode_array_iff.1 he
    obtain ⟨b, hm, hb⟩ := exists_right_of_mem hp hm
    obtain ⟨part, hpart, hle⟩ := ih hb
    have := length_le_flatten hm
    exact ⟨part, hpart, by rw [List.length_append]; omega⟩
  | key hm _ ih =>
    obtain ⟨p, hk, -, hlen⟩ := entry hm he
    obtain ⟨part, hpart, hle⟩ := ih hk
    rw [List.length_append] at hlen
    exact ⟨part, hpart, by omega⟩
  | value hm _ ih =>
    obtain ⟨p, -, hv, hlen⟩ := entry hm he
    obtain ⟨part, hpart, hle⟩ := ih hv
    rw [List.length_append] at hlen
    exact ⟨part, hpart, by omega⟩
  | tagged _ _ => simp [Cbor.encode] at he

/-- No length within the item takes more than the 64 bits that a head can hold. This is so of every
item that a machine with addresses of 64 bits can hold. -/
def Value.Sized (v : Value) : Prop := ∀ w, Occurs w v → w.extent < 2 ^ 64

theorem sized_of_encode {v : Value} {bs : Bytes} (h : encode v = .ok bs)
    (hl : bs.length < 2 ^ 64) : v.Sized := by
  intro w hw
  obtain ⟨part, hp, hle⟩ := hw.encode h
  have := extent_le_of_encode hp
  omega

end ObjectGraph.Cbor
