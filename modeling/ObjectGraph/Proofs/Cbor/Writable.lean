import ObjectGraph.Proofs.Cbor.Canonical

/-! Which items have a byte form: those without tags in which no two entries of a map have keys that
mean the same (`encode_isOk_iff`). The encoder compares neighbours in the order of the bytes of the
keys, and keys with the same bytes are those that mean the same (`equivalent_of_encode`). -/
namespace ObjectGraph.Cbor

def KeysDiffer (entries : List (Value × Value)) : Prop :=
  entries.Pairwise fun e f => ¬ Equivalent e.1 f.1

/-- An item without tags, and without keys in one map that mean the same. -/
structure Value.Writable (v : Value) : Prop where
  untagged : ∀ number content, ¬ Occurs (.tag number content) v
  distinct : ∀ entries, Occurs (.map entries) v → KeysDiffer entries

/-- What a refusal to write an item says about it. -/
inductive Error.Blames (v : Value) : Error → Prop
  | tag {number : UInt64} {content : Value} : Occurs (.tag number content) v → Blames v .tag
  | keyDuplicate {entries : List (Value × Value)} : Occurs (.map entries) v →
      ¬ KeysDiffer entries → Blames v .keyDuplicate

theorem Error.Blames.mono {v w : Value} {e : Error} (h : e.Blames w) (ho : Occurs w v) :
    e.Blames v := by
  cases h with
  | tag hw => exact .tag (hw.trans ho)
  | keyDuplicate hw hd => exact .keyDuplicate (hw.trans ho) hd

theorem not_writable_of_blames {v : Value} {e : Error} (h : e.Blames v) : ¬ v.Writable := by
  intro hw
  cases h with
  | tag ho => exact hw.untagged _ _ ho
  | keyDuplicate ho hd => exact hd (hw.distinct _ ho)

/-- Items with the same bytes mean the same. -/
theorem equivalent_of_encode {v w : Value} {bs : Bytes} (hv : encode v = .ok bs)
    (hw : encode w = .ok bs) (hs : v.Sized) (hs' : w.Sized) : Equivalent v w := by
  obtain ⟨v', hd, hsettles, -⟩ := exists_normal hv hs
  obtain ⟨w', hd', hsettles', -⟩ := exists_normal hw hs'
  obtain rfl := hd.unique hd'
  exact hsettles.trans hsettles'.symm

/-- A relation between members of one list passes to their partners. -/
theorem pairwise_of_forall₂ {α β : Type} {R : α → β → Prop} {S : α → α → Prop}
    {T : β → β → Prop} {as : List α} {bs : List β} (h : List.Forall₂ R as bs) (hs : as.Pairwise S)
    (hi : ∀ a ∈ as, ∀ a' ∈ as, ∀ b b', R a b → R a' b' → S a a' → T b b') : bs.Pairwise T := by
  induction h with
  | nil => exact .nil
  | @cons a b as bs hab hrest ih =>
    obtain ⟨hfirst, hs⟩ := List.pairwise_cons.1 hs
    refine List.pairwise_cons.2 ⟨fun b' hb' => ?_, ih hs fun x hx x' hx' =>
      hi x (List.mem_cons_of_mem _ hx) x' (List.mem_cons_of_mem _ hx')⟩
    obtain ⟨a', ha', hr⟩ := exists_left_of_mem hrest hb'
    exact hi a List.mem_cons_self a' (List.mem_cons_of_mem _ ha') b b' hab hr (hfirst a' ha')

/-- The keys of a map that has a byte form do not mean the same. -/
theorem keysDiffer_of_encode {entries : List (Value × Value)} {bs : Bytes}
    (h : encode (.map entries) = .ok bs) : KeysDiffer entries := by
  obtain ⟨moved, pairs, hperm, hpairs, hchain, -⟩ := encode_map_iff.1 h
  have hkeys : pairs.Pairwise fun p q => p.1 < q.1 :=
    List.pairwise_map.1 (List.isChain_iff_pairwise.1 hchain)
  have hmoved : KeysDiffer moved := by
    refine pairwise_of_forall₂ (List.Forall₂.flip hpairs) hkeys ?_
    intro p _ q _ e f he hf hlt heq
    have hsame := heq.encode he.1
    rw [hf.1, Except.ok.injEq] at hsame
    rw [hsame] at hlt
    exact List.lt_irrefl _ hlt
  exact (hperm.pairwise_iff fun hne heq => hne (equivalent_equivalence.symm heq)).2 hmoved

/-- Two neighbours with one key are two entries with one key. -/
theorem not_nodup_of_hasTwins {es : List Entry} (h : hasTwins es = true) :
    ¬ (es.map Prod.fst).Nodup := by
  induction es with
  | nil => cases h
  | cons e es ih =>
    cases es with
    | nil => cases h
    | cons f fs =>
      intro hnodup
      obtain ⟨hnew, hrest⟩ := List.nodup_cons.1 hnodup
      simp only [hasTwins, Bool.or_eq_true, decide_eq_true_eq] at h
      rcases h with heq | h
      · exact hnew (by simp [heq])
      · exact ih h hrest

theorem encodeItems_error {vs : List Value} {done : List Bytes} {e : Error}
    (h : encodeItems vs done = .error e) : ∃ v ∈ vs, encode v = .error e := by
  induction vs generalizing done with
  | nil => cases h
  | cons v vs ih =>
    simp only [encodeItems] at h
    split at h
    · next hv =>
      cases h
      exact ⟨v, List.mem_cons_self, hv⟩
    · obtain ⟨w, hw, he⟩ := ih h
      exact ⟨w, List.mem_cons_of_mem _ hw, he⟩

theorem encodeEntries_error {es : List (Value × Value)} {done : List Entry} {e : Error}
    (h : encodeEntries es done = .error e) : ∃ entry ∈ es, encode entry.1 = .error e := by
  induction es generalizing done with
  | nil => cases h
  | cons entry es ih =>
    obtain ⟨k, v⟩ := entry
    simp only [encodeEntries] at h
    split at h
    · next hk =>
      cases h
      exact ⟨(k, v), List.mem_cons_self, hk⟩
    · obtain ⟨entry, hmem, he⟩ := ih h
      exact ⟨entry, List.mem_cons_of_mem _ hmem, he⟩

theorem joinEntries_error {es : List Entry} {done : List Bytes} {e : Error}
    (h : joinEntries es done = .error e) : ∃ entry ∈ es, entry.2 = .error e := by
  induction es generalizing done with
  | nil => cases h
  | cons entry es ih =>
    obtain ⟨key, value⟩ := entry
    cases value with
    | error e' =>
      cases h
      exact ⟨_, List.mem_cons_self, rfl⟩
    | ok value =>
      obtain ⟨entry, hmem, he⟩ := ih (by simpa only [joinEntries] using h)
      exact ⟨entry, List.mem_cons_of_mem _ hmem, he⟩

/-- What keeps a map from being written: one of its keys, two keys that mean the same, or one of its
values. -/
theorem encode_map_error {entries : List (Value × Value)} {e : Error}
    (hs : ∀ entry ∈ entries, entry.1.Sized) (h : encode (.map entries) = .error e) :
    (∃ entry ∈ entries, encode entry.1 = .error e ∨ encode entry.2 = .error e) ∨
      e = .keyDuplicate ∧ ¬ KeysDiffer entries := by
  rw [encode] at h
  rcases hencoded : encodeEntries entries [] with e' | encoded <;>
    simp only [hencoded, bind, Except.bind] at h
  · cases h
    obtain ⟨entry, hmem, he⟩ := encodeEntries_error hencoded
    exact .inl ⟨entry, hmem, .inl he⟩
  obtain ⟨encoded, hwritten, rfl⟩ := encodeEntries_ok hencoded
  have hsorted := sortEntries_perm encoded
  split at h
  · next htwins =>
    cases h
    refine .inr ⟨rfl, fun hdiffer => not_nodup_of_hasTwins htwins ?_⟩
    refine ((hsorted.map Prod.fst).nodup_iff).2 (List.pairwise_map.2 ?_)
    refine pairwise_of_forall₂ hwritten hdiffer ?_
    intro a ha b hb x y hx hy hne heq
    exact hne (equivalent_of_encode hx.1 (heq ▸ hy.1) (hs a ha) (hs b hb))
  · rcases hjoined : joinEntries (sortEntries encoded) [] with e' | body <;>
      simp only [hjoined] at h <;> cases h
    obtain ⟨written, hmem, hvalue⟩ := joinEntries_error hjoined
    obtain ⟨entry, hentry, -, hsame⟩ := exists_left_of_mem hwritten (hsorted.mem_iff.1 hmem)
    exact .inl ⟨entry, hentry, .inr (hsame ▸ hvalue)⟩

/-- An item is not written for a tag or for two keys that mean the same. -/
theorem blames_of_encode {v : Value} {e : Error} (hs : v.Sized) (h : encode v = .error e) :
    e.Blames v := by
  induction v using Value.induction generalizing e with
  | tag number content _ =>
    cases h
    exact .tag (.self _)
  | array items ih =>
    rw [encode] at h
    rcases hitems : encodeItems items [] with e' | body <;>
      simp only [hitems, bind, Except.bind] at h <;> cases h
    obtain ⟨v, hv, he⟩ := encodeItems_error hitems
    exact (ih v hv (fun w hw => hs w (.item hv hw)) he).mono (.item hv (.self v))
  | map entries ih =>
    have hkeys : ∀ entry ∈ entries, entry.1.Sized := fun _ hm w hw => hs w (.key hm hw)
    rcases encode_map_error hkeys h with ⟨entry, hm, he | he⟩ | ⟨rfl, hd⟩
    · exact ((ih entry hm).1 (hkeys entry hm) he).mono (.key hm (.self _))
    · exact ((ih entry hm).2 (fun w hw => hs w (.value hm hw)) he).mono (.value hm (.self _))
    · exact .keyDuplicate (.self _) hd
  | _ => cases h

/-- An item has a byte form exactly if it has no tags and no two entries of a map in it have keys
that mean the same. Otherwise the error names one of the two. -/
theorem encode_isOk_iff {v : Value} (hs : v.Sized) :
    ((∃ bs, encode v = .ok bs) ↔ v.Writable) ∧
      ∀ e, encode v = .error e → (e = .tag ∨ e = .keyDuplicate) ∧ e.Blames v := by
  constructor
  · constructor
    · rintro ⟨bs, h⟩
      constructor
      · intro number content ho
        obtain ⟨part, hp, -⟩ := ho.encode h
        cases hp
      · intro entries ho
        obtain ⟨part, hp, -⟩ := ho.encode h
        exact keysDiffer_of_encode hp
    · intro hw
      cases h : encode v with
      | ok bs => exact ⟨bs, rfl⟩
      | error e => exact absurd hw (not_writable_of_blames (blames_of_encode hs h))
  · intro e h
    have hb := blames_of_encode hs h
    refine ⟨?_, hb⟩
    cases hb with
    | tag => exact .inl rfl
    | keyDuplicate => exact .inr rfl

theorem sized_map {entries : List (Value × Value)} (hl : entries.length < 2 ^ 64)
    (h : ∀ e ∈ entries, e.1.Sized ∧ e.2.Sized) : (Value.map entries).Sized := by
  intro w hw
  cases hw with
  | self => exact hl
  | key hm hw => exact (h _ hm).1 w hw
  | value hm hw => exact (h _ hm).2 w hw

/-- A key that is a map with the integer 1 and the float 1.0 as keys. -/
def clashing : Value :=
  .map [(.map [(.unsigned 1, .null), (.float ⟨0x3ff0000000000000⟩, .null)], .bool true)]

theorem encode_clashing : clashing.Sized ∧ ¬ clashing.Writable ∧
    encode clashing = .error .keyDuplicate ∧ Error.Blames clashing .keyDuplicate := by
  have hs : clashing.Sized := by
    have hleaf {v : Value} (he : v.extent < 2 ^ 64) (h : ∀ w, Occurs w v → w = v) : v.Sized :=
      fun w hw => h w hw ▸ he
    refine sized_map (by decide) (List.forall_mem_singleton.2 ⟨sized_map (by decide) ?_, ?_⟩)
    · refine List.forall_mem_cons.2 ⟨⟨?_, ?_⟩, List.forall_mem_singleton.2 ⟨?_, ?_⟩⟩ <;>
        exact hleaf (by decide) fun w hw => by cases hw; rfl
    · exact hleaf (by decide) fun w hw => by cases hw; rfl
  have h : encode clashing = .error .keyDuplicate := rfl
  obtain ⟨hiff, herror⟩ := encode_isOk_iff hs
  refine ⟨hs, fun hw => ?_, h, (herror _ h).2⟩
  obtain ⟨bs, hbs⟩ := hiff.2 hw
  rw [h] at hbs
  cases hbs

end ObjectGraph.Cbor
