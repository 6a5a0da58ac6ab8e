import ObjectGraph.Proofs.Cbor.Equivalence
import ObjectGraph.Proofs.Cbor.Reading

/-! An item is read back from its bytes, up to what its bytes do not tell (`decode_encode`). -/
namespace ObjectGraph.Cbor

theorem toInt?_ofInt {n : Int} (hl : -2 ^ 64 ≤ n) (hu : n < 2 ^ 64) :
    (Value.ofInt n).toInt? = some n := by
  unfold Value.ofInt
  split
  · have hn : (UInt64.ofNat n.toNat).toNat = n.toNat := by rw [UInt64.toNat_ofNat']; omega
    simp only [Value.toInt?, hn, Option.some.injEq]
    omega
  · have hn : (UInt64.ofNat (-1 - n).toNat).toNat = (-1 - n).toNat := by
      rw [UInt64.toNat_ofNat']
      omega
    simp only [Value.toInt?, hn, Option.some.injEq]
    omega

/-- No float in the item is written as something else. -/
def Value.Plain (v : Value) : Prop := ∀ x, Occurs (.float x) v → x.Plain

theorem plain_float_cases (x : Binary64) : (∃ y, (Value.float x).plain = .float y) ∨
    (∃ n, (Value.float x).plain = .unsigned n) ∨ ∃ n, (Value.float x).plain = .negative n := by
  rw [Value.plain]
  split
  · exact .inl ⟨_, rfl⟩
  split
  · rw [Value.ofInt]
    split
    · exact .inr (.inl ⟨_, rfl⟩)
    · exact .inr (.inr ⟨_, rfl⟩)
  · exact .inl ⟨_, rfl⟩

/-- What occurs in the plain item is a plain part of the item. -/
theorem occurs_plain {v w : Value} (h : Occurs w v.plain) : ∃ u, Occurs u v ∧ u.plain = w := by
  induction v using Value.induction generalizing w with
  | float x =>
    refine ⟨.float x, .self _, ?_⟩
    rcases plain_float_cases x with ⟨y, hy⟩ | ⟨n, hn⟩ | ⟨n, hn⟩
    · rw [hy] at h ⊢; cases h; rfl
    · rw [hn] at h ⊢; cases h; rfl
    · rw [hn] at h ⊢; cases h; rfl
  | array items ih =>
    rw [Value.plain, Value.plainItems_eq] at h
    cases h with
    | self => exact ⟨.array items, .self _, by rw [Value.plain, Value.plainItems_eq]⟩
    | item hm h =>
      obtain ⟨v, hv, rfl⟩ := List.mem_map.1 hm
      obtain ⟨u, hu, rfl⟩ := ih v hv h
      exact ⟨u, .item hv hu, rfl⟩
  | map entries ih =>
    rw [Value.plain, Value.plainEntries_eq] at h
    cases h with
    | self => exact ⟨.map entries, .self _, by rw [Value.plain, Value.plainEntries_eq]⟩
    | key hm h =>
      obtain ⟨e, he, rfl⟩ := List.mem_map.1 hm
      obtain ⟨u, hu, rfl⟩ := (ih e he).1 h
      exact ⟨u, .key he hu, rfl⟩
    | value hm h =>
      obtain ⟨e, he, rfl⟩ := List.mem_map.1 hm
      obtain ⟨u, hu, rfl⟩ := (ih e he).2 h
      exact ⟨u, .value he hu, rfl⟩
  | tag number content ih =>
    rw [Value.plain] at h
    cases h with
    | self => exact ⟨.tag number content, .self _, rfl⟩
    | tagged h =>
      obtain ⟨u, hu, rfl⟩ := ih h
      exact ⟨u, .tagged hu, rfl⟩
  | _ => cases h; exact ⟨_, .self _, rfl⟩

theorem Occurs.plain {u v : Value} (h : Occurs u v) : Occurs u.plain v.plain := by
  induction h with
  | self => exact .self _
  | item hm _ ih =>
    rw [Value.plain, Value.plainItems_eq]
    exact .item (List.mem_map_of_mem hm) ih
  | @key e _ hm _ ih =>
    rw [Value.plain, Value.plainEntries_eq]
    exact .key (e := (e.1.plain, e.2.plain)) (List.mem_map.2 ⟨e, hm, rfl⟩) ih
  | @value e _ hm _ ih =>
    rw [Value.plain, Value.plainEntries_eq]
    exact .value (e := (e.1.plain, e.2.plain)) (List.mem_map.2 ⟨e, hm, rfl⟩) ih
  | tagged _ ih => exact .tagged ih

theorem plain_of_plain_eq_float {u : Value} {x : Binary64} (h : u.plain = .float x) : x.Plain := by
  cases u with
  | float y =>
    rw [Value.plain] at h
    split at h
    · cases h
      exact ⟨by decide, fun _ => rfl⟩
    next hnan =>
    split at h
    · unfold Value.ofInt at h
      split at h <;> cases h
    · next hwhole =>
      cases h
      exact ⟨hwhole, fun hn => absurd hn hnan⟩
  | array | map | tag => rw [Value.plain] at h; cases h
  | _ => cases h

theorem plain_plain (v : Value) : v.plain.Plain := by
  intro x hx
  obtain ⟨u, -, hu⟩ := occurs_plain hx
  exact plain_of_plain_eq_float hu

theorem sized_plain {v : Value} (h : v.Sized) : v.plain.Sized := by
  intro w hw
  obtain ⟨u, hu, rfl⟩ := occurs_plain hw
  have hextent : u.plain.extent = u.extent := by
    cases u with
    | float x =>
      rcases plain_float_cases x with ⟨y, hy⟩ | ⟨n, hn⟩ | ⟨n, hn⟩ <;> simp [*, Value.extent]
    | array items => simp [Value.plain, Value.extent]
    | map entries => simp [Value.plain, Value.extent]
    | tag number content => rfl
    | _ => rfl
  rw [hextent]
  exact h u hu

theorem inRange_plain {v : Value} : v.plain.InRange ↔ v.InRange := by
  constructor
  · intro h w hw n hn
    refine h _ hw.plain n ?_
    cases w <;> first | exact hn | cases hn
  · intro h w hw n hn
    obtain ⟨u, hu, rfl⟩ := occurs_plain hw
    cases u with
    | float x =>
      rw [Value.plain] at hn
      split at hn
      · cases hn
      split at hn
      · next m hm =>
        obtain ⟨-, -, hl, hr⟩ := Binary64.whole?_eq_some_iff.1 hm
        rw [toInt?_ofInt (by omega) (by omega), Option.some.injEq] at hn
        omega
      · cases hn
    | array | map | tag => rw [Value.plain] at hn; cases hn
    | _ => exact h _ hu n hn

/-- A reordered item has the same integers, floats and lengths. -/
theorem Settles.leaf {v w : Value} (h : Settles v w) :
    (∀ n, v.toInt? = some n → w.toInt? = some n) ∧ (∀ x, v = .float x → w = .float x) ∧
      v.extent = w.extent := by
  cases h with
  | array h => exact ⟨nofun, nofun, h.length_eq⟩
  | map hp h => exact ⟨nofun, nofun, hp.length_eq.trans h.length_eq⟩
  | tag => exact ⟨nofun, nofun, rfl⟩
  | _ => exact ⟨fun _ => id, fun _ => id, rfl⟩

theorem Settles.plain {v w : Value} (h : Settles v w) (hv : v.Plain) : w.Plain := by
  intro x hx
  obtain ⟨u, hu, hs⟩ := h.symm.occurs hx
  rw [hs.leaf.2.1 x rfl] at hu
  exact hv x hu

theorem Settles.inRange {v w : Value} (h : Settles v w) (hv : v.InRange) : w.InRange := by
  intro u hu n hn
  obtain ⟨u', hu', hs⟩ := h.symm.occurs hu
  exact hv u' hu' n (hs.leaf.1 n hn)

/-- The bytes of a plain item are an item that stands for a reordered one. -/
theorem exists_denotes {v : Value} {bs : Bytes} (h : encode v = .ok bs) (hp : v.Plain)
    (hs : v.Sized) : ∃ v', Settles v v' ∧ Denotes bs v' := by
  have hlen := hs v (.self v)
  induction v using Value.induction generalizing bs with
  | null => cases h; exact ⟨_, .null, .null⟩
  | bool b => cases h; exact ⟨_, .bool b, .bool b⟩
  | unsigned n => cases h; exact ⟨_, .unsigned n, .unsigned n⟩
  | negative n => cases h; exact ⟨_, .negative n, .negative n⟩
  | bytes data => cases h; exact ⟨_, .bytes data, .bytes hlen⟩
  | text s => cases h; exact ⟨_, .text s, .text hlen⟩
  | float x =>
    obtain ⟨info, width, F, word, hf, hw, hc, he⟩ := exists_word (hp x (.self _))
    rw [encode, he, Except.ok.injEq] at h
    subst h
    exact ⟨_, .float x, .float hf hw hc⟩
  | tag number content _ => cases h
  | array items ih =>
    obtain ⟨parts, hparts, rfl⟩ := encode_array_iff.1 h
    obtain ⟨items', hsettles, hd⟩ := exists_forall₂ hparts fun v hv part _ he =>
      ih v hv he (fun x hx => hp x (.item hv hx)) (fun w hw => hs w (.item hv hw))
        (hs v (.item hv (.self v)))
    have hlength := hsettles.length_eq
    rw [hlength]
    exact ⟨_, .array hsettles, .array (hlength ▸ hlen) hd⟩
  | map entries ih =>
    obtain ⟨moved, pairs, hperm, hpairs, hchain, rfl⟩ := encode_map_iff.1 h
    obtain ⟨entries', hsettles, hd⟩ :
        ∃ entries', List.Forall₂ SettlesEntry moved entries' ∧
          List.Forall₂ DenotesEntry pairs entries' :=
      exists_forall₂ hpairs fun e he p _ hencode => by
        have he := hperm.mem_iff.2 he
        obtain ⟨k, hk, hkd⟩ := (ih e he).1 hencode.1 (fun x hx => hp x (.key he hx))
          (fun w hw => hs w (.key he hw)) (hs _ (.key he (.self _)))
        obtain ⟨v, hv, hvd⟩ := (ih e he).2 hencode.2 (fun x hx => hp x (.value he hx))
          (fun w hw => hs w (.value he hw)) (hs _ (.value he (.self _)))
        exact ⟨(k, v), .mk hk hv, .mk hkd hvd⟩
    have hlength := hperm.length_eq.trans hsettles.length_eq
    rw [hlength]
    exact ⟨_, .map hperm hsettles, .map (hlength ▸ hlen) hd hchain⟩

/-- An item without floats that has no integer below -2^63. -/
structure Readable (v : Value) : Prop where
  noFloat : ∀ x, ¬ Occurs (.float x) v
  inRange : ∀ n, Occurs (.negative n) v → n.toNat < 2 ^ 63

theorem Readable.toInRange {v : Value} (h : Readable v) : v.InRange := by
  intro w hw n hn
  cases w with
  | unsigned m => cases hn; omega
  | negative m =>
    have := h.inRange m hw
    cases hn
    omega
  | _ => cases hn

theorem decode_encode_of_sized {v : Value} {bs : Bytes} (h : encode v = .ok bs) (hr : Readable v)
    (hs : v.Sized) : ∃ v', Settles v v' ∧ decode bs = .ok v' := by
  obtain ⟨v', hv, hd⟩ := exists_denotes h (fun x hx => absurd hx (hr.noFloat x)) hs
  exact ⟨v', hv, hd.decode.1 (hv.inRange hr.toInRange)⟩

/-- An item that has a byte form is decoded from it. -/
theorem decode_encode {v : Value} {bs : Bytes} (h : encode v = .ok bs) (hr : Readable v)
    (hl : bs.length < 2 ^ 64) : ∃ v', Settles v v' ∧ decode bs = .ok v' :=
  decode_encode_of_sized h hr (sized_of_encode h hl)

end ObjectGraph.Cbor
