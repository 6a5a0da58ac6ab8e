import ObjectGraph.Proofs.Cbor.Encode
import ObjectGraph.Proofs.Cbor.Float

/-! When two items mean the same: up to the order of map entries, with whole floats read as
integers and not-a-numbers not told apart (`Equivalent`). Items that mean the same have the same
bytes (`Equivalent.encode`). -/
namespace ObjectGraph.Cbor

mutual
/-- The second item is the first one with the entries of its maps in another order. -/
inductive Settles : Value → Value → Prop
  | null : Settles .null .null
  | bool (b : Bool) : Settles (.bool b) (.bool b)
  | unsigned (n : UInt64) : Settles (.unsigned n) (.unsigned n)
  | negative (n : UInt64) : Settles (.negative n) (.negative n)
  | float (x : Binary64) : Settles (.float x) (.float x)
  | bytes (bs : Bytes) : Settles (.bytes bs) (.bytes bs)
  | text (s : String) : Settles (.text s) (.text s)
  | array {items items' : List Value} :
      List.Forall₂ Settles items items' → Settles (.array items) (.array items')
  | map {entries moved entries' : List (Value × Value)} : entries.Perm moved →
      List.Forall₂ SettlesEntry moved entries' → Settles (.map entries) (.map entries')
  | tag (number : UInt64) {content content' : Value} : Settles content content' →
      Settles (.tag number content) (.tag number content')

inductive SettlesEntry : Value × Value → Value × Value → Prop
  | mk {e f : Value × Value} : Settles e.1 f.1 → Settles e.2 f.2 → SettlesEntry e f
end

theorem Settles.refl (v : Value) : Settles v v := by
  induction v using Value.induction with
  | array items ih => exact .array (List.forall₂_same.2 ih)
  | map entries ih =>
    exact .map (.refl _) (List.forall₂_same.2 fun e he => .mk (ih e he).1 (ih e he).2)
  | tag number content ih => exact .tag number ih
  | _ => constructor

theorem Settles.symm {v w : Value} (h : Settles v w) : Settles w v := by
  induction v using Value.induction generalizing w with
  | array items ih =>
    cases h with | array h =>
    exact .array (List.Forall₂.flip (forall₂_of_mem h fun v hv _ _ hs => ih v hv hs))
  | map entries ih =>
    cases h with | @map _ moved entries' hp h =>
    have hback : List.Forall₂ SettlesEntry entries' moved :=
      List.Forall₂.flip (forall₂_of_mem h fun e he _ _ hs => by
        obtain ⟨hk, hv⟩ := hs
        have he := hp.mem_iff.2 he
        exact .mk ((ih e he).1 hk) ((ih e he).2 hv))
    obtain ⟨moved', hp', h'⟩ := exists_perm_forall₂ hback hp.symm
    exact .map hp' h'
  | tag number content ih =>
    cases h with | tag _ h =>
    exact .tag number (ih h)
  | _ => cases h; constructor

theorem Settles.trans {u v w : Value} (h : Settles u v) (h' : Settles v w) : Settles u w := by
  induction u using Value.induction generalizing v w with
  | array items ih =>
    cases h with | array h =>
    cases h' with | array h' =>
    exact .array (forall₂_comp_of_mem h h' fun v hv _ _ _ hs hs' => ih v hv hs hs')
  | map entries ih =>
    cases h with | map hp h =>
    cases h' with | map hp' h' =>
    -- The second reordering can be made before the entries are replaced.
    obtain ⟨moved, hmoved, hm⟩ := exists_perm_forall₂ h hp'
    have hp := hp.trans hmoved
    refine .map hp (forall₂_comp_of_mem hm h' fun e he _ _ _ hs hs' => ?_)
    obtain ⟨hk, hv⟩ := hs
    obtain ⟨hk', hv'⟩ := hs'
    have he := hp.mem_iff.2 he
    exact .mk ((ih e he).1 hk hk') ((ih e he).2 hv hv')
  | tag number content ih =>
    cases h with | tag _ h =>
    cases h' with | tag _ h' =>
    exact .tag number (ih h h')
  | _ => cases h; exact h'

/-- What occurs in an item occurs in the reordered one, reordered itself. -/
theorem Settles.occurs {v w u : Value} (h : Settles v w) (hu : Occurs u v) :
    ∃ u', Occurs u' w ∧ Settles u u' := by
  induction hu generalizing w with
  | self => exact ⟨w, .self w, h⟩
  | item hm _ ih =>
    cases h with | array h =>
    obtain ⟨v', hm', hs⟩ := exists_right_of_mem h hm
    obtain ⟨u', ho, hu⟩ := ih hs
    exact ⟨u', .item hm' ho, hu⟩
  | key hm _ ih =>
    cases h with | map hp h =>
    obtain ⟨e', hm', hk, hv⟩ := exists_right_of_mem h (hp.mem_iff.1 hm)
    obtain ⟨u', ho, hu⟩ := ih hk
    exact ⟨u', .key hm' ho, hu⟩
  | value hm _ ih =>
    cases h with | map hp h =>
    obtain ⟨e', hm', hk, hv⟩ := exists_right_of_mem h (hp.mem_iff.1 hm)
    obtain ⟨u', ho, hu⟩ := ih hv
    exact ⟨u', .value hm' ho, hu⟩
  | tagged _ ih =>
    cases h with | tag _ h =>
    obtain ⟨u', ho, hu⟩ := ih h
    exact ⟨u', .tagged ho, hu⟩

/-- A reordered item has the same bytes. -/
theorem Settles.encode {v w : Value} (h : Settles v w) {bs : Bytes} (he : Cbor.encode v = .ok bs) :
    Cbor.encode w = .ok bs := by
  induction v using Value.induction generalizing w bs with
  | array items ih =>
    cases h with | array h =>
    obtain ⟨parts, hp, rfl⟩ := encode_array_iff.1 he
    refine encode_array_iff.2 ⟨parts, ?_, by rw [h.length_eq]⟩
    have hback : List.Forall₂ (flip Settles) _ items := List.Forall₂.flip h
    exact forall₂_comp_of_mem hback hp fun _ _ v hv _ hs hb => ih v hv hs hb
  | map entries ih =>
    cases h with | map hp h =>
    obtain ⟨moved, pairs, hperm, hpairs, hs, rfl⟩ := encode_map_iff.1 he
    have hback : List.Forall₂ (flip SettlesEntry) _ _ := List.Forall₂.flip h
    obtain ⟨moved', hperm', hmoved⟩ := exists_perm_forall₂ hback (hp.symm.trans hperm)
    refine encode_map_iff.2 ⟨moved', pairs, hperm', ?_, hs, by rw [hp.length_eq, h.length_eq]⟩
    refine forall₂_comp_of_mem hmoved hpairs fun _ _ e he _ hsettles henc => ?_
    obtain ⟨hk, hv⟩ := hsettles
    have he := hperm.mem_iff.2 he
    exact ⟨(ih e he).1 hk henc.1, (ih e he).2 hv henc.2⟩
  | tag number content _ => simp [Cbor.encode] at he
  | _ => cases h; exact he

mutual
/-- The item with whole floats as integers and one not-a-number for all. -/
def Value.plain : Value → Value
  | .float x =>
      if x.isNaN then .float .nan
      else match x.whole? with
        | some n => .ofInt n
        | none => .float x
  | .array items => .array (plainItems items)
  | .map entries => .map (plainEntries entries)
  | .tag number content => .tag number content.plain
  | v => v

def Value.plainItems : List Value → List Value
  | [] => []
  | v :: vs => v.plain :: plainItems vs

def Value.plainEntries : List (Value × Value) → List (Value × Value)
  | [] => []
  | (k, v) :: es => (k.plain, v.plain) :: plainEntries es
end

@[simp] theorem Value.plainItems_eq (items : List Value) : plainItems items = items.map plain := by
  induction items with
  | nil => rfl
  | cons v vs ih => simp [plainItems, ih]

@[simp] theorem Value.plainEntries_eq (entries : List (Value × Value)) :
    plainEntries entries = entries.map fun e => (e.1.plain, e.2.plain) := by
  induction entries with
  | nil => rfl
  | cons e es ih => simp [plainEntries, ih]

theorem encode_ofInt {n : Int} (hl : -2 ^ 63 ≤ n) (hu : n < 2 ^ 63) :
    encode (.ofInt n) = .ok (encodeInt n) := by
  unfold Value.ofInt encodeInt
  split
  · rw [encode, UInt64.toNat_ofNat', Nat.mod_eq_of_lt (by omega)]
  · rw [encode, UInt64.toNat_ofNat', Nat.mod_eq_of_lt (by omega)]

theorem encodeItems_congr {f : Value → Value} {vs : List Value}
    (h : ∀ v ∈ vs, encode (f v) = encode v) (done : List Bytes) :
    encodeItems (vs.map f) done = encodeItems vs done := by
  induction vs generalizing done with
  | nil => rfl
  | cons v vs ih =>
    obtain ⟨hv, hvs⟩ := List.forall_mem_cons.1 h
    simp only [List.map_cons, encodeItems, hv, ih hvs]

theorem encodeEntries_congr {f : Value → Value} {es : List (Value × Value)}
    (h : ∀ e ∈ es, encode (f e.1) = encode e.1 ∧ encode (f e.2) = encode e.2) (done : List Entry) :
    encodeEntries (es.map fun e => (f e.1, f e.2)) done = encodeEntries es done := by
  induction es generalizing done with
  | nil => rfl
  | cons e es ih =>
    obtain ⟨he, hes⟩ := List.forall_mem_cons.1 h
    simp only [List.map_cons, encodeEntries, he.1, he.2, ih hes]

/-- An item is written as if its whole floats were integers. -/
theorem encode_plain (v : Value) : encode v.plain = encode v := by
  induction v using Value.induction with
  | float x =>
    rw [Value.plain]
    split
    · next hnan =>
      simp only [encode, encodeFloat, hnan]
      rfl
    split
    · next n hn =>
      obtain ⟨-, -, hl, hu⟩ := Binary64.whole?_eq_some_iff.1 hn
      rw [encode_ofInt hl hu, encode, encodeFloat_of_whole? hn]
    · rfl
  | array items ih =>
    simp only [Value.plain, Value.plainItems_eq, encode, encodeItems_congr ih, List.length_map]
  | map entries ih =>
    simp only [Value.plain, Value.plainEntries_eq, encode, encodeEntries_congr ih, List.length_map]
  | _ => rfl

/-- The items are equal up to the order of map entries, with every float that is a whole number of
64 signed bits read as that integer and all not-a-numbers taken for one. -/
def Equivalent (v w : Value) : Prop := Settles v.plain w.plain

theorem equivalent_equivalence : Equivalence Equivalent where
  refl _ := .refl _
  symm := .symm
  trans := .trans

/-- Items that mean the same have the same bytes. -/
theorem Equivalent.encode {v w : Value} (h : Equivalent v w) {bs : Bytes}
    (he : Cbor.encode v = .ok bs) : Cbor.encode w = .ok bs := by
  rw [← encode_plain] at he ⊢
  exact Settles.encode h he

end ObjectGraph.Cbor
