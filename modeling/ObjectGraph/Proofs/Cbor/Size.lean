import ObjectGraph.Cbor.Metered
import ObjectGraph.Proofs.Cbor.Reading

/-! What reading takes of bytes. Every item in a tree has a byte of its own, so a tree has no more
items than it has bytes, and no more levels (`Denotes.count_le`, `Value.depth_le_count`); and no
count is relied on before it has been compared with the bytes unread (`Metered.checked_readItem`),
whether the bytes are accepted in the end or not (`decode_within`). -/
namespace ObjectGraph.Cbor

theorem Value.countItems_eq (items : List Value) (before : Nat) :
    countItems items before = before + (items.map count).sum := by
  induction items generalizing before with
  | nil => rfl
  | cons v vs ih =>
    rw [countItems, ih, List.map_cons, List.sum_cons]
    omega

theorem Value.countEntries_eq (entries : List (Value × Value)) (before : Nat) :
    countEntries entries before = before + (entries.map fun e => e.1.count + e.2.count).sum := by
  induction entries generalizing before with
  | nil => rfl
  | cons e es ih =>
    rw [countEntries, ih, List.map_cons, List.sum_cons]
    omega

theorem Value.deepestItem_le {n : Nat} {items : List Value} (h : ∀ v ∈ items, v.depth ≤ n)
    {least : Nat} (hl : least ≤ n) : deepestItem items least ≤ n := by
  induction items generalizing least with
  | nil => exact hl
  | cons v vs ih =>
    obtain ⟨hv, hvs⟩ := List.forall_mem_cons.1 h
    exact ih hvs (max_le hl hv)

theorem Value.deepestEntry_le {n : Nat} {entries : List (Value × Value)}
    (h : ∀ e ∈ entries, e.1.depth ≤ n ∧ e.2.depth ≤ n) {least : Nat} (hl : least ≤ n) :
    deepestEntry entries least ≤ n := by
  induction entries generalizing least with
  | nil => exact hl
  | cons e es ih =>
    obtain ⟨he, hes⟩ := List.forall_mem_cons.1 h
    exact ih hes (max_le hl (max_le he.1 he.2))

/-- Every level has an item of its own. -/
theorem Value.depth_le_count (v : Value) : v.depth ≤ v.count := by
  induction v using Value.induction with
  | array items ih =>
    rw [depth, count, countItems_eq, Nat.add_comm]
    refine Nat.add_le_add_left (deepestItem_le (fun v hv => ?_) (Nat.zero_le _)) 1
    exact (ih v hv).trans (List.le_sum_of_mem (List.mem_map_of_mem hv))
  | map entries ih =>
    rw [depth, count, countEntries_eq, Nat.add_comm]
    refine Nat.add_le_add_left (deepestEntry_le (fun e he => ?_) (Nat.zero_le _)) 1
    have hsum : e.1.count + e.2.count ≤ (entries.map fun e => e.1.count + e.2.count).sum :=
      List.le_sum_of_mem (List.mem_map.2 ⟨e, he, rfl⟩)
    have := ih e he
    omega
  | tag number content ih =>
    rw [depth, count]
    exact Nat.add_le_add_right ih 1
  | _ => exact le_rfl

theorem sum_le_length_flatten {α : Type} {f : α → Nat} {parts : List Bytes} {xs : List α}
    (h : List.Forall₂ (fun part x => f x ≤ part.length) parts xs) :
    (xs.map f).sum ≤ parts.flatten.length := by
  induction h with
  | nil => exact le_rfl
  | cons hx _ ih =>
    rw [List.map_cons, List.sum_cons, List.flatten_cons, List.length_append]
    exact Nat.add_le_add hx ih

/-- Every item has a byte of its own. -/
theorem Denotes.count_le {bs : Bytes} {v : Value} (h : Denotes bs v) : v.count ≤ bs.length := by
  induction v using Value.induction generalizing bs with
  | tag number content _ => cases h
  | array items ih =>
    cases h with | @array parts _ _ hp =>
    have hhead := List.length_pos_iff.2 (head_ne_nil 4 items.length)
    have hitems := sum_le_length_flatten (f := Value.count)
      (forall₂_of_mem hp fun part _ v hv hd => ih v hv hd)
    rw [Value.count, Value.countItems_eq, List.length_append]
    exact Nat.add_le_add hhead hitems
  | map entries ih =>
    cases h with | @map pairs _ _ hp _ =>
    have hhead := List.length_pos_iff.2 (head_ne_nil 5 entries.length)
    have hentries := sum_le_length_flatten (f := fun e : Value × Value => e.1.count + e.2.count)
      (List.forall₂_map_left_iff.2 (forall₂_of_mem hp fun p _ e he hd => by
        obtain ⟨hk, hv⟩ := hd
        rw [List.length_append]
        exact Nat.add_le_add ((ih e he).1 hk) ((ih e he).2 hv)))
    rw [Value.count, Value.countEntries_eq, List.length_append]
    exact Nat.add_le_add hhead hentries
  | _ => exact h.length_pos

mutual
/-- The lengths of the strings, arrays and maps in an item, as they come. -/
def Value.sizes : Value → List Nat
  | .bytes bs => [bs.length]
  | .text s => [(Utf8.ofString s).length]
  | .array items => items.length :: sizesItems items
  | .map entries => entries.length :: sizesEntries entries
  | .tag _ content => content.sizes
  | _ => []

def Value.sizesItems : List Value → List Nat
  | [] => []
  | v :: vs => v.sizes ++ sizesItems vs

def Value.sizesEntries : List (Value × Value) → List Nat
  | [] => []
  | (k, v) :: es => k.sizes ++ v.sizes ++ sizesEntries es
end

theorem Value.sizesItems_eq (items : List Value) : sizesItems items = items.flatMap sizes := by
  induction items with
  | nil => rfl
  | cons v vs ih => rw [sizesItems, ih, List.flatMap_cons]

theorem Value.sizesEntries_eq (entries : List (Value × Value)) :
    sizesEntries entries = entries.flatMap fun e => e.1.sizes ++ e.2.sizes := by
  induction entries with
  | nil => rfl
  | cons e es ih => rw [sizesEntries, ih, List.flatMap_cons]

theorem le_of_count {info n : Nat} {bs rest : Bytes} (h : count info bs = .ok (n, rest)) :
    n ≤ rest.length := by
  unfold count at h
  obtain ⟨⟨m, tail⟩, -, h⟩ := bind_eq_ok.1 h
  dsimp only at h
  split at h <;> cases h
  next hn => rwa [Bytes.holds_eq, decide_eq_true_eq] at hn

namespace Metered

variable {α β : Type}

theorem outcome_of (x : Except Error α) : (of x).outcome = x := rfl

theorem outcome_bind (x : Metered α) (f : α → Metered β) :
    (x >>= f).outcome = x.outcome >>= fun a => (f a).outcome := by
  rcases x with ⟨e | a, noted⟩ <;> rfl

theorem outcome_bind_congr {x : Metered α} {f : α → Metered β} {g : α → Except Error β}
    (h : ∀ a, (f a).outcome = g a) : (x >>= f).outcome = x.outcome >>= g :=
  (outcome_bind x f).trans (bind_congr h)

theorem outcome_take (n : Nat) (bs : Bytes) : (take n bs).outcome = Cbor.take n bs := rfl

theorem outcome_readItems (item : Bytes → Metered (Value × Bytes)) (n : Nat) (bs : Bytes)
    (done : List Value) : (readItems item n bs done).outcome =
      Cbor.readItems (fun bs => (item bs).outcome) n bs done := by
  induction n generalizing bs done with
  | zero => rfl
  | succ n ih =>
    rw [readItems, outcome_bind, Cbor.readItems]
    rcases (item bs).outcome with e | ⟨v, rest⟩
    · rfl
    · exact ih rest (v :: done)

theorem outcome_readEntries (item : Bytes → Metered (Value × Bytes)) (n : Nat)
    (last : Option Bytes) (bs : Bytes) (done : List (Value × Value)) :
    (readEntries item n last bs done).outcome =
      Cbor.readEntries (fun bs => (item bs).outcome) n last bs done := by
  induction n generalizing last bs done with
  | zero => rfl
  | succ n ih =>
    rw [readEntries, outcome_bind, Cbor.readEntries]
    rcases (item bs).outcome with e | ⟨k, afterKey⟩
    · rfl
    change (of (checkKey last (bs.before afterKey)) >>= _).outcome = _
    rw [outcome_bind, outcome_of]
    dsimp only
    rcases checkKey last (bs.before afterKey) with e | ⟨⟩
    · rfl
    change (item afterKey >>= _).outcome = _
    rw [outcome_bind]
    rcases (item afterKey).outcome with e | ⟨v, rest⟩
    · rfl
    · exact ih (some (bs.before afterKey)) rest ((k, v) :: done)

theorem outcome_row (item : Bytes → Metered (Value × Bytes)) (n : Nat) (bs : Bytes) :
    (row item n bs).outcome = Cbor.readItems (fun bs => (item bs).outcome) n bs [] :=
  outcome_readItems item n bs []

theorem outcome_table (item : Bytes → Metered (Value × Bytes)) (n : Nat) (bs : Bytes) :
    (table item n bs).outcome = Cbor.readEntries (fun bs => (item bs).outcome) n none bs [] :=
  outcome_readEntries item n none bs []

/-- The account changes nothing about what is read. -/
theorem outcome_readItem (fuel : Nat) (bs : Bytes) :
    (readItem fuel bs).outcome = Cbor.readItem fuel bs := by
  induction fuel generalizing bs with
  | zero => cases bs <;> rfl
  | succ fuel ih =>
    rcases bs with _ | ⟨b, bs⟩
    · rfl
    have hitem : (fun bs => (readItem fuel bs).outcome) = Cbor.readItem fuel := funext ih
    rw [readItem, Cbor.readItem]
    dsimp only
    generalize b.toNat / 32 = major, b.toNat % 32 = info
    rcases major with _ | _ | _ | _ | _ | _ | _ | major
    · exact outcome_bind _ _
    · refine outcome_bind_congr ?_
      rintro ⟨n, rest⟩
      dsimp only
      split <;> rfl
    · refine outcome_bind_congr ?_
      rintro ⟨n, rest⟩
      exact outcome_bind _ _
    · refine outcome_bind_congr ?_
      rintro ⟨n, rest⟩
      refine outcome_bind_congr ?_
      rintro ⟨data, rest⟩
      dsimp only
      cases Utf8.toText data <;> rfl
    · refine outcome_bind_congr ?_
      rintro ⟨n, rest⟩
      dsimp only
      rw [outcome_bind, outcome_row, hitem]
      rfl
    · refine outcome_bind_congr ?_
      rintro ⟨n, rest⟩
      dsimp only
      rw [outcome_bind, outcome_table, hitem]
      rfl
    · rfl
    · rfl

theorem outcome_decode (bs : Bytes) : (decode bs).outcome = Cbor.decode bs := by
  rw [decode, outcome_bind, outcome_readItem, Cbor.decode]
  rcases Cbor.readItem bs.length bs with e | ⟨v, _ | ⟨b, rest⟩⟩ <;> rfl

/-- Every count that is relied on is no greater than the number of bytes unread. -/
def Checked (x : Metered α) : Prop := ∀ r ∈ x.noted, r.count ≤ r.unread

theorem checked_of (x : Except Error α) : (of x).Checked := nofun

theorem checked_rely {n : Nat} {bs : Bytes} (h : n ≤ bs.length) : (rely n bs).Checked := by
  intro r hr
  rw [List.mem_singleton.1 hr]
  exact h

theorem Checked.bind {x : Metered α} {f : α → Metered β} (h : x.Checked)
    (hf : ∀ a, x.outcome = .ok a → (f a).Checked) : (x >>= f).Checked := by
  rcases x with ⟨e | a, noted⟩
  · exact h
  · intro r hr
    rcases List.mem_append.1 hr with hr | hr
    · exact h r hr
    · exact hf a rfl r hr

theorem checked_take {n : Nat} {bs : Bytes} (h : n ≤ bs.length) : (take n bs).Checked :=
  (checked_rely h).bind fun _ _ => checked_of _

section Rows

variable {item : Bytes → Metered (Value × Bytes)} (hitem : ∀ bs, (item bs).Checked)
include hitem

theorem checked_readItems (n : Nat) (bs : Bytes) (done : List Value) :
    (readItems item n bs done).Checked := by
  induction n generalizing bs done with
  | zero => exact checked_of _
  | succ n ih => exact (hitem bs).bind fun ⟨v, rest⟩ _ => ih rest (v :: done)

theorem checked_readEntries (n : Nat) (last : Option Bytes) (bs : Bytes)
    (done : List (Value × Value)) : (readEntries item n last bs done).Checked := by
  induction n generalizing last bs done with
  | zero => exact checked_of _
  | succ n ih =>
    refine (hitem bs).bind fun ⟨k, afterKey⟩ _ => ?_
    refine (checked_of _).bind fun _ _ => ?_
    exact (hitem afterKey).bind fun ⟨v, rest⟩ _ => ih _ rest ((k, v) :: done)

theorem checked_row {n : Nat} {bs : Bytes} (h : n ≤ bs.length) : (row item n bs).Checked :=
  (checked_rely h).bind fun _ _ => checked_readItems hitem n bs []

theorem checked_table {n : Nat} {bs : Bytes} (h : n ≤ bs.length) : (table item n bs).Checked :=
  (checked_rely h).bind fun _ _ => checked_readEntries hitem n none bs []

end Rows

/-- Whatever is relied on has been compared with the bytes unread. -/
theorem checked_readItem (fuel : Nat) (bs : Bytes) : (readItem fuel bs).Checked := by
  induction fuel generalizing bs with
  | zero => cases bs <;> exact checked_of _
  | succ fuel ih =>
    rcases bs with _ | ⟨b, bs⟩
    · exact checked_of _
    rw [readItem]
    dsimp only
    split
    · exact (checked_of _).bind fun _ _ => checked_of _
    · refine (checked_of _).bind fun ⟨n, rest⟩ _ => ?_
      dsimp only
      split <;> exact checked_of _
    · refine (checked_of _).bind fun ⟨n, rest⟩ hn => ?_
      exact (checked_take (le_of_count hn)).bind fun _ _ => checked_of _
    · refine (checked_of _).bind fun ⟨n, rest⟩ hn => ?_
      refine (checked_take (le_of_count hn)).bind fun ⟨data, rest⟩ _ => ?_
      dsimp only
      split <;> exact checked_of _
    · refine (checked_of _).bind fun ⟨n, rest⟩ hn => ?_
      exact (checked_row ih (le_of_count hn)).bind fun _ _ => checked_of _
    · refine (checked_of _).bind fun ⟨n, rest⟩ hn => ?_
      exact (checked_table ih (le_of_count hn)).bind fun _ _ => checked_of _
    · exact checked_of _
    · exact checked_of _

theorem checked_decode (bs : Bytes) : (decode bs).Checked := by
  refine (checked_readItem bs.length bs).bind fun ⟨v, rest⟩ _ => ?_
  split <;> exact checked_of _

/-- A value that is read, and the counts that have been relied on towards it. -/
def Ends (x : Metered α) (P : α → List Nat → Prop) : Prop :=
  ∀ a, x.outcome = .ok a → P a (x.noted.map Reliance.count)

theorem ends_of (x : Except Error α) : (of x).Ends fun _ counts => counts = [] := fun _ _ => rfl

theorem ends_pure {a : α} {P : α → List Nat → Prop} (h : P a []) : (pure a : Metered α).Ends P := by
  rintro _ ⟨⟩
  exact h

theorem ends_error (e : Error) (P : α → List Nat → Prop) : (of (.error e)).Ends P := nofun

theorem Ends.bind {x : Metered α} {f : α → Metered β} {P : α → List Nat → Prop}
    {Q : β → List Nat → Prop} (h : x.Ends P)
    (hf : ∀ a counts, x.outcome = .ok a → P a counts →
      (f a).Ends fun b more => Q b (counts ++ more)) : (x >>= f).Ends Q := by
  rcases x with ⟨e | a, noted⟩
  · nofun
  · intro b hb
    have hnoted : (Metered.mk (.ok a) noted >>= f).noted = noted ++ (f a).noted := rfl
    rw [hnoted, List.map_append]
    exact hf a _ rfl (h a rfl) b hb

theorem ends_take (n : Nat) (bs : Bytes) :
    (take n bs).Ends fun r counts => counts = [r.1.length] := by
  rintro ⟨data, rest⟩ h
  rw [outcome_take] at h
  exact congrArg (fun n => [n]) (take_ok h).2.symm

section Sizes

variable {item : Bytes → Metered (Value × Bytes)}
  (hitem : ∀ bs, (item bs).Ends fun r counts => counts = r.1.sizes)
include hitem

theorem ends_readItems (n : Nat) (bs : Bytes) (done : List Value) :
    (readItems item n bs done).Ends fun r counts => ∃ items, r.1 = done.reverse ++ items ∧
      items.length = n ∧ counts = items.flatMap Value.sizes := by
  induction n generalizing bs done with
  | zero => exact ends_pure ⟨[], by simp, rfl, rfl⟩
  | succ n ih =>
    rw [readItems]
    refine (hitem bs).bind fun ⟨v, rest⟩ counts _ hv => ?_
    intro r hr
    obtain ⟨items, hitems, rfl, hmore⟩ := ih rest (v :: done) r hr
    exact ⟨v :: items, by simp [hitems], rfl, by rw [hv, hmore, List.flatMap_cons]⟩

theorem ends_readEntries (n : Nat) (last : Option Bytes) (bs : Bytes)
    (done : List (Value × Value)) :
    (readEntries item n last bs done).Ends fun r counts => ∃ entries,
      r.1 = done.reverse ++ entries ∧ entries.length = n ∧
        counts = entries.flatMap fun e => e.1.sizes ++ e.2.sizes := by
  induction n generalizing last bs done with
  | zero => exact ends_pure ⟨[], by simp, rfl, rfl⟩
  | succ n ih =>
    rw [readEntries]
    refine (hitem bs).bind fun ⟨k, afterKey⟩ counts _ hk => ?_
    refine (ends_of _).bind fun _ none _ hnone => ?_
    refine (hitem afterKey).bind fun ⟨v, rest⟩ counts' _ hv => ?_
    intro r hr
    obtain ⟨entries, hentries, rfl, hmore⟩ := ih _ rest ((k, v) :: done) r hr
    refine ⟨(k, v) :: entries, by simp [hentries], rfl, ?_⟩
    rw [hk, hnone, hv, hmore, List.flatMap_cons, List.nil_append, List.append_assoc]

theorem ends_row (n : Nat) (bs : Bytes) :
    (row item n bs).Ends fun r counts => counts = (Value.array r.1).sizes := by
  rintro r hr
  obtain ⟨items, hitems, rfl, hcounts⟩ := ends_readItems hitem n bs [] r hr
  rw [Value.sizes, Value.sizesItems_eq, hitems]
  exact congrArg (List.cons _) hcounts

theorem ends_table (n : Nat) (bs : Bytes) :
    (table item n bs).Ends fun r counts => counts = (Value.map r.1).sizes := by
  rintro r hr
  obtain ⟨entries, hentries, rfl, hcounts⟩ := ends_readEntries hitem n none bs [] r hr
  rw [Value.sizes, Value.sizesEntries_eq, hentries]
  exact congrArg (List.cons _) hcounts

end Sizes

theorem sizes_of_readSimple {info : Nat} {bs rest : Bytes} {v : Value}
    (h : readSimple info bs = .ok (v, rest)) : v.sizes = [] := by
  have float {F : FloatFormat} {width : Nat} (h : readFloat F width bs = .ok (v, rest)) :
      v.sizes = [] := by
    obtain ⟨_, -, h⟩ := bind_eq_ok.1 h
    obtain ⟨x, -, h⟩ := bind_eq_ok.1 h
    cases h
    rfl
  unfold readSimple at h
  split at h
  · cases h; rfl
  · cases h; rfl
  · cases h; rfl
  · exact float h
  · exact float h
  · exact float h
  · cases h
  · cases h

/-- Towards a value its lengths are relied on, all of them and nothing else. -/
theorem ends_readItem (fuel : Nat) (bs : Bytes) :
    (readItem fuel bs).Ends fun r counts => counts = r.1.sizes := by
  induction fuel generalizing bs with
  | zero => cases bs <;> exact ends_error _ _
  | succ fuel ih =>
    rcases bs with _ | ⟨b, bs⟩
    · exact ends_error _ _
    rw [readItem]
    dsimp only
    split
    · exact (ends_of _).bind fun _ _ _ hnone => ends_pure (by rw [hnone]; rfl)
    · refine (ends_of _).bind fun ⟨n, rest⟩ _ _ hnone => ?_
      dsimp only
      split
      · exact ends_pure (by rw [hnone]; rfl)
      · exact ends_error _ _
    · refine (ends_of _).bind fun ⟨n, rest⟩ _ _ hnone => ?_
      exact (ends_take n rest).bind fun _ _ _ hdata => ends_pure (by rw [hnone, hdata]; rfl)
    · refine (ends_of _).bind fun ⟨n, rest⟩ _ _ hnone => ?_
      refine (ends_take n rest).bind fun ⟨data, rest⟩ _ _ hdata => ?_
      dsimp only
      split
      · next s hs =>
        exact ends_pure (by rw [hnone, hdata, Value.sizes, Utf8.ofString_of_toText hs]; rfl)
      · exact ends_error _ _
    · refine (ends_of _).bind fun ⟨n, rest⟩ _ _ hnone => ?_
      refine (ends_row ih n rest).bind fun _ _ _ hitems => ends_pure ?_
      rw [hnone, hitems, List.nil_append, List.append_nil]
    · refine (ends_of _).bind fun ⟨n, rest⟩ _ _ hnone => ?_
      refine (ends_table ih n rest).bind fun _ _ _ hentries => ends_pure ?_
      rw [hnone, hentries, List.nil_append, List.append_nil]
    · exact ends_error _ _
    · rintro ⟨v, rest⟩ h
      exact (sizes_of_readSimple h).symm

theorem ends_decode (bs : Bytes) : (decode bs).Ends fun v counts => counts = v.sizes := by
  refine (ends_readItem bs.length bs).bind fun ⟨v, rest⟩ counts _ hv => ?_
  rcases rest with _ | ⟨b, rest⟩
  · exact ends_pure (by rw [hv, List.append_nil])
  · exact ends_error _ _

end Metered

/-- What is read of bytes takes no more than they have. A tree has no more items than it has bytes,
map keys counted, and no more levels; and whether bytes are accepted or not, every count is no
greater than the number of bytes unread when space is reserved for it or a step repeated that often.
Towards a value, these counts are the lengths of its strings, arrays and maps. -/
theorem decode_within (bs : Bytes) :
    (Metered.decode bs).outcome = decode bs ∧
    (∀ r ∈ (Metered.decode bs).noted, r.count ≤ r.unread) ∧
    ∀ v, decode bs = .ok v → v.count ≤ bs.length ∧ v.depth ≤ bs.length ∧
      (Metered.decode bs).noted.map Reliance.count = v.sizes := by
  have houtcome := Metered.outcome_decode bs
  refine ⟨houtcome, Metered.checked_decode bs, fun v hv => ?_⟩
  have hcount := (decode_eq_ok_iff.1 hv).1.count_le
  exact ⟨hcount, v.depth_le_count.trans hcount, Metered.ends_decode bs v (houtcome.trans hv)⟩

/-- A map from a text to an array is accepted; an array that breaks off behind a byte string is not,
when two of its counts have been relied on. -/
theorem decode_within_nested :
    let accepted : Bytes := [0xa1, 0x61, 0x6b, 0x82, 0x01, 0x40]
    let cut : Bytes := [0x82, 0x42, 0x07, 0x08, 0x9b, 0, 0, 0, 1, 0, 0, 0, 0]
    (∃ v, decode accepted = .ok v ∧ v.count = 5 ∧ v.count ≤ 6 ∧ v.depth = 3 ∧ v.depth ≤ 6 ∧
      (Metered.decode accepted).noted.map Reliance.count = [1, 1, 2, 0]) ∧
    decode cut = .error .incomplete ∧
    (Metered.decode cut).noted = [⟨2, 12⟩, ⟨2, 11⟩] ∧
    ∀ r ∈ (Metered.decode cut).noted, r.count ≤ r.unread := by
  intro accepted cut
  have hv : decode accepted = .ok (.map [(.text "k", .array [.unsigned 1, .bytes []])]) := by
    rfl
  obtain ⟨hcount, hdepth, hnoted⟩ := (decode_within accepted).2.2 _ hv
  obtain ⟨-, hchecked, -⟩ := decode_within cut
  refine ⟨⟨_, hv, by decide, hcount, by decide, hdepth, hnoted⟩, ?_, ?_, hchecked⟩
  · rfl
  · decide

end ObjectGraph.Cbor
