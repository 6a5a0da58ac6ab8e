import ObjectGraph.Proofs.Cbor.Encode
import ObjectGraph.Proofs.Cbor.Float

/-! The items that can stand in a record, as a grammar of their bytes. An item ends where its own
bytes say so and stands for one value (`Denotes.unique`), and its bytes are the ones that are
written for that value (`Denotes.encode`). -/
namespace ObjectGraph.Cbor

mutual
/-- The bytes are an item that stands for this value. -/
inductive Denotes : Bytes → Value → Prop
  | null : Denotes [0xf6] .null
  | bool (b : Bool) : Denotes [if b then 0xf5 else 0xf4] (.bool b)
  | unsigned (n : UInt64) : Denotes (head 0 n.toNat) (.unsigned n)
  | negative (n : UInt64) : Denotes (head 1 n.toNat) (.negative n)
  | float {info width word : Nat} {F : FloatFormat} {x : Binary64} : FloatForm info width F →
      word < 2 * F.signBit → checkFloat F word = .ok x →
      Denotes (initialByte 7 info :: Bytes.ofNatBE width word) (.float x)
  | bytes {data : Bytes} : data.length < 2 ^ 64 →
      Denotes (head 2 data.length ++ data) (.bytes data)
  | text {s : String} : (Utf8.ofString s).length < 2 ^ 64 →
      Denotes (head 3 (Utf8.ofString s).length ++ Utf8.ofString s) (.text s)
  | array {parts : List Bytes} {items : List Value} : items.length < 2 ^ 64 →
      List.Forall₂ Denotes parts items →
      Denotes (head 4 items.length ++ parts.flatten) (.array items)
  | map {pairs : List (Bytes × Bytes)} {entries : List (Value × Value)} :
      entries.length < 2 ^ 64 → List.Forall₂ DenotesEntry pairs entries →
      (pairs.map Prod.fst).IsChain (· < ·) →
      Denotes (head 5 entries.length ++ (pairs.map fun p => p.1 ++ p.2).flatten) (.map entries)

inductive DenotesEntry : Bytes × Bytes → Value × Value → Prop
  | mk {p : Bytes × Bytes} {e : Value × Value} : Denotes p.1 e.1 → Denotes p.2 e.2 →
      DenotesEntry p e
end

def Value.major : Value → Nat
  | .unsigned _ => 0
  | .negative _ => 1
  | .bytes _ => 2
  | .text _ => 3
  | .array _ => 4
  | .map _ => 5
  | .tag _ _ => 6
  | .null | .bool _ | .float _ => 7

theorem Denotes.first {bs : Bytes} {v : Value} (h : Denotes bs v) :
    ∃ b tail, bs = b :: tail ∧ b.toNat / 32 = v.major := by
  have behind {major n : Nat} {payload : Bytes} (hm : major < 8) :
      ∃ b tail, head major n ++ payload = b :: tail ∧ b.toNat / 32 = major := by
    obtain ⟨b, bytes, hh, hb⟩ := head_first major hm n
    exact ⟨b, bytes ++ payload, by rw [hh, List.cons_append], hb⟩
  cases h with
  | null => exact ⟨_, _, rfl, rfl⟩
  | bool b => cases b <;> exact ⟨_, _, rfl, rfl⟩
  | unsigned n => exact head_first 0 (by omega) _
  | negative n => exact head_first 1 (by omega) _
  | float hf => exact ⟨_, _, rfl, initialByte_major (by omega) hf.info_lt⟩
  | bytes | text | array | map => exact behind (by omega)

theorem Denotes.major_eq {bs cs rest rest' : Bytes} {v w : Value} (h : Denotes bs v)
    (h' : Denotes cs w) (he : bs ++ rest = cs ++ rest') : v.major = w.major := by
  obtain ⟨b, tail, rfl, hb⟩ := h.first
  obtain ⟨c, tail', rfl, hc⟩ := h'.first
  rw [List.cons_append, List.cons_append, List.cons.injEq] at he
  rw [← hb, ← hc, he.1]

/-- Where these bytes stand, no other bytes are an item, and it stands for this value. -/
def Unambiguous (bs : Bytes) (v : Value) : Prop :=
  ∀ cs w rest rest', Denotes cs w → bs ++ rest = cs ++ rest' → bs = cs ∧ v = w ∧ rest = rest'

theorem unambiguous_all {parts parts' : List Bytes} {items items' : List Value}
    (h : List.Forall₂ Unambiguous parts items) (h' : List.Forall₂ Denotes parts' items')
    (hl : items.length = items'.length) {rest rest' : Bytes}
    (he : parts.flatten ++ rest = parts'.flatten ++ rest') :
    parts = parts' ∧ items = items' ∧ rest = rest' := by
  induction h generalizing parts' items' with
  | nil =>
    cases h' with
    | nil => exact ⟨rfl, rfl, he⟩
    | cons _ _ => cases hl
  | cons hp _ ih =>
    cases h' with
    | nil => cases hl
    | cons hd hds =>
      rw [List.flatten_cons, List.flatten_cons, List.append_assoc, List.append_assoc] at he
      obtain ⟨rfl, rfl, he⟩ := hp _ _ _ _ hd he
      obtain ⟨rfl, rfl, rfl⟩ := ih hds (Nat.succ.inj hl) he
      exact ⟨rfl, rfl, rfl⟩

theorem unambiguous_each {pairs pairs' : List (Bytes × Bytes)}
    {entries entries' : List (Value × Value)}
    (h : List.Forall₂ (fun p e => Unambiguous p.1 e.1 ∧ Unambiguous p.2 e.2) pairs entries)
    (h' : List.Forall₂ DenotesEntry pairs' entries') (hl : entries.length = entries'.length)
    {rest rest' : Bytes} (he : (pairs.map fun p => p.1 ++ p.2).flatten ++ rest =
      (pairs'.map fun p => p.1 ++ p.2).flatten ++ rest') :
    pairs = pairs' ∧ entries = entries' ∧ rest = rest' := by
  induction h generalizing pairs' entries' with
  | nil =>
    cases h' with
    | nil => exact ⟨rfl, rfl, he⟩
    | cons _ _ => cases hl
  | cons hp _ ih =>
    cases h' with
    | nil => cases hl
    | cons hd hds =>
      obtain ⟨hk, hv⟩ := hd
      simp only [List.map_cons, List.flatten_cons, List.append_assoc] at he
      obtain ⟨hkey, hkey', he⟩ := hp.1 _ _ _ _ hk he
      obtain ⟨hvalue, hvalue', he⟩ := hp.2 _ _ _ _ hv he
      obtain ⟨rfl, rfl, rfl⟩ := ih hds (Nat.succ.inj hl) he
      exact ⟨by rw [Prod.ext hkey hvalue], by rw [Prod.ext hkey' hvalue'], rfl⟩

theorem FloatForm.unique {info width width' : Nat} {F F' : FloatFormat}
    (h : FloatForm info width F) (h' : FloatForm info width' F') : width = width' ∧ F = F' := by
  cases h <;> cases h' <;> exact ⟨rfl, rfl⟩

theorem unambiguous_float {info width word : Nat} {F : FloatFormat} {x : Binary64}
    (hf : FloatForm info width F) (hw : word < 2 * F.signBit) (hc : checkFloat F word = .ok x) :
    Unambiguous (initialByte 7 info :: Bytes.ofNatBE width word) (.float x) := by
  intro cs w rest rest' hd he
  have hmajor := (Denotes.float hf hw hc).major_eq hd he
  rw [List.cons_append] at he
  cases w with
  | null =>
    cases hd
    have hbyte := (List.cons.inj he).1
    cases hf <;> exact absurd hbyte (by decide)
  | bool b =>
    cases hd
    have hbyte := (List.cons.inj he).1
    cases hf <;> cases b <;> exact absurd hbyte (by decide)
  | float y =>
    cases hd with
    | @float info' width' word' F' _ hf' hw' hc' =>
      obtain ⟨hbyte, htail⟩ := List.cons.inj he
      have hinfo := congrArg (fun b => b.toNat % 32) hbyte
      simp only [initialByte_info hf.info_lt, initialByte_info hf'.info_lt] at hinfo
      subst hinfo
      obtain ⟨rfl, rfl⟩ := hf.unique hf'
      obtain ⟨hword, hrest⟩ := List.append_inj htail (by simp)
      have hnumber := congrArg Bytes.toNatBE hword
      rw [Bytes.toNatBE_ofNatBE (hf.words ▸ hw), Bytes.toNatBE_ofNatBE (hf.words ▸ hw')] at hnumber
      subst hnumber
      rw [hc, Except.ok.injEq] at hc'
      exact ⟨rfl, by rw [hc'], hrest⟩
  | _ => cases hmajor

theorem unambiguous_null : Unambiguous [0xf6] .null := by
  intro cs w rest rest' hd he
  have hmajor := Denotes.null.major_eq hd he
  cases w with
  | null => cases hd; exact ⟨rfl, rfl, List.append_cancel_left he⟩
  | bool b => cases hd; cases b <;> cases he
  | float y =>
    cases hd with
    | float hf _ _ =>
      have hbyte := (List.cons.inj he).1
      cases hf <;> exact absurd hbyte (by decide)
  | _ => cases hmajor

theorem unambiguous_bool (b : Bool) : Unambiguous [if b then 0xf5 else 0xf4] (.bool b) := by
  intro cs w rest rest' hd he
  have hmajor := (Denotes.bool b).major_eq hd he
  cases w with
  | null => cases hd; cases b <;> cases he
  | bool c => cases hd; cases b <;> cases c <;> cases he <;> exact ⟨rfl, rfl, rfl⟩
  | float y =>
    cases hd with
    | float hf _ _ =>
      have hbyte := (List.cons.inj he).1
      cases hf <;> cases b <;> exact absurd hbyte (by decide)
  | _ => cases hmajor

/-- Whole numbers of either sign, as there are no other items of their major types. -/
theorem unambiguous_integer {major : Nat} {item : UInt64 → Value}
    (hi : ∀ n, Denotes (head major n.toNat) (item n))
    (hinv : ∀ {cs w n}, Denotes cs w → (item n).major = w.major →
      ∃ m, cs = head major m.toNat ∧ w = item m) (n : UInt64) :
    Unambiguous (head major n.toNat) (item n) := by
  intro cs w rest rest' hd he
  obtain ⟨m, rfl, rfl⟩ := hinv hd ((hi n).major_eq hd he)
  obtain ⟨hn, hrest⟩ := head_append_inj n.toNat_lt m.toNat_lt he
  obtain rfl := UInt64.toNat_inj.1 hn
  exact ⟨rfl, rfl, hrest⟩

theorem unambiguous_unsigned (n : UInt64) : Unambiguous (head 0 n.toNat) (.unsigned n) := by
  refine unambiguous_integer .unsigned (fun hd hmajor => ?_) n
  cases hd with
  | unsigned m => exact ⟨m, rfl, rfl⟩
  | _ => cases hmajor

theorem unambiguous_negative (n : UInt64) : Unambiguous (head 1 n.toNat) (.negative n) := by
  refine unambiguous_integer .negative (fun hd hmajor => ?_) n
  cases hd with
  | negative m => exact ⟨m, rfl, rfl⟩
  | _ => cases hmajor

theorem unambiguous_bytes {data : Bytes} (hl : data.length < 2 ^ 64) :
    Unambiguous (head 2 data.length ++ data) (.bytes data) := by
  intro cs w rest rest' hd he
  have hmajor := (Denotes.bytes hl).major_eq hd he
  cases w with
  | bytes data' =>
    cases hd with | bytes hl' =>
    rw [List.append_assoc, List.append_assoc] at he
    obtain ⟨hn, he⟩ := head_append_inj hl hl' he
    obtain ⟨rfl, hrest⟩ := List.append_inj he hn
    exact ⟨rfl, rfl, hrest⟩
  | _ => cases hmajor

theorem unambiguous_text {s : String} (hl : (Utf8.ofString s).length < 2 ^ 64) :
    Unambiguous (head 3 (Utf8.ofString s).length ++ Utf8.ofString s) (.text s) := by
  intro cs w rest rest' hd he
  have hmajor := (Denotes.text hl).major_eq hd he
  cases w with
  | text s' =>
    cases hd with | text hl' =>
    rw [List.append_assoc, List.append_assoc] at he
    obtain ⟨hn, he⟩ := head_append_inj hl hl' he
    obtain ⟨hbytes, hrest⟩ := List.append_inj he hn
    have htext := Utf8.toText_ofString s
    rw [hbytes, Utf8.toText_ofString, Except.ok.injEq] at htext
    subst htext
    exact ⟨rfl, rfl, hrest⟩
  | _ => cases hmajor

/-- An array is unambiguous if its items are: they are as many as its head says. -/
theorem unambiguous_array {parts : List Bytes} {items : List Value} (hl : items.length < 2 ^ 64)
    (hp : List.Forall₂ Denotes parts items) (h : List.Forall₂ Unambiguous parts items) :
    Unambiguous (head 4 items.length ++ parts.flatten) (.array items) := by
  intro cs w rest rest' hd he
  have hmajor := (Denotes.array hl hp).major_eq hd he
  cases w with
  | array items' =>
    cases hd with | array hl' hp' =>
    rw [List.append_assoc, List.append_assoc] at he
    obtain ⟨hn, he⟩ := head_append_inj hl hl' he
    obtain ⟨rfl, rfl, hrest⟩ := unambiguous_all h hp' hn he
    exact ⟨rfl, rfl, hrest⟩
  | _ => cases hmajor

theorem unambiguous_map {pairs : List (Bytes × Bytes)} {entries : List (Value × Value)}
    (hl : entries.length < 2 ^ 64) (hp : List.Forall₂ DenotesEntry pairs entries)
    (hs : (pairs.map Prod.fst).IsChain (· < ·))
    (h : List.Forall₂ (fun p e => Unambiguous p.1 e.1 ∧ Unambiguous p.2 e.2) pairs entries) :
    Unambiguous (head 5 entries.length ++ (pairs.map fun p => p.1 ++ p.2).flatten)
      (.map entries) := by
  intro cs w rest rest' hd he
  have hmajor := (Denotes.map hl hp hs).major_eq hd he
  cases w with
  | map entries' =>
    cases hd with | map hl' hp' _ =>
    rw [List.append_assoc, List.append_assoc] at he
    obtain ⟨hn, he⟩ := head_append_inj hl hl' he
    obtain ⟨rfl, rfl, hrest⟩ := unambiguous_each h hp' hn he
    exact ⟨rfl, rfl, hrest⟩
  | _ => cases hmajor

/-- An item ends where its own bytes say so, and stands for one value. -/
theorem Denotes.unambiguous {bs : Bytes} {v : Value} (h : Denotes bs v) : Unambiguous bs v := by
  induction v using Value.induction generalizing bs with
  | tag number content _ => cases h
  | null => cases h; exact unambiguous_null
  | bool b => cases h; exact unambiguous_bool b
  | unsigned n => cases h; exact unambiguous_unsigned n
  | negative n => cases h; exact unambiguous_negative n
  | float x =>
    cases h with
    | float hf hw hc => exact unambiguous_float hf hw hc
  | bytes data =>
    cases h with
    | bytes hl => exact unambiguous_bytes hl
  | text s =>
    cases h with
    | text hl => exact unambiguous_text hl
  | array items ih =>
    cases h with | array hl hp =>
    exact unambiguous_array hl hp (forall₂_of_mem hp fun _ _ v hv hd => ih v hv hd)
  | map entries ih =>
    cases h with | map hl hp hs =>
    refine unambiguous_map hl hp hs (forall₂_of_mem hp fun _ _ e he hd => ?_)
    obtain ⟨hk, hv⟩ := hd
    exact ⟨(ih e he).1 hk, (ih e he).2 hv⟩

theorem Denotes.unique {bs : Bytes} {v w : Value} (h : Denotes bs v) (h' : Denotes bs w) : v = w :=
  (h.unambiguous bs w [] [] h' rfl).2.1

/-- What occurs in an item is an item of its own. -/
theorem Denotes.occurs {bs : Bytes} {v w : Value} (h : Denotes bs v) (ho : Occurs w v) :
    ∃ part, Denotes part w := by
  induction ho generalizing bs with
  | self => exact ⟨bs, h⟩
  | item hm _ ih =>
    cases h with | array _ hp =>
    obtain ⟨part, -, hd⟩ := exists_left_of_mem hp hm
    exact ih hd
  | key hm _ ih =>
    cases h with | map _ hp _ =>
    obtain ⟨p, -, hk, hv⟩ := exists_left_of_mem hp hm
    exact ih hk
  | value hm _ ih =>
    cases h with | map _ hp _ =>
    obtain ⟨p, -, hk, hv⟩ := exists_left_of_mem hp hm
    exact ih hv
  | tagged _ _ => cases h

theorem Denotes.sized {bs : Bytes} {v : Value} (h : Denotes bs v) : v.Sized := by
  intro w hw
  obtain ⟨part, hd⟩ := h.occurs hw
  cases hd with
  | bytes hl | text hl | array hl _ | map hl _ _ => exact hl
  | _ => exact Nat.two_pow_pos 64

/-- Every not-a-number in the item is the one that is written for all of them. -/
def Value.Quiet (v : Value) : Prop := ∀ x, Occurs (.float x) v → x.isNaN → x = .nan

/-- The bytes of an item are written for the value that they stand for. -/
theorem Denotes.encode {bs : Bytes} {v : Value} (h : Denotes bs v) (hq : v.Quiet) :
    Cbor.encode v = .ok bs := by
  induction v using Value.induction generalizing bs with
  | tag number content _ => cases h
  | null => cases h; rfl
  | bool b => cases h; rfl
  | unsigned n => cases h; rfl
  | negative n => cases h; rfl
  | bytes data => cases h; rfl
  | text s => cases h; rfl
  | float x =>
    cases h with | float hf hw hc =>
    rw [Cbor.encode, encodeFloat_of_checkFloat hf hw hc (hq _ (.self _))]
  | array items ih =>
    cases h with | array hl hp =>
    refine encode_array_iff.2 ⟨_, List.Forall₂.flip ?_, rfl⟩
    exact forall₂_of_mem hp fun _ _ v hv hd => ih v hv hd fun x hx => hq x (.item hv hx)
  | map entries ih =>
    cases h with | map hl hp hs =>
    refine encode_map_iff.2 ⟨entries, _, .refl _, List.Forall₂.flip ?_, hs, rfl⟩
    refine forall₂_of_mem hp fun _ _ e he hd => ?_
    obtain ⟨hk, hv⟩ := hd
    constructor
    · exact (ih e he).1 hk fun x hx => hq x (.key he hx)
    · exact (ih e he).2 hv fun x hx => hq x (.value he hx)

end ObjectGraph.Cbor
