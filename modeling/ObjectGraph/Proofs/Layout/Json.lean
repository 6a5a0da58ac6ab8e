import ObjectGraph.Layout.Json
import ObjectGraph.Proofs.Json.Words
import ObjectGraph.Proofs.Layout.Cbor

/-! Values survive their JSON form: they are read back in front of anything that may follow them
(`Shape.readJson_toJson`) and behind blanks (`Shape.readJson_padded`). -/
namespace ObjectGraph

namespace Json

/-- A text that an array may go on with. -/
def Opens (item : Bytes) : Prop := ∃ b bs, item = b :: bs ∧ isBlank b = false ∧ b ≠ 0x5d

/-- A form of values that a reader takes back, one after another. -/
structure Restores {α : Type} (read : Bytes → Except Fault (α × Bytes)) (write : α → Bytes) :
    Prop where
  reads : ∀ x rest, Ends rest → read (write x ++ rest) = .ok (x, rest)
  starts : ∀ x, Opens (write x)

theorem isBlank_of_startsNumber {b : UInt8} (h : startsNumber b = true) :
    isBlank b = false ∧ b ≠ 0x5d ∧ b ≠ 0x6e := by
  have hall : ∀ n < 256, startsNumber (UInt8.ofNat n) = true →
      isBlank (UInt8.ofNat n) = false ∧ UInt8.ofNat n ≠ 0x5d ∧ UInt8.ofNat n ≠ 0x6e := by
    decide +kernel
  have hb := hall b.toNat b.toNat_lt
  rw [UInt8.ofNat_toNat] at hb
  exact hb h

theorem readText_writeString (s : String) (rest : Bytes) :
    readText (writeString s ++ rest) = .ok (s, rest) := by
  rw [writeString_append, readText, skipBlanks_cons rfl]
  exact string_writeString s rest

theorem readWord_writeInt (w : Word) (x : w.Val) {rest : Bytes} (hr : Ends rest) :
    readWord w (writeInt (w.toInt x) ++ rest) = .ok (x, rest) := by
  have hbounds := Shape.toInt_bounds w x
  have hnumber := number_writeInt (n := w.toInt x) (by omega) (by omega) hr
  obtain ⟨b, more, he, hstart⟩ := writeInt_cons (w.toInt x)
  rw [he, List.cons_append] at hnumber ⊢
  unfold readWord
  rw [skipBlanks_cons (isBlank_of_startsNumber hstart).1]
  simp only [if_pos hstart, hnumber, bind, Except.bind, Word.ofInt?_toInt]

def followers (items : List Bytes) : Bytes := items.flatMap fun item => 0x2c :: item

theorem between_cons (opening closing item : Bytes) (items : List Bytes) :
    between opening closing (item :: items) =
      opening ++ (item ++ (followers items ++ closing)) := by
  have hflat : (List.intersperse [0x2c] (item :: items)).flatten = item ++ followers items := by
    induction items generalizing item with
    | nil => simp [followers]
    | cons next items ih =>
      rw [List.intersperse_cons_cons, List.flatten_cons, List.flatten_cons, ih]
      simp [followers]
  unfold between
  rw [hflat]
  simp

theorem ends_followers (items : List Bytes) {rest : Bytes} (h : Ends rest) :
    Ends (followers items ++ rest) := by
  cases items with
  | nil => exact h
  | cons item items => exact ⟨rfl, rfl⟩

theorem nextElement_first {item : Bytes} (h : Opens item) (rest : Bytes) :
    nextElement true (item ++ rest) = .ok (some (item ++ rest)) := by
  obtain ⟨b, bs, rfl, hb, hclose⟩ := h
  rw [List.cons_append, nextElement, skipBlanks_cons hb]
  simp [hclose]

theorem nextElement_comma {item : Bytes} (h : Opens item) (rest : Bytes) :
    nextElement false (0x2c :: (item ++ rest)) = .ok (some (item ++ rest)) := by
  obtain ⟨b, bs, rfl, hb, hclose⟩ := h
  rw [List.cons_append, nextElement, skipBlanks_cons rfl]
  simp [skipBlanks_cons hb, hclose]

theorem followers_cons (item : Bytes) (items : List Bytes) (rest : Bytes) :
    followers (item :: items) ++ rest = 0x2c :: (item ++ (followers items ++ rest)) := by
  simp [followers]

section Elements

variable {α : Type} {read : Bytes → Except Fault (α × Bytes)} {write : α → Bytes}

theorem readElements_followers (h : Restores read write) {xs : List α} {fuel : Nat}
    (hf : xs.length < fuel) (rest : Bytes) (done : List α) :
    readElements read fuel false (followers (xs.map write) ++ 0x5d :: rest) done =
      .ok (done.reverse ++ xs, rest) := by
  induction xs generalizing fuel done with
  | nil =>
    obtain ⟨fuel, rfl, -⟩ := exists_fuel hf
    rw [List.append_nil]
    rfl
  | cons x xs ih =>
    obtain ⟨fuel, rfl, hf⟩ := exists_fuel hf
    have hclose : Ends (0x5d :: rest) := ⟨rfl, rfl⟩
    have hread := h.reads x _ (ends_followers (xs.map write) hclose)
    rw [List.map_cons, followers_cons, readElements, nextElement_comma (h.starts x)]
    simp only [hread]
    rw [ih (by simpa using hf), List.reverse_cons, List.append_assoc, List.singleton_append]

theorem length_le_followers (items : List Bytes) : items.length ≤ (followers items).length := by
  induction items with
  | nil => simp
  | cons item items ih =>
    simp only [followers, List.flatMap_cons, List.length_cons, List.length_append] at ih ⊢
    omega

/-- A list of values is read back, also behind blanks. -/
theorem readList_padded (h : Restores read write) (xs : List α) {ws : Bytes} (hw : Blanks ws)
    (rest : Bytes) :
    readList read (ws ++ (between [0x5b] [0x5d] (xs.map write) ++ rest)) = .ok (xs, rest) := by
  unfold readList
  rw [skipBlanks_append hw]
  cases xs with
  | nil =>
    obtain ⟨fuel, hfuel⟩ : ∃ fuel, (ws ++ (between [0x5b] [0x5d] [] ++ rest)).length = fuel + 1 :=
      ⟨ws.length + 1 + rest.length, by simp [between]; omega⟩
    rw [List.map_nil, hfuel]
    rfl
  | cons x xs =>
    have hclose : Ends (0x5d :: rest) := ⟨rfl, rfl⟩
    have hread := h.reads x _ (ends_followers (xs.map write) hclose)
    have hlen := length_le_followers (xs.map write)
    rw [List.length_map] at hlen
    obtain ⟨fuel, hfuel, hle⟩ : ∃ fuel,
        (ws ++ (between [0x5b] [0x5d] ((x :: xs).map write) ++ rest)).length = fuel + 1 ∧
          xs.length < fuel := by
      rw [List.map_cons, between_cons]
      simp only [List.length_append, List.length_cons]
      exact ⟨_, (Nat.sub_add_cancel (by omega)).symm, by omega⟩
    rw [hfuel, List.map_cons, between_cons, List.singleton_append, List.cons_append,
      skipBlanks_cons rfl]
    simp only [if_true, List.append_assoc, List.singleton_append]
    rw [readElements, nextElement_first (h.starts x)]
    simp only [hread]
    rw [readElements_followers h hle, List.reverse_singleton, List.singleton_append]

end Elements

end Json

namespace Shape

theorem ofString_true : Utf8.ofString "true" = [0x74, 0x72, 0x75, 0x65] := by
  decide

theorem ofString_false : Utf8.ofString "false" = [0x66, 0x61, 0x6c, 0x73, 0x65] := by
  decide

theorem ofString_null : Utf8.ofString "null" = [0x6e, 0x75, 0x6c, 0x6c] := by
  decide

/-- Only an optional value is written as null. -/
theorem toJson_cons (s : Shape) (x : s.Val) :
    ∃ b bs, s.toJson x = b :: bs ∧ Json.isBlank b = false ∧ b ≠ 0x5d ∧
      ((∀ inner, s ≠ .optional inner) → b ≠ 0x6e) := by
  induction s with
  | text => exact ⟨0x22, _, rfl, rfl, by decide, fun _ => by decide⟩
  | bool =>
    cases x with
    | false => exact ⟨0x66, _, ofString_false, rfl, by decide, fun _ => by decide⟩
    | true => exact ⟨0x74, _, ofString_true, rfl, by decide, fun _ => by decide⟩
  | word w =>
    obtain ⟨b, bs, he, hb⟩ := Json.writeInt_cons (w.toInt x)
    obtain ⟨hblank, hclose, hnull⟩ := Json.isBlank_of_startsNumber hb
    exact ⟨b, bs, he, hblank, hclose, fun _ => hnull⟩
  | list item ih => exact ⟨0x5b, _, rfl, rfl, by decide, fun _ => by decide⟩
  | optional item ih =>
    cases x with
    | none => exact ⟨0x6e, _, ofString_null, rfl, by decide, fun h => absurd rfl (h item)⟩
    | some x =>
      obtain ⟨b, bs, he, hb, hclose, -⟩ := ih x
      exact ⟨b, bs, he, hb, hclose, fun h => absurd rfl (h item)⟩

theorem opens_toJson (s : Shape) (x : s.Val) : Json.Opens (s.toJson x) := by
  obtain ⟨b, bs, he, hb, hclose, -⟩ := toJson_cons s x
  exact ⟨b, bs, he, hb, hclose⟩

/-- A value is read back from its text. -/
theorem readJson_toJson {s : Shape} (h : s.Faithful) : Json.Restores s.readJson s.toJson := by
  refine ⟨fun x rest hr => ?_, opens_toJson s⟩
  induction s generalizing rest with
  | text => exact Json.readText_writeString x rest
  | bool =>
    cases x with
    | false => simp only [toJson, ofString_false, Bool.false_eq_true, if_false]; rfl
    | true => simp only [toJson, ofString_true, if_true]; rfl
  | word w => exact Json.readWord_writeInt w x hr
  | list item ih =>
    exact Json.readList_padded ⟨fun y more hm => ih h y more hm, opens_toJson item⟩ x .nil rest
  | optional item ih =>
    cases x with
    | none =>
      simp only [toJson, ofString_null]
      rfl
    | some x =>
      have hread := ih h.1 x rest hr
      obtain ⟨b, bs, he, hb, -, hnull⟩ := toJson_cons item x
      simp only [readJson, toJson]
      rw [he, List.cons_append] at hread ⊢
      unfold Json.readOptional
      rw [Json.skipBlanks_cons hb]
      simp only [if_neg (hnull h.2), hread]
      rfl

/-- A value is read back from behind blanks. -/
theorem readJson_padded {s : Shape} (h : s.Faithful) (x : s.Val) {ws rest : Bytes}
    (hw : Json.Blanks ws) (hr : Json.Ends rest) :
    s.readJson (ws ++ (s.toJson x ++ rest)) = .ok (x, rest) := by
  have hread := (readJson_toJson h).reads x rest hr
  cases s with
  | text => rwa [readJson, Json.readText, Json.skipBlanks_append hw]
  | bool => rwa [readJson, Json.readBool, Json.skipBlanks_append hw]
  | word w => rwa [readJson, Json.readWord, Json.skipBlanks_append hw]
  | optional item => rwa [readJson, Json.readOptional, Json.skipBlanks_append hw]
  | list item => exact Json.readList_padded (readJson_toJson (s := item) h) x hw rest

end Shape

namespace Layout

def member (cell : String × (s : Shape) × s.Val) : Bytes :=
  Json.writeString cell.1 ++ [0x3a] ++ cell.2.1.toJson cell.2.2

theorem members_eq (fs : List Field) (xs : Field.Vals fs) :
    members [0x3a] fs xs = (Field.cells fs xs).map member := by
  induction fs with
  | nil => rfl
  | cons f fs ih => rw [members, ih, Field.cells, List.map_cons, member]

theorem member_append (cell : String × (s : Shape) × s.Val) (rest : Bytes) :
    member cell ++ rest =
      0x22 :: ((Utf8.ofString cell.1).flatMap Json.writeByte ++ 0x22 ::
        (0x3a :: (cell.2.1.toJson cell.2.2 ++ rest))) := by
  simp [member, Json.writeString]

theorem nextKey_member (cell : String × (s : Shape) × s.Val) (rest : Bytes) :
    Json.nextKey true (member cell ++ rest) =
      .ok (some ((Utf8.ofString cell.1).flatMap Json.writeByte ++ 0x22 ::
        (0x3a :: (cell.2.1.toJson cell.2.2 ++ rest)))) := by
  rw [member_append]
  rfl

/-- An object behind its opening brace. -/
theorem body_eq {cell : String × (s : Shape) × s.Val} {cells : List (String × (s : Shape) × s.Val)}
    {body rest : Bytes}
    (h : 0x7b :: body = Json.between [0x7b] [0x7d] ((cell :: cells).map member) ++ rest) :
    body = member cell ++ (Json.followers (cells.map member) ++ 0x7d :: rest) := by
  simpa [Json.between_cons] using h

end Layout
end ObjectGraph
