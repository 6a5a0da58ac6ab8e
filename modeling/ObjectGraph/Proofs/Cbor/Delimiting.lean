import ObjectGraph.Proofs.Cbor.Reading

/-! Items end where their own bytes say so. Bytes behind the input change nothing for a reader that
did not run out of bytes (`persists_readItem`), so a cut anywhere in an item is found to be one, and
whatever stands behind an item is found to be too much (`decode_delimited`). -/
namespace ObjectGraph.Cbor

variable {more : Bytes}

theorem persists_take (n : Nat) (bs : Bytes) :
    Persists .incomplete more (take n bs) (take n (bs ++ more)) := by
  unfold take
  by_cases hn : n ≤ bs.length
  · have hlong : n ≤ (bs ++ more).length := Nat.le_trans hn (by simp)
    rw [if_pos (by simpa using hn), if_pos (by simpa using hlong), List.take_append_of_le_length hn,
      List.drop_append_of_le_length hn]
    exact .ok _ _
  · rw [if_neg (by simpa using hn)]
    exact .cut _

theorem persists_readUint (width : Nat) (bs : Bytes) :
    Persists .incomplete more (readUint width bs) (readUint width (bs ++ more)) :=
  (persists_take width bs).bind fun _ _ => .ok _ _

theorem persists_readArgument (width least : Nat) (bs : Bytes) :
    Persists .incomplete more (readArgument width least bs)
      (readArgument width least (bs ++ more)) := by
  refine (persists_readUint width bs).bind fun n rest => ?_
  dsimp only
  split
  · exact .ok _ _
  · exact .error _

theorem persists_argument (info : Nat) (bs : Bytes) :
    Persists .incomplete more (argument info bs) (argument info (bs ++ more)) := by
  unfold argument
  split
  · exact .ok _ _
  split
  · exact persists_readArgument 1 _ bs
  · exact persists_readArgument 2 _ bs
  · exact persists_readArgument 4 _ bs
  · exact persists_readArgument 8 _ bs
  · exact .error _
  · exact .error _

/-- A count above the number of bytes left is taken for a cut. -/
theorem persists_count (info : Nat) (bs : Bytes) :
    Persists .incomplete more (count info bs) (count info (bs ++ more)) := by
  refine (persists_argument info bs).bind fun n rest => ?_
  by_cases hn : n ≤ rest.length
  · have hlong : n ≤ (rest ++ more).length := Nat.le_trans hn (by simp)
    simp only [Bytes.holds_eq, hn, hlong, decide_true, if_true]
    exact .ok _ _
  · simp only [Bytes.holds_eq, hn, decide_false, Bool.false_eq_true, if_false]
    exact .cut _

theorem persists_readFloat (F : FloatFormat) (width : Nat) (bs : Bytes) :
    Persists .incomplete more (readFloat F width bs) (readFloat F width (bs ++ more)) := by
  refine (persists_readUint width bs).bind fun word rest => ?_
  cases hc : checkFloat F word with
  | error e =>
    simp only [hc]
    exact .error e
  | ok x =>
    simp only [hc]
    exact .ok _ _

theorem persists_readSimple (info : Nat) (bs : Bytes) :
    Persists .incomplete more (readSimple info bs) (readSimple info (bs ++ more)) := by
  unfold readSimple
  split
  · exact .ok _ _
  · exact .ok _ _
  · exact .ok _ _
  · exact persists_readFloat .half 2 bs
  · exact persists_readFloat .single 4 bs
  · exact persists_readFloat .double 8 bs
  · exact .error _
  · exact .error _

section loops
variable {item item' : Bytes → Except Error (Value × Bytes)}

theorem persists_readItems (hi : ∀ bs, Persists .incomplete more (item bs) (item' (bs ++ more)))
    (n : Nat) (bs : Bytes) (done : List Value) :
    Persists .incomplete more (readItems item n bs done)
      (readItems item' n (bs ++ more) done) := by
  induction n generalizing bs done with
  | zero => exact .ok _ _
  | succ n ih =>
    have hstep := hi bs
    unfold readItems
    generalize item bs = x at hstep ⊢
    generalize item' (bs ++ more) = y at hstep ⊢
    cases hstep with
    | cut => exact .cut _
    | error e => exact .error e
    | ok v rest => exact ih rest (v :: done)

/-- A key is compared by its own bytes, which are the same whatever follows. -/
theorem persists_readEntries (hi : ∀ bs, Persists .incomplete more (item bs) (item' (bs ++ more)))
    (hfront : ∀ {bs v rest}, item bs = .ok (v, rest) → ∃ front, bs = front ++ rest) (n : Nat)
    (last : Option Bytes) (bs : Bytes) (done : List (Value × Value)) :
    Persists .incomplete more (readEntries item n last bs done)
      (readEntries item' n last (bs ++ more) done) := by
  induction n generalizing last bs done with
  | zero => exact .ok _ _
  | succ n ih =>
    have hkey := hi bs
    unfold readEntries
    generalize hx : item bs = x at hkey ⊢
    generalize item' (bs ++ more) = y at hkey ⊢
    cases hkey with
    | cut => exact .cut _
    | error e => exact .error e
    | ok k afterKey =>
    obtain ⟨key, rfl⟩ := hfront hx
    simp only [List.append_assoc, Bytes.before_append]
    cases checkKey last key with
    | error e => exact .error e
    | ok _ =>
    have hvalue := hi afterKey
    simp only
    generalize item afterKey = x at hvalue ⊢
    generalize item' (afterKey ++ more) = y at hvalue ⊢
    cases hvalue with
    | cut => exact .cut _
    | error e => exact .error e
    | ok v rest => exact ih (some key) rest ((k, v) :: done)

end loops

/-- An item is read alike with more bytes behind it and more levels allowed. -/
theorem persists_readItem (more : Bytes) {fuel fuel' : Nat} (hf : fuel ≤ fuel') (bs : Bytes) :
    Persists .incomplete more (readItem fuel bs) (readItem fuel' (bs ++ more)) := by
  induction fuel generalizing fuel' bs with
  | zero => cases bs <;> exact .cut _
  | succ fuel ih =>
    obtain ⟨fuel', rfl⟩ : ∃ m, fuel' = m + 1 := ⟨fuel' - 1, by omega⟩
    have hitem (bs : Bytes) :
        Persists .incomplete more (readItem fuel bs) (readItem fuel' (bs ++ more)) :=
      ih (Nat.le_of_succ_le_succ hf) bs
    cases bs with
    | nil => exact .cut _
    | cons b bs =>
    simp only [List.cons_append, readItem]
    split
    · exact (persists_argument _ bs).bind fun _ _ => .ok _ _
    · refine (persists_argument _ bs).bind fun n rest => ?_
      dsimp only
      split
      · exact .ok _ _
      · exact .error _
    · refine (persists_count _ bs).bind fun n rest => ?_
      exact (persists_take n rest).bind fun _ _ => .ok _ _
    · refine (persists_count _ bs).bind fun n rest => ?_
      refine (persists_take n rest).bind fun data rest => ?_
      dsimp only
      split
      · exact .ok _ _
      · exact .error _
    · refine (persists_count _ bs).bind fun n rest => ?_
      exact (persists_readItems hitem n rest []).bind fun _ _ => .ok _ _
    · refine (persists_count _ bs).bind fun n rest => ?_
      refine (persists_readEntries hitem ?_ n none rest []).bind fun _ _ => .ok _ _
      intro bs v rest h
      obtain ⟨front, hbs, -⟩ := denotes_of_readItem h
      exact ⟨front, hbs⟩
    · exact .error _
    · exact persists_readSimple _ bs

theorem decode_eq_ok {bs : Bytes} {v : Value} (h : decode bs = .ok v) :
    readItem bs.length bs = .ok (v, []) := by
  unfold decode at h
  split at h <;> cases h
  assumption

/-- What is read somewhere is an item of its own, and takes as many bytes there as it has. -/
theorem reads_of_readItem {fuel : Nat} {whole rest : Bytes} {v : Value}
    (h : readItem fuel whole = .ok (v, rest)) :
    ∃ front, whole = front ++ rest ∧
      ∀ fuel', front.length ≤ fuel' → Reads (readItem fuel') front v := by
  obtain ⟨front, rfl, hd⟩ := denotes_of_readItem h
  have hpos := hd.length_pos
  have hrange : v.InRange := by
    by_contra hn
    have hrefuses := (hd.meets (show front.length ≤ fuel + front.length - 1 + 1 by omega)).refuses
      hn rest
    have hpersists := persists_readItem []
      (show fuel ≤ fuel + front.length - 1 + 1 by omega) (front ++ rest)
    rw [h, List.append_nil, hrefuses] at hpersists
    cases hpersists
  refine ⟨front, rfl, fun fuel' hf => ?_⟩
  obtain ⟨fuel', rfl⟩ : ∃ m, fuel' = m + 1 := ⟨fuel' - 1, by omega⟩
  exact (hd.meets hf).reads hrange

/-- A cut in an item is found to be one, and so is anything behind it. Wherever an item is read, the
bytes it takes and the value it stands for do not depend on the bytes after it. -/
theorem decode_delimited :
    (∀ bs v, decode bs = .ok v →
      (∀ front back, bs = front ++ back → back ≠ [] → decode front = .error .incomplete) ∧
      ∀ more, more ≠ [] → decode (bs ++ more) = .error .trailing) ∧
    ∀ fuel whole v rest, readItem fuel whole = .ok (v, rest) →
      ∃ front, whole = front ++ rest ∧ ∀ fuel' rest', front.length ≤ fuel' →
        readItem fuel' (front ++ rest') = .ok (v, rest') := by
  constructor
  · intro bs v h
    have hread := decode_eq_ok h
    constructor
    · rintro front back rfl hback
      have hpersists := persists_readItem back
        (show front.length ≤ (front ++ back).length by simp) front
      rw [hread] at hpersists
      rw [decode, hpersists.eq_cut hback]
    · intro more hmore
      have hpersists := persists_readItem more
        (show bs.length ≤ (bs ++ more).length by simp) bs
      rw [hread] at hpersists
      obtain ⟨b, bytes, rfl⟩ := List.exists_cons_of_ne_nil hmore
      rw [decode, hpersists.eq_ok]
      rfl
  · intro fuel whole v rest h
    obtain ⟨front, hwhole, hreads⟩ := reads_of_readItem h
    exact ⟨front, hwhole, fun fuel' rest' hf => hreads fuel' hf rest'⟩

def listed : Bytes := [0xa1, 0x60, 0x82, 0x00, 0x18, 0x20]

theorem decode_listed_delimited :
    decode listed = .ok (.map [(.text "", .array [.unsigned 0, .unsigned 32])]) ∧
    decode (listed.take 5) = .error .incomplete ∧ decode (listed ++ [0x00]) = .error .trailing ∧
    readItem 5 (listed.drop 2) = .ok (.array [.unsigned 0, .unsigned 32], []) ∧
    readItem 5 (listed.drop 2 ++ [0xff]) = .ok (.array [.unsigned 0, .unsigned 32], [0xff]) := by
  have hwhole : decode listed = .ok (.map [(.text "", .array [.unsigned 0, .unsigned 32])]) := rfl
  have hinner : readItem 5 (listed.drop 2) = .ok (.array [.unsigned 0, .unsigned 32], []) := rfl
  obtain ⟨hcut, hmore⟩ := decode_delimited.1 _ _ hwhole
  obtain ⟨front, hfront, hreads⟩ := decode_delimited.2 _ _ _ _ hinner
  rw [List.append_nil] at hfront
  rw [← hfront] at hreads
  exact ⟨hwhole, hcut _ [0x20] rfl (by simp), hmore _ (by simp), hinner,
    hreads 5 [0xff] (by decide)⟩

end ObjectGraph.Cbor
