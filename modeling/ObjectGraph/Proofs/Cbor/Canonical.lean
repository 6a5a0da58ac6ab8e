import ObjectGraph.Proofs.Cbor.ReadBack

/-! One byte form for one value. Items mean the same exactly when their bytes are equal
(`bytes_eq_iff_equivalent`); the bytes of an item are decoded to its normal form, unless it holds
an integer that is out of range (`decode_encode_normal`); and what is decoded is written in the same
bytes exactly when it holds no other not-a-number than the one that is written
(`reencodes_iff_quiet`). -/
namespace ObjectGraph.Cbor

/-- The entries of every map stand in strict order of the bytes of their keys, and no float is a
whole number of 64 signed bits. -/
structure Value.Normal (v : Value) : Prop where
  sorted : ∀ entries, Occurs (.map entries) v → ∃ keys,
    List.Forall₂ (fun e key => encode e.1 = .ok key) entries keys ∧ keys.IsChain (· < ·)
  fraction : ∀ x, Occurs (.float x) v → x.whole? = none

theorem Denotes.normal {bs : Bytes} {v : Value} (h : Denotes bs v) (hq : v.Quiet) : v.Normal where
  sorted entries ho := by
    obtain ⟨part, hd⟩ := h.occurs ho
    cases hd with | @map pairs _ _ hp hs =>
    refine ⟨pairs.map Prod.fst, List.forall₂_map_right_iff.2 (List.Forall₂.flip ?_), hs⟩
    refine forall₂_of_mem hp fun p _ e he hd => ?_
    obtain ⟨hk, -⟩ := hd
    exact hk.encode fun x hx => hq x ((Occurs.key he hx).trans ho)
  fraction x ho := by
    obtain ⟨part, hd⟩ := h.occurs ho
    cases hd with | float _ _ hc =>
    exact (checkFloat_eq_ok.1 hc).2.1

theorem plain_eq_self {v : Value} (h : v.Plain) : v.plain = v := by
  induction v using Value.induction with
  | float x =>
    have hx := h x (.self _)
    rw [Value.plain, hx.fraction]
    split
    · next hnan => rw [hx.quiet hnan]
    · rfl
  | array items ih =>
    rw [Value.plain, Value.plainItems_eq]
    have hitems : items.map Value.plain = items.map id :=
      List.map_congr_left fun v hv => ih v hv fun x hx => h x (.item hv hx)
    rw [hitems, List.map_id]
  | map entries ih =>
    rw [Value.plain, Value.plainEntries_eq]
    have hentries : (entries.map fun e => (e.1.plain, e.2.plain)) = entries.map id :=
      List.map_congr_left fun e he => Prod.ext ((ih e he).1 fun x hx => h x (.key he hx))
        ((ih e he).2 fun x hx => h x (.value he hx))
    rw [hentries, List.map_id]
  | tag number content ih => rw [Value.plain, ih fun x hx => h x (.tagged hx)]
  | _ => rfl

/-- The normal form that the bytes of an item stand for. -/
theorem exists_normal {v : Value} {bs : Bytes} (h : encode v = .ok bs) (hs : v.Sized) :
    ∃ v', Denotes bs v' ∧ Settles v.plain v' ∧ v'.Plain := by
  rw [← encode_plain] at h
  obtain ⟨v', hv, hd⟩ := exists_denotes h (plain_plain v) (sized_plain hs)
  exact ⟨v', hd, hv, hv.plain (plain_plain v)⟩

/-- What is decoded is written in the same bytes exactly when each not-a-number in it is the one
that is written for all of them. No other bytes are then decoded to the same value. -/
theorem reencodes_iff_quiet {bs : Bytes} {v : Value} (h : decode bs = .ok v) :
    (encode v = .ok bs ↔ v.Quiet) ∧ (v.Quiet → ∀ cs, decode cs = .ok v → cs = bs) := by
  obtain ⟨hd, -⟩ := decode_eq_ok_iff.1 h
  constructor
  · constructor
    · intro he
      obtain ⟨v', hd', -, hp⟩ := exists_normal he hd.sized
      obtain rfl := hd.unique hd'
      exact fun x hx => (hp x hx).quiet
    · exact hd.encode
  · intro hq cs hc
    have hcs := (decode_eq_ok_iff.1 hc).1.encode hq
    rw [hd.encode hq, Except.ok.injEq] at hcs
    exact hcs.symm

/-- Not-a-numbers as the key and the value of an entry, the value not the one that is written. -/
def nanEntry : Value := .map [(.float .nan, .float ⟨0x7ff8040000000000⟩)]

theorem reencodes_iff_quiet_nanEntry :
    decode [0xa1, 0xf9, 0x7e, 0x00, 0xf9, 0x7e, 0x01] = .ok nanEntry ∧
    (encode nanEntry = .ok [0xa1, 0xf9, 0x7e, 0x00, 0xf9, 0x7e, 0x01] ↔ nanEntry.Quiet) ∧
    (nanEntry.Quiet → ∀ cs, decode cs = .ok nanEntry →
      cs = [0xa1, 0xf9, 0x7e, 0x00, 0xf9, 0x7e, 0x01]) :=
  ⟨rfl, reencodes_iff_quiet rfl⟩

/-- A half that is another not-a-number is decoded and then written as the usual one, and two such
halves are decoded to one value. -/
theorem not_every_decoded_reencodes :
    (¬ ∀ bs v, decode bs = .ok v → encode v = .ok bs) ∧
      ∃ bs cs v, bs ≠ cs ∧ decode bs = .ok v ∧ decode cs = .ok v := by
  constructor
  · intro h
    have hnan := h [0xf9, 0x7e, 0x01] (.float ⟨0x7ff8040000000000⟩) rfl
    have hwritten : encode (.float ⟨0x7ff8040000000000⟩) = .ok [0xf9, 0x7e, 0x00] := rfl
    rw [hwritten, Except.ok.injEq] at hnan
    exact absurd hnan (by decide)
  · exact ⟨[0xf9, 0x7e, 0x01], [0xf9, 0x7c, 0x01], .float ⟨0x7ff8040000000000⟩, by decide, rfl, rfl⟩

/-- The bytes of an item are decoded to a normal form that means the same and has the same bytes,
unless an integer in it is out of range. -/
theorem decode_encode_normal {v : Value} {bs : Bytes} (h : encode v = .ok bs) (hs : v.Sized) :
    (v.InRange → ∃ v', decode bs = .ok v' ∧ Equivalent v v' ∧ v'.Normal ∧ encode v' = .ok bs) ∧
    (¬ v.InRange → decode bs = .error .integerRange ∧
      Error.message .integerRange = "decode error: integer out of range") := by
  obtain ⟨v', hd, hv, hp⟩ := exists_normal h hs
  have hq : v'.Quiet := fun x hx => (hp x hx).quiet
  constructor
  · intro hr
    refine ⟨v', hd.decode.1 (hv.inRange (inRange_plain.2 hr)), ?_, hd.normal hq, hd.encode hq⟩
    rw [Equivalent, plain_eq_self hp]
    exact hv
  · intro hr
    exact ⟨hd.decode.2 fun hr' => hr (inRange_plain.1 (hv.symm.inRange hr')), rfl⟩

/-- Entries out of order, with whole floats among them and the least integer that is read. -/
def unsorted : Value := .map [(.text "b", .float ⟨0x4000000000000000⟩),
  (.array [.float ⟨0x8000000000000000⟩], .float ⟨0x3fb999999999999a⟩),
  (.text "a", .negative 0x7fffffffffffffff)]

def unsortedBytes : Bytes :=
  [0xa3, 0x61, 0x61, 0x3b, 0x7f, 0xff, 0xff, 0xff, 0xff, 0xff, 0xff, 0xff, 0x61, 0x62, 0x02,
    0x81, 0x00, 0xfb, 0x3f, 0xb9, 0x99, 0x99, 0x99, 0x99, 0x99, 0x9a]

theorem inRange_unsorted : unsorted.InRange := by
  refine inRange_map.2 ?_
  simp only [List.forall_mem_cons, List.not_mem_nil, false_imp_iff, implies_true, and_true]
  refine ⟨⟨?_, ?_⟩, ⟨inRange_array.2 ?_, ?_⟩, ?_, inRange_negative.2 (by decide)⟩
  · exact fun w hw n hn => by cases hw; cases hn
  · exact fun w hw n hn => by cases hw; cases hn
  · simp only [List.forall_mem_cons, List.not_mem_nil, false_imp_iff, implies_true, and_true]
    exact fun w hw n hn => by cases hw; cases hn
  · exact fun w hw n hn => by cases hw; cases hn
  · exact fun w hw n hn => by cases hw; cases hn

theorem decode_encode_normal_unsorted :
    encode unsorted = .ok unsortedBytes ∧ unsorted.Sized ∧ unsorted.InRange ∧
    (∃ v', decode unsortedBytes = .ok v' ∧ Equivalent unsorted v' ∧ v'.Normal ∧
      encode v' = .ok unsortedBytes) ∧
    decode [0x3b, 0x80, 0, 0, 0, 0, 0, 0, 0] = .error .integerRange := by
  have hbytes : encode unsorted = .ok unsortedBytes := rfl
  have hsized := sized_of_encode hbytes (by decide)
  have hbeyond : encode (.negative 0x8000000000000000) =
      .ok [0x3b, 0x80, 0, 0, 0, 0, 0, 0, 0] := rfl
  refine ⟨hbytes, hsized, inRange_unsorted,
    (decode_encode_normal hbytes hsized).1 inRange_unsorted, ?_⟩
  refine ((decode_encode_normal hbeyond (sized_of_encode hbeyond (by decide))).2 ?_).1
  rw [inRange_negative]
  decide

/-- Two items have the same bytes exactly when they mean the same, and what means the same as an
item with a byte form has one. -/
theorem bytes_eq_iff_equivalent {v w : Value} {bs : Bytes} (h : encode v = .ok bs) :
    (v.Sized → w.Sized → ∀ cs, encode w = .ok cs → (bs = cs ↔ Equivalent v w)) ∧
      (Equivalent v w → ∃ cs, encode w = .ok cs) := by
  constructor
  · intro hv hw cs hc
    constructor
    · rintro rfl
      obtain ⟨v', hd, hs, -⟩ := exists_normal h hv
      obtain ⟨w', hd', hs', -⟩ := exists_normal hc hw
      obtain rfl := hd.unique hd'
      exact hs.trans hs'.symm
    · intro he
      rw [he.encode h, Except.ok.injEq] at hc
      exact hc
  · intro he
    exact ⟨bs, he.encode h⟩

def wholeFirst : Value :=
  .map [(.float ⟨0x3ff0000000000000⟩, .null), (.negative 0xffffffffffffffff, .text "a")]

def wholeLast : Value := .map [(.negative 0xffffffffffffffff, .text "a"), (.unsigned 1, .null)]

def wholeBytes : Bytes :=
  [0xa2, 0x01, 0xf6, 0x3b, 0xff, 0xff, 0xff, 0xff, 0xff, 0xff, 0xff, 0xff, 0x61, 0x61]

theorem bytes_eq_iff_equivalent_whole :
    encode wholeFirst = .ok wholeBytes ∧ wholeFirst.Sized ∧ wholeLast.Sized ∧
    Equivalent wholeFirst wholeLast ∧ ∃ cs, encode wholeLast = .ok cs := by
  have hfirst : encode wholeFirst = .ok wholeBytes := rfl
  have hlast : encode wholeLast = .ok wholeBytes := rfl
  have hsized := sized_of_encode hfirst (by decide)
  have hsized' := sized_of_encode hlast (by decide)
  have heq := ((bytes_eq_iff_equivalent hfirst).1 hsized hsized' _ hlast).1 rfl
  exact ⟨hfirst, hsized, hsized', heq, (bytes_eq_iff_equivalent hfirst).2 heq⟩

end ObjectGraph.Cbor
