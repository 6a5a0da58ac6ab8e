import ObjectGraph.Proofs.Container.Acceptance

/-! Envelopes end where their own bytes say so. Every field is read alike whatever stands behind it,
and no limit, version, flag or count is judged on bytes that are not there, so a cut anywhere in an
envelope is found to be one and whatever stands behind it is counted (`ofBytes_delimited`). -/
namespace ObjectGraph

namespace Wire

variable {α : Type} {more : Bytes}

/-- The second step is the first one with more bytes behind its input, which are left as well,
unless the first ran out of bytes. -/
inductive Persists (more : Bytes) : Except Error α × Bytes → Except Error α × Bytes → Prop
  | cut (left : Bytes) (y : Except Error α × Bytes) : Persists more (.error .outOfBounds, left) y
  | step (outcome : Except Error α) (rest : Bytes) :
      Persists more (outcome, rest) (outcome, rest ++ more)

theorem persists_take (n : Nat) (bs : Bytes) :
    Persists more (take n bs) (take n (bs ++ more)) := by
  unfold take
  by_cases hn : n ≤ bs.length
  · have hlong : n ≤ (bs ++ more).length := Nat.le_trans hn (by simp)
    rw [if_pos (by simpa using hn), if_pos (by simpa using hlong), List.take_append_of_le_length hn,
      List.drop_append_of_le_length hn]
    exact .step _ _
  · rw [if_neg (by simpa using hn)]
    exact .cut _ _

theorem persists_readByte (bs : Bytes) : Persists more (readByte bs) (readByte (bs ++ more)) := by
  cases bs with
  | nil => exact .cut _ _
  | cons b bs => exact .step _ _

theorem persists_readFlag (bs : Bytes) : Persists more (readFlag bs) (readFlag (bs ++ more)) := by
  unfold readFlag
  refine (persists_readByte bs).casesOn (fun _ _ => .cut _ _) fun outcome rest => ?_
  cases outcome with
  | error e => exact .step _ _
  | ok b =>
    dsimp only
    split_ifs <;> exact .step _ _

theorem persists_readU32 (bs : Bytes) : Persists more (readU32 bs) (readU32 (bs ++ more)) := by
  unfold readU32
  refine (persists_take 4 bs).casesOn (fun _ _ => .cut _ _) fun outcome rest => ?_
  cases outcome <;> exact .step _ _

theorem persists_readCount (max : Nat) (bs : Bytes) :
    Persists more (readCount max bs) (readCount max (bs ++ more)) := by
  unfold readCount
  refine (persists_readU32 bs).casesOn (fun _ _ => .cut _ _) fun outcome rest => ?_
  cases outcome with
  | error e => exact .step _ _
  | ok n =>
    dsimp only
    split_ifs <;> exact .step _ _

theorem persists_readBytes (max : Nat) (bs : Bytes) :
    Persists more (readBytes max bs) (readBytes max (bs ++ more)) := by
  unfold readBytes
  refine (persists_readCount max bs).casesOn (fun _ _ => .cut _ _) fun outcome rest => ?_
  cases outcome with
  | error e => exact .step _ _
  | ok n => exact persists_take n rest

theorem persists_readText (max : Nat) (bs : Bytes) :
    Persists more (readText max bs) (readText max (bs ++ more)) := by
  unfold readText
  refine (persists_readBytes max bs).casesOn (fun _ _ => .cut _ _) fun outcome rest => ?_
  cases outcome with
  | error e => exact .step _ _
  | ok data =>
    dsimp only
    split <;> exact .step _ _

end Wire

namespace Container

variable {α : Type} {more : Bytes}

theorem persists_lift {x y : Except Wire.Error α × Bytes} (h : Wire.Persists more x y) :
    Persists (.field .outOfBounds) more (lift x) (lift y) := by
  cases h with
  | cut left y => exact .cut _
  | step outcome rest =>
    cases outcome with
    | error e => exact .error _
    | ok a => exact .ok _ _

/-- Running out of bytes is no fault of a length, so a table passes it on as it is. -/
theorem persists_liftEntry (tooLarge : (len limit : Nat) → Error)
    {x y : Except Wire.Error α × Bytes} (h : Wire.Persists more x y) :
    Persists (.field .outOfBounds) more (liftEntry tooLarge x) (liftEntry tooLarge y) := by
  cases h with
  | cut left y => exact .cut _
  | step outcome rest =>
    cases outcome with
    | error e => cases e <;> exact .error _
    | ok a => exact .ok _ _

theorem persists_readEntries {read : Wire.Read α} (tooLarge : (index len limit : Nat) → Error)
    (hr : ∀ bs, Wire.Persists more (read bs) (read (bs ++ more))) (n index : Nat) (bs : Bytes)
    (done : List α) :
    Persists (.field .outOfBounds) more (readEntries read tooLarge n index bs done)
      (readEntries read tooLarge n index (bs ++ more) done) := by
  induction n generalizing index bs done with
  | zero => exact .ok _ _
  | succ n ih =>
    unfold readEntries
    exact (persists_liftEntry (tooLarge index) (hr bs)).casesOn (fun _ => .cut _) (fun e => .error e)
      fun a rest => ih (index + 1) rest (a :: done)

variable (limits : Limits)

theorem persists_readRecords (bs : Bytes) :
    Persists (.field .outOfBounds) more (readRecords limits bs)
      (readRecords limits (bs ++ more)) := by
  refine (persists_lift (Wire.persists_readU32 bs)).bind fun count rest => ?_
  dsimp only
  split
  · exact .error _
  · exact persists_readEntries _ (Wire.persists_readBytes _) _ 0 rest []

theorem persists_readTypeNames (records : Nat) (bs : Bytes) :
    Persists (.field .outOfBounds) more (readTypeNames limits records bs)
      (readTypeNames limits records (bs ++ more)) := by
  refine (persists_lift (Wire.persists_readFlag bs)).bind fun present rest => ?_
  cases present with
  | false => exact .ok _ _
  | true =>
    refine (persists_lift (Wire.persists_readU32 rest)).bind fun count rest => ?_
    dsimp only
    split
    · exact .error _
    · refine (persists_readEntries _ (Wire.persists_readText _) _ 0 rest []).bind fun names rest => ?_
      exact .ok _ _

/-- An envelope with whatever follows it. -/
def readEnvelope (bs : Bytes) : Except Error (Container × Bytes) := do
  let (version, rest) ← lift (Wire.readU32 bs)
  checkVersion version
  let (records, rest) ← readRecords limits rest
  let (names, rest) ← readTypeNames limits records.length rest
  .ok (⟨version, records, names⟩, rest)

theorem ofBytes_eq (bs : Bytes) : ofBytes limits bs =
    readEnvelope limits bs >>= fun (c, rest) =>
      if rest.isEmpty then .ok c else .error (.trailing rest.length) := by
  simp only [ofBytes, readEnvelope, bind_assoc]
  rfl

theorem persists_readEnvelope (bs : Bytes) :
    Persists (.field .outOfBounds) more (readEnvelope limits bs)
      (readEnvelope limits (bs ++ more)) := by
  refine (persists_lift (Wire.persists_readU32 bs)).bind fun version rest => ?_
  dsimp only
  cases checkVersion version with
  | error e => exact .error e
  | ok _ =>
    refine (persists_readRecords limits rest).bind fun records rest => ?_
    exact (persists_readTypeNames limits records.length rest).bind fun _ _ => .ok _ _

theorem readEnvelope_of_ofBytes {bs : Bytes} {c : Container} (h : ofBytes limits bs = .ok c) :
    readEnvelope limits bs = .ok (c, []) := by
  rw [ofBytes_eq] at h
  obtain ⟨⟨c', rest⟩, hread, h⟩ := bind_eq_ok.1 h
  dsimp only at h
  split at h
  · next hrest =>
    cases h
    rw [hread, List.isEmpty_iff.1 hrest]
  · cases h

/-- An envelope cut anywhere is found to be too short, and bytes behind it are counted. -/
theorem ofBytes_delimited {bs : Bytes} {c : Container} (h : ofBytes limits bs = .ok c) :
    (∀ front back, bs = front ++ back → back ≠ [] →
      ofBytes limits front = .error (.field .outOfBounds)) ∧
    ∀ more, more ≠ [] → ofBytes limits (bs ++ more) = .error (.trailing more.length) := by
  have hread := readEnvelope_of_ofBytes limits h
  constructor
  · rintro front back rfl hback
    have hpersists : Persists (Error.field .outOfBounds) back _ _ :=
      persists_readEnvelope limits front
    rw [hread] at hpersists
    rw [ofBytes_eq, hpersists.eq_cut hback]
    rfl
  · intro more hmore
    have hpersists : Persists (Error.field .outOfBounds) more _ _ :=
      persists_readEnvelope limits bs
    rw [hread] at hpersists
    obtain ⟨b, more, rfl⟩ := List.exists_cons_of_ne_nil hmore
    rw [ofBytes_eq, hpersists.eq_ok]
    rfl

theorem ofBytes_named_delimited : ofBytes namedLimits namedBytes = .ok named ∧
    ofBytes namedLimits (namedBytes.take 40) = .error (.field .outOfBounds) ∧
    ofBytes namedLimits (namedBytes ++ [0, 0]) = .error (.trailing 2) := by
  have hread : ofBytes namedLimits namedBytes = .ok named := by decide +kernel
  obtain ⟨hcut, hmore⟩ := ofBytes_delimited namedLimits hread
  exact ⟨hread, hcut _ (namedBytes.drop 40) (List.take_append_drop 40 namedBytes).symm (by decide),
    hmore [0, 0] (by decide)⟩

end Container
end ObjectGraph
