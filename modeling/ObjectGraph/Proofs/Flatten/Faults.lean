import ObjectGraph.Proofs.Catalog.Packing

/-! Records are encoded in the order of their numbers. A codec that fails at a call therefore fails
at the record whose number is the count of calls before, and at no other (`finish_faulty`). -/
namespace ObjectGraph

/-- A codec, and another that is the same but for one encoding, which it refuses. -/
structure Codec.EncodeFault {κ ρ : Type} (codec codec' : Codec κ ρ) (n : Nat)
    (fault : Encoding.Error) : Prop where
  same : ∀ {calls : Nat} (record : ρ), calls ≠ n →
    codec'.encode calls record = codec.encode calls record
  refuses : ∀ record : ρ, codec'.encode n record = .error fault

theorem Codec.encodeFault_failing {κ ρ : Type} (codec : Codec κ ρ) (n : Nat)
    (decodeAt : Option Nat) :
    codec.EncodeFault (codec.failing (some n) decodeAt) n
      (.other s!"injected encode failure #{n}") where
  same _ hne := if_neg fun h => hne (Option.some.inj h).symm
  refuses _ := if_pos rfl

namespace Flatten.Session

variable {α κ ρ : Type} {codec codec' : Codec κ ρ} {k : Nat} {fault : Encoding.Error}
  {s : Session α ρ}

/-- The records before the refused one are encoded as before. -/
theorem encodeRecords_faulty (hc : codec.EncodeFault codec' k fault) {n index calls : Nat}
    {done rows : List (String × Bytes)} (hk : index ≤ k)
    (h : encodeRecords codec s n index done = (.ok rows, calls)) :
    (index + n ≤ k → encodeRecords codec' s n index done = (.ok rows, calls)) ∧
    (k < index + n → ∃ p, s.records[k]? = some (some p) ∧ encodeRecords codec' s n index done =
      (.error (.encode ((RecordId.ofIndex? k).getD .nil) p.typeName fault), k + 1)) := by
  induction n generalizing index done with
  | zero => exact ⟨fun _ => h, fun hlt => absurd hk hlt.not_ge⟩
  | succ n ih =>
    unfold encodeRecords at h ⊢
    cases hp : (s.records[index]?).join with
    | none =>
      rw [hp] at h
      cases h
    | some p =>
      rw [hp] at h
      dsimp only at h ⊢
      rcases hk.eq_or_lt with rfl | hlt
      · refine ⟨fun hle => by omega, fun _ => ⟨p, Option.join_eq_some_iff.1 hp, ?_⟩⟩
        rw [encodeRecord, hc.refuses]
      · have hsame : encodeRecord codec' s.limits index ((RecordId.ofIndex? index).getD .nil) p =
            encodeRecord codec s.limits index ((RecordId.ofIndex? index).getD .nil) p := by
          rw [encodeRecord, encodeRecord, hc.same p.record hlt.ne]
        rw [hsame]
        cases hb : encodeRecord codec s.limits index ((RecordId.ofIndex? index).getD .nil) p with
        | error e =>
          rw [hb] at h
          cases h
        | ok bs =>
          rw [hb] at h
          rw [show index + (n + 1) = index + 1 + n by omega]
          exact ih hlt h

/-- A session that has a container, ended under a codec that refuses one encoding: the container is
the same if it has no record for that call. Otherwise there is none, and the fault names the record
whose number is the count of the calls before, with the type of its node. -/
theorem finish_faulty (hc : codec.EncodeFault codec' k fault) {names : Bool} {c : Container}
    {calls : Nat} (h : s.finish codec names = (.ok c, calls)) :
    (c.size ≤ k → s.finish codec' names = (.ok c, calls)) ∧
    (k < c.size → ∃ p, s.records[k]? = some (some p) ∧ s.finish codec' names =
      (.error (.encode ((RecordId.ofIndex? k).getD .nil) p.typeName fault), k + 1)) := by
  have hmade : s.intoContainer codec names = .ok c := congrArg Prod.fst h
  have hsize := (packed_of_intoContainer hmade).1.size
  unfold finish at h ⊢
  rcases he : encodeRecords codec s s.objectCount 0 [] with ⟨e | rows, calls'⟩ <;> rw [he] at h
  · cases h
  obtain ⟨hpast, hat⟩ := encodeRecords_faulty hc (Nat.zero_le k) he
  rw [Nat.zero_add] at hpast hat
  rw [hsize]
  refine ⟨fun hle => ?_, fun hlt => ?_⟩
  · rw [hpast hle]
    exact h
  · obtain ⟨p, hp, hrefused⟩ := hat hlt
    rw [hrefused]
    exact ⟨p, hp, rfl⟩

end Flatten.Session
end ObjectGraph
