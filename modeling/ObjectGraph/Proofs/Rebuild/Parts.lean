import ObjectGraph.Proofs.Rebuild.Poison

/-! The requests of a caller or a hook are made of resolutions. What every resolution keeps they
keep (`kept_perform`, `kept_runHook`), and they are the same under two ways to resolve numbers that
agree on the sessions they meet (`perform_congr`, `runHook_congr`). -/
namespace ObjectGraph.Rebuild

def Call.kind {κ ν : Type} : Call κ ν → κ
  | .root kind _ => kind
  | .resolve kind _ _ => kind
  | .required kind _ => kind
  | .all kind _ => kind

namespace Session

variable {κ ν ρ : Type}

/-- A property of sessions that is kept as a refusal is noted and as a node is written to. -/
structure Steady (P : Session κ ν → Prop) : Prop where
  refused : ∀ {s} e, P s → P (s.note (.refused e s.failed))
  assign : ∀ {s} node content, P s → P (s.assign node content)

/-- A way to resolve numbers that keeps a property of sessions. -/
def Keeps (P : Session κ ν → Prop) (resolve : Resolve κ ν) : Prop :=
  ∀ kind id start s, P s → P (resolve kind id start s).2

/-- Two ways to resolve numbers that are the same in sessions with a property. -/
def Alike (P : Session κ ν → Prop) (first second : Resolve κ ν) : Prop :=
  ∀ kind id start s, P s → first kind id start s = second kind id start s

variable [NodeType κ] (schema : Schema κ ν ρ) {P : Session κ ν → Prop} {resolve : Resolve κ ν}
  {s : Session κ ν}

omit [NodeType κ] in
/-- A new node is not being filled yet. -/
theorem idle_construct (kind : κ) (id : RecordId) (start : ν) (s : Session κ ν) :
    ((s.construct kind id start).2.nodes[s.nodes.size]?).any Node.busy = false := by
  simp [construct, note]

variable (resolve) in
/-- The hook of a new node may fill it. -/
theorem materialize_eq (kind : κ) (id : RecordId) (start : ν) (record : ρ) (s : Session κ ν) :
    materialize schema resolve kind id start record s =
      match runHook schema resolve s.nodes.size (schema.hook start record)
          (((s.construct kind id start).2.enter id).setBusy s.nodes.size true) with
      | (.error e, t) => (.error e, (t.setBusy s.nodes.size false).leave id)
      | (.ok (), t) => (.ok (some s.nodes.size), (t.setBusy s.nodes.size false).leave id) := by
  have hnode : (s.construct kind id start).1 = s.nodes.size := rfl
  unfold materialize
  simp only [fill, hnode, idle_construct, Bool.false_eq_true, if_false]
  rcases runHook schema resolve s.nodes.size (schema.hook start record)
    (((s.construct kind id start).2.enter id).setBusy s.nodes.size true) with ⟨e | x, t⟩ <;> rfl

section Kept

variable (hr : Keeps P resolve)

include hr

theorem kept_require (kind : κ) (id : RecordId) (hs : P s) :
    P (require schema resolve kind id s).2 := by
  have hkept := hr kind id (schema.empty kind) s hs
  unfold require
  rcases hv : resolve kind id (schema.empty kind) s with ⟨e | node | node, t⟩ <;>
    rw [hv] at hkept <;> exact hkept

theorem kept_requireAll (kind : κ) (ids : List RecordId) (done : List Address) (hs : P s) :
    P (requireAll (require schema resolve kind) ids done s).2 := by
  induction ids generalizing s done with
  | nil => exact hs
  | cons id ids ih =>
    have hkept := kept_require schema hr kind id hs
    unfold requireAll
    rcases hv : require schema resolve kind id s with ⟨e | node, t⟩ <;> rw [hv] at hkept
    · exact hkept
    · exact ih (node :: done) hkept

theorem kept_answer (hs : P s) (c : Call κ ν) : P (s.answer schema resolve c).2 := by
  cases c with
  | root kind start =>
    have hkept := hr kind .root start s hs
    simp only [answer]
    split
    · exact hs
    · rcases hv : resolve kind .root start s with ⟨e | node | node, t⟩ <;> rw [hv] at hkept <;>
        exact hkept
  | resolve kind id start => exact hr kind id start s hs
  | required kind id => exact kept_require schema hr kind id hs
  | all kind ids => exact kept_requireAll schema hr kind ids [] hs

variable (hP : Steady P)

include hP

theorem kept_perform (hs : P s) (c : Call κ ν) : P (s.perform schema resolve c).2 := by
  have hkept := kept_answer schema hr hs c
  unfold perform
  rcases hv : s.answer schema resolve c with ⟨e | x, t⟩ <;> rw [hv] at hkept
  · exact hP.refused e hkept
  · exact hkept

theorem kept_runHook (node : Address) (hook : Hook κ ν) (hs : P s) :
    P (runHook schema resolve node hook s).2 := by
  induction hook generalizing s with
  | done | fail => exact hs
  | assign content next ih => exact ih (hP.assign node content hs)
  | call c next ih => exact ih _ (kept_perform schema hr hP hs c)
  | look next ih => exact ih s.glance hs

end Kept

section Congruence

variable {resolve' : Resolve κ ν} (ha : Alike P resolve resolve')

include ha

theorem require_congr (kind : κ) (id : RecordId) (hs : P s) :
    require schema resolve kind id s = require schema resolve' kind id s := by
  rw [require, require, ha kind id _ s hs]

variable (hr : Keeps P resolve)

include hr

theorem requireAll_congr (kind : κ) (ids : List RecordId) (done : List Address) (hs : P s) :
    requireAll (require schema resolve kind) ids done s =
      requireAll (require schema resolve' kind) ids done s := by
  induction ids generalizing s done with
  | nil => rfl
  | cons id ids ih =>
    have hkept := kept_require schema hr kind id hs
    rw [requireAll, requireAll, ← require_congr schema ha kind id hs]
    rcases hv : require schema resolve kind id s with ⟨e | node, t⟩
    · rfl
    · rw [hv] at hkept
      exact ih (node :: done) hkept

theorem perform_congr (hs : P s) (c : Call κ ν) :
    s.perform schema resolve c = s.perform schema resolve' c := by
  have hanswer : s.answer schema resolve c = s.answer schema resolve' c := by
    cases c with
    | root kind start => rw [answer, answer, ha kind .root start s hs]
    | resolve kind id start => exact ha kind id start s hs
    | required kind id => exact require_congr schema ha kind id hs
    | all kind ids => exact requireAll_congr schema ha hr kind ids [] hs
  rw [perform, perform, hanswer]

theorem runHook_congr (hP : Steady P) (node : Address) (hook : Hook κ ν) (hs : P s) :
    runHook schema resolve node hook s = runHook schema resolve' node hook s := by
  induction hook generalizing s with
  | done | fail => rfl
  | assign content next ih => exact ih (hP.assign node content hs)
  | call c next ih =>
    have hkept := kept_perform schema hr hP hs c
    rw [runHook, runHook, ← perform_congr schema ha hr hs c]
    exact ih _ hkept
  | look next ih => exact ih s.glance hs

end Congruence

section Find

variable [DecidableEq κ]

/-- What a number is answered with as no record has to be decoded for it, or else the record's
bytes. -/
def lookUp (s : Session κ ν) (kind : κ) (id : RecordId) :
    Except Graph.Error (Option Address) ⊕ Bytes :=
  match id.index? with
  | none => .inl (.ok none)
  | some index =>
      match s.table.get kind id with
      | .error e => .inl (.error (s.explain e))
      | .ok (some node) => .inl (.ok (some node))
      | .ok none =>
          match s.container.records[index]? with
          | none => .inl (.error (.unknownId id s.container.size))
          | some bytes =>
              match s.checkTypeName kind id index with
              | .error e => .inl (.error e)
              | .ok () => .inr bytes

theorem find_eq (codec : Codec κ ρ) (fresh : Fresh κ ν ρ) (kind : κ) (id : RecordId) (start : ν)
    (s : Session κ ν) : find codec fresh kind id start s =
      match s.lookUp kind id with
      | .inl outcome => (outcome, s)
      | .inr bytes =>
          match codec.decode s.decodes kind bytes with
          | .error source =>
              (.error (.decode id (typeName kind) source), s.note (.decoded id))
          | .ok record => fresh kind id start record (s.note (.decoded id)) := by
  unfold find lookUp
  cases id.index? with
  | none => rfl
  | some index =>
  dsimp only
  rcases s.table.get kind id with e | node | node
  · rfl
  · dsimp only
    cases s.container.records[index]? with
    | none => rfl
    | some bytes =>
    dsimp only
    cases s.checkTypeName kind id index <;> rfl
  · rfl

/-- A record is decoded only if it has no node yet. -/
theorem of_lookUp {kind : κ} {id : RecordId} {bytes : Bytes} (h : s.lookUp kind id = .inr bytes) :
    ∃ index, id.index? = some index ∧ index < s.container.size ∧ s.table.entry? id = none ∧
      s.container.records[index]? = some bytes := by
  unfold lookUp at h
  split at h
  · cases h
  next index hi =>
  split at h
  · cases h
  · cases h
  next hget =>
  split at h
  · cases h
  next found hfound =>
  split at h
  · cases h
  · cases h
    refine ⟨index, hi, (List.getElem?_eq_some_iff.1 hfound).1, ?_, hfound⟩
    unfold NodeTable.get at hget
    split at hget
    · assumption
    · split at hget <;> cases hget

variable (codec : Codec κ ρ)

/-- What becomes of a record that is decoded where so many further hooks are allowed. -/
def freshAt (levels : Nat) : Fresh κ ν ρ :=
  match levels with
  | 0 => tooDeep
  | levels+1 => materialize schema (Session.resolve schema codec levels)

theorem resolve_eq_guard (levels : Nat) :
    Session.resolve schema codec levels = guard (find codec (freshAt schema codec levels)) := by
  cases levels <;> rfl

end Find

end Session
end ObjectGraph.Rebuild
