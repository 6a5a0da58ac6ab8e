import ObjectGraph.Catalog.Rebuilding
import ObjectGraph.Proofs.Graph.Walk

/-! Which refusals fail a session for good. Whatever hooks do, a refused resolution does; only the
two checks around it, for an empty container and for an absent reference, refuse a request and leave
the session usable (`answer_refused`). -/
namespace ObjectGraph

/-- Refusals that need not fail a session. -/
def Graph.Error.Mild : Graph.Error → Prop
  | .emptyContainer | .nilReference _ => True
  | _ => False

namespace Rebuild.Session

open ObjectGraph.Graph (visitAll)

variable {κ ν ρ : Type} {s t u : Session κ ν}

/-- What any part of a session preserves: it keeps the container, closes the hooks it opens, and
does not mend a failed session. It has failed if a refusal in it was not mild. -/
structure Follows (s t : Session κ ν) : Prop where
  limits : t.limits = s.limits
  container : t.container = s.container
  depth : t.depth = s.depth
  failed : s.failed = true → t.failed = true
  trace : ∃ more, t.trace = more ++ s.trace ∧ ∀ e failed, .refused e failed ∈ more →
    if failed then t.failed = true else e.Mild

namespace Follows

theorem refl (s : Session κ ν) : Follows s s :=
  ⟨rfl, rfl, rfl, id, [], rfl, fun _ _ h => absurd h List.not_mem_nil⟩

theorem trans (h : Follows s t) (h' : Follows t u) : Follows s u := by
  obtain ⟨more, hmore, hrefused⟩ := h.trace
  obtain ⟨more', hmore', hrefused'⟩ := h'.trace
  refine ⟨h'.limits.trans h.limits, h'.container.trans h.container, h'.depth.trans h.depth,
    fun hs => h'.failed (h.failed hs), more' ++ more, by rw [hmore', hmore, List.append_assoc],
    fun e failed he => ?_⟩
  rcases List.mem_append.1 he with he | he
  · exact hrefused' e failed he
  · cases failed with
    | true => exact h'.failed (hrefused e true he)
    | false => exact hrefused e false he

/-- A step that is noted, and is not a refusal. -/
theorem note (s : Session κ ν) {event : Event} (h : ∀ e failed, event ≠ .refused e failed) :
    Follows s (s.note event) := by
  refine ⟨rfl, rfl, rfl, id, [event], rfl, ?_⟩
  intro e failed he
  exact absurd (List.mem_singleton.1 he).symm (h e failed)

/-- A change of the nodes made so far. -/
theorem of_nodes {table : NodeTable κ Address} {nodes : Array (Node κ ν)} :
    Follows s { s with table, nodes } :=
  ⟨rfl, rfl, rfl, id, [], rfl, fun _ _ h => absurd h List.not_mem_nil⟩

/-- The session fails at the end of a part. -/
theorem fail (h : Follows s t) : Follows s { t with failed := true } := by
  obtain ⟨more, hmore, hrefused⟩ := h.trace
  refine ⟨h.limits, h.container, h.depth, fun _ => rfl, more, hmore, ?_⟩
  intro e failed he
  cases failed with
  | true => rfl
  | false => exact hrefused e false he

/-- A part between the start and the end of a hook. -/
theorem hook {id : RecordId} {node : Address}
    (h : Follows ((s.enter id).setBusy node true) t) :
    Follows s ((t.setBusy node false).leave id) := by
  obtain ⟨more, hmore, hrefused⟩ := h.trace
  have hdepth := h.depth
  refine ⟨h.limits, h.container, ?_, h.failed, .left id :: more ++ [.entered id s.depth], ?_,
    fun e failed he => ?_⟩
  · simp only [enter, setBusy, leave] at hdepth ⊢
    simp [Session.note, hdepth]
  · simp only [enter, setBusy, leave] at hmore ⊢
    simp [Session.note, hmore]
  · have hmem : .refused e failed ∈ more := by simpa using he
    exact hrefused e failed hmem

end Follows

/-- How a number is resolved in a session that fails for good: every refusal fails it, and none but
the absent reference has no node. -/
structure Poisons (resolve : Resolve κ ν) : Prop where
  follows : ∀ kind id start s, Follows s (resolve kind id start s).2
  refused : ∀ {kind id start s e t}, resolve kind id start s = (.error e, t) → t.failed = true
  absent : ∀ {kind id start s t}, resolve kind id start s = (.ok none, t) → id = .nil
  nil : ∀ {s : Session κ ν} kind start, s.failed = false →
    resolve kind .nil start s = (.ok none, s.note (.resolved .nil none))

theorem requireAll_eq (require : RecordId → Session κ ν → Except Graph.Error Address × Session κ ν)
    (ids : List RecordId) (done : List Address) (s : Session κ ν) :
    requireAll require ids done s =
      match visitAll require ids s with
      | (.error e, s) => (.error e, s)
      | (.ok nodes, s) => (.ok (done.reverse ++ nodes), s) := by
  induction ids generalizing done s with
  | nil => simp [requireAll, visitAll]
  | cons id ids ih =>
    unfold requireAll
    rw [visitAll]
    rcases require id s with ⟨e | node, t⟩
    · rfl
    · dsimp only
      rw [ih]
      rcases visitAll require ids t with ⟨e | nodes, u⟩
      · rfl
      · simp

section Requests

variable [NodeType κ] {schema : Schema κ ν ρ} {resolve : Resolve κ ν}

/-- A request that is refused outside any resolution: the container of a root is empty, or a
required reference is absent, in a session that has not failed by then. -/
def Lapses (schema : Schema κ ν ρ) (resolve : Resolve κ ν) (s : Session κ ν) : Call κ ν → Prop
  | .root .. => s.container.isEmpty = true ∧ s.failed = false
  | .resolve .. => False
  | .required _ id => id = .nil ∧ s.failed = false
  | .all kind ids => ∃ before after nodes t, ids = before ++ .nil :: after ∧
      visitAll (require schema resolve kind) before s = (.ok nodes, t) ∧ t.failed = false

theorem require_nil (hr : Poisons resolve) (kind : κ) (hs : s.failed = false) :
    require schema resolve kind .nil s =
      (.error (.nilReference (typeName kind)), s.note (.resolved .nil none)) := by
  unfold require
  rw [hr.nil kind _ hs]

variable (schema) in
theorem require_follows (hr : Poisons resolve) (kind : κ) (id : RecordId) (s : Session κ ν) :
    Follows s (require schema resolve kind id s).2 := by
  have hf := hr.follows kind id (schema.empty kind) s
  unfold require
  rcases hv : resolve kind id (schema.empty kind) s with ⟨e | node | node, t⟩ <;>
    rw [hv] at hf <;> exact hf

/-- A required node is refused in a session that fails, or that goes on because its reference is
absent. -/
theorem require_refused (hr : Poisons resolve) {kind : κ} {id : RecordId} {e : Graph.Error}
    (h : require schema resolve kind id s = (.error e, t)) :
    (t.failed = false ↔ id = .nil ∧ s.failed = false) ∧ (t.failed = false → e.Mild) := by
  by_cases hnil : id = .nil ∧ s.failed = false
  · obtain ⟨rfl, hs⟩ := hnil
    rw [require_nil hr kind hs] at h
    cases h
    exact ⟨⟨fun _ => ⟨rfl, hs⟩, fun _ => hs⟩, fun _ => trivial⟩
  · have hf : t.failed = true := by
      unfold require at h
      rcases hres : resolve kind id (schema.empty kind) s with ⟨e' | node | node, t'⟩ <;>
        rw [hres] at h <;> cases h
      · exact hr.refused hres
      · have hid := hr.absent hres
        subst hid
        have hs : s.failed = true := by simpa using hnil
        have hfollows := hr.follows kind .nil (schema.empty kind) s
        rw [hres] at hfollows
        exact hfollows.failed hs
    simp [hf, hnil]

variable (schema) in
theorem visitAll_require_follows (hr : Poisons resolve) (kind : κ) (ids : List RecordId)
    (s : Session κ ν) : Follows s (visitAll (require schema resolve kind) ids s).2 := by
  induction ids generalizing s with
  | nil => exact .refl s
  | cons id ids ih =>
    have hf := require_follows schema hr kind id s
    unfold visitAll
    rcases hv : require schema resolve kind id s with ⟨e | node, t⟩ <;> rw [hv] at hf
    · exact hf
    · have hrest := ih t
      dsimp only
      rcases hw : visitAll (require schema resolve kind) ids t with ⟨e | nodes, u⟩ <;>
        rw [hw] at hrest <;> exact hf.trans hrest

theorem visitAll_require_refused (hr : Poisons resolve) {kind : κ} {ids : List RecordId}
    {e : Graph.Error} (h : visitAll (require schema resolve kind) ids s = (.error e, t)) :
    (t.failed = false ↔ Lapses schema resolve s (.all kind ids)) ∧ (t.failed = false → e.Mild) := by
  induction ids generalizing s with
  | nil => cases h
  | cons id ids ih =>
    unfold visitAll at h
    rcases hv : require schema resolve kind id s with ⟨e' | node, t'⟩ <;> rw [hv] at h
    · cases h
      obtain ⟨hiff, hmild⟩ := require_refused hr hv
      refine ⟨⟨fun ht => ?_, ?_⟩, hmild⟩
      · obtain ⟨rfl, hs⟩ := hiff.1 ht
        exact ⟨[], ids, [], s, rfl, rfl, hs⟩
      · rintro ⟨before, after, nodes, u, hids, hbefore, hu⟩
        cases before with
        | nil =>
          cases hbefore
          exact hiff.2 ⟨(List.cons.inj hids).1, hu⟩
        | cons id' before =>
          obtain ⟨rfl, -⟩ := List.cons.inj hids
          unfold visitAll at hbefore
          rw [hv] at hbefore
          cases hbefore
    · dsimp only at h
      rcases hw : visitAll (require schema resolve kind) ids t' with ⟨e' | nodes, u⟩ <;>
        rw [hw] at h <;> cases h
      obtain ⟨hiff, hmild⟩ := ih hw
      refine ⟨hiff.trans ⟨?_, ?_⟩, hmild⟩
      · rintro ⟨before, after, nodes, u, rfl, hbefore, hu⟩
        refine ⟨id :: before, after, node :: nodes, u, rfl, ?_, hu⟩
        unfold visitAll
        rw [hv]
        dsimp only
        rw [hbefore]
      · rintro ⟨before, after, nodes, u, hids, hbefore, hu⟩
        cases before with
        | nil =>
          -- The first number is absent, so it is refused at once.
          cases hbefore
          obtain ⟨rfl, -⟩ := List.cons.inj hids
          rw [require_nil hr kind hu] at hv
          cases hv
        | cons id' before =>
          obtain ⟨rfl, rfl⟩ := List.cons.inj hids
          unfold visitAll at hbefore
          rw [hv] at hbefore
          dsimp only at hbefore
          rcases hx : visitAll (require schema resolve kind) before t' with ⟨e' | nodes', u'⟩ <;>
            rw [hx] at hbefore <;> cases hbefore
          exact ⟨before, after, nodes', _, rfl, hx, hu⟩

variable (schema) in
theorem answer_follows (hr : Poisons resolve) (s : Session κ ν) (c : Call κ ν) :
    Follows s (s.answer schema resolve c).2 := by
  cases c with
  | root kind start =>
    have hf := hr.follows kind .root start s
    simp only [answer]
    split
    · exact .refl s
    · rcases hv : resolve kind .root start s with ⟨e | node | node, t⟩ <;> rw [hv] at hf <;>
        exact hf
  | resolve kind id start => exact hr.follows kind id start s
  | required kind id => exact require_follows schema hr kind id s
  | all kind ids =>
    have hf := visitAll_require_follows schema hr kind ids s
    simp only [answer, requireAll_eq]
    rcases hv : visitAll (require schema resolve kind) ids s with ⟨e | nodes, t⟩ <;>
      rw [hv] at hf <;> exact hf

/-- A refused request fails the session, unless it lapses; then the refusal is mild. -/
theorem answer_refused (hr : Poisons resolve) {c : Call κ ν} {e : Graph.Error}
    (h : s.answer schema resolve c = (.error e, t)) :
    (t.failed = false ↔ Lapses schema resolve s c) ∧ (t.failed = false → e.Mild) := by
  cases c with
  | root kind start =>
    simp only [answer] at h
    split at h
    · next hempty =>
      cases h
      exact ⟨⟨fun hs => ⟨hempty, hs⟩, fun hs => hs.2⟩, fun _ => trivial⟩
    · next hempty =>
      have hf : t.failed = true := by
        rcases hv : resolve kind .root start s with ⟨e' | node | node, t'⟩ <;> rw [hv] at h <;>
          cases h
        · exact hr.refused hv
        · exact absurd (hr.absent hv) (by decide)
      simp [hf, Lapses, hempty]
  | resolve kind id start =>
    have hf : t.failed = true := hr.refused h
    simp [hf, Lapses]
  | required kind id => exact require_refused hr h
  | all kind ids =>
    simp only [answer, requireAll_eq] at h
    rcases hv : visitAll (require schema resolve kind) ids s with ⟨e' | nodes, t'⟩ <;>
      rw [hv] at h <;> cases h
    exact visitAll_require_refused hr hv

variable (schema) in
theorem perform_follows (hr : Poisons resolve) (s : Session κ ν) (c : Call κ ν) :
    Follows s (s.perform schema resolve c).2 := by
  have hf := answer_follows schema hr s c
  unfold perform
  rcases hv : s.answer schema resolve c with ⟨e | x, t⟩ <;> rw [hv] at hf
  · have hmild := (answer_refused hr hv).2
    refine hf.trans ⟨rfl, rfl, rfl, id, [.refused e t.failed], rfl, ?_⟩
    intro e' failed he
    cases List.mem_singleton.1 he
    cases ht : t.failed with
    | true => simpa [note] using ht
    | false => simpa using hmild ht
  · exact hf

variable (schema) in
/-- Whatever the hook of a node does, it is a part of the session. -/
theorem runHook_follows (hr : Poisons resolve) (node : Address) (hook : Hook κ ν)
    (s : Session κ ν) : Follows s (runHook schema resolve node hook s).2 := by
  induction hook generalizing s with
  | done => exact .refl s
  | fail e => exact .refl s
  | assign content next ih => exact .trans .of_nodes (ih _)
  | call c next ih => exact (perform_follows schema hr s c).trans (ih _ _)
  | look next ih => exact ih _ s

end Requests

section Levels

variable [NodeType κ] {schema : Schema κ ν ρ} {codec : Codec κ ρ}

/-- How a record without a node is treated: it gets one, or is refused. -/
structure Makes (fresh : Fresh κ ν ρ) : Prop where
  follows : ∀ kind id start record s, Follows s (fresh kind id start record s).2
  some : ∀ {kind id start record s t}, fresh kind id start record s ≠ (.ok none, t)

omit [NodeType κ] in
theorem makes_tooDeep : Makes (tooDeep : Fresh κ ν ρ) where
  follows _ _ _ _ s := .refl s
  some h := by cases h

theorem makes_materialize {resolve : Resolve κ ν} (hr : Poisons resolve) :
    Makes (materialize schema resolve) where
  follows kind id start record s := by
    have hnew : Follows s (s.construct kind id start).2 :=
      .trans .of_nodes (.note _ fun _ _ => nofun)
    unfold materialize
    rcases hc : s.construct kind id start with ⟨node, t⟩
    rw [hc] at hnew
    have hfill : Follows t (t.fill schema resolve id node start record).2 := by
      unfold fill
      split
      · exact .refl t
      · exact (runHook_follows schema hr node _ _).hook
    dsimp only
    rcases hv : t.fill schema resolve id node start record with ⟨e | x, u⟩ <;>
      rw [hv] at hfill <;> exact hnew.trans hfill
  some {kind id start record s t} h := by
    unfold materialize at h
    rcases hc : s.construct kind id start with ⟨node, u⟩
    rw [hc] at h
    dsimp only at h
    rcases hv : u.fill schema resolve id node start record with ⟨e | x, v⟩ <;>
      rw [hv] at h <;> cases h

variable [DecidableEq κ]

variable (codec) in
theorem find_follows {fresh : Fresh κ ν ρ} (hm : Makes fresh) (kind : κ) (id : RecordId)
    (start : ν) (s : Session κ ν) : Follows s (find codec fresh kind id start s).2 := by
  unfold find
  split
  · exact .refl s
  · split
    · exact .refl s
    · exact .refl s
    · split
      · exact .refl s
      · split
        · exact .refl s
        · have hnote : Follows s (s.note (.decoded id)) := .note s fun _ _ => nofun
          dsimp only
          split
          · exact hnote
          · exact hnote.trans (hm.follows ..)

theorem find_absent {fresh : Fresh κ ν ρ} (hm : Makes fresh) {kind : κ} {id : RecordId}
    {start : ν} (h : find codec fresh kind id start s = (.ok none, t)) : id = .nil := by
  unfold find at h
  split at h
  · next hi =>
    by_contra hn
    rw [RecordId.index?_eq_some.2 ⟨hn, rfl⟩] at hi
    cases hi
  · split at h
    · cases h
    · cases h
    · split at h
      · cases h
      · split at h
        · cases h
        · dsimp only at h
          split at h
          · cases h
          · exact absurd h hm.some

/-- The guard lets no refusal pass without failing the session. -/
theorem poisons_guard {fresh : Fresh κ ν ρ} (hm : Makes fresh) :
    Poisons (guard (find codec fresh)) where
  follows kind id start s := by
    have hf := find_follows codec hm kind id start s
    unfold guard
    split
    · exact .refl s
    · rcases hv : find codec fresh kind id start s with ⟨e | node, t⟩ <;> rw [hv] at hf
      · exact hf.fail
      · dsimp only
        split
        · exact hf
        · exact hf.trans (.note _ fun _ _ => nofun)
  refused {kind id start s e t} h := by
    unfold guard at h
    split at h
    · next hs =>
      cases h
      exact hs
    · split at h
      · cases h
        rfl
      · split at h
        · next ht =>
          cases h
          exact ht.1
        · cases h
  absent {kind id start s t} h := by
    unfold guard at h
    split at h
    · cases h
    · split at h
      · cases h
      · next hv =>
        split at h
        · cases h
        · cases h
          exact find_absent hm hv
  nil {s} kind start hs := by
    have hfind : find codec fresh kind .nil start s = (.ok none, s) := rfl
    simp [guard, hfind, hs]

variable (schema codec) in
/-- At every level. -/
theorem poisons_resolve (levels : Nat) : Poisons (resolve schema codec levels) := by
  induction levels with
  | zero => exact poisons_guard makes_tooDeep
  | succ levels ih => exact poisons_guard (makes_materialize ih)

/-- A resolution from outside that succeeds leaves the session as usable as it was. -/
theorem unfailed_of_resolve {levels : Nat} {kind : κ} {id : RecordId} {start : ν}
    {node : Option Address} (hs : s.depth = 0)
    (h : resolve schema codec levels kind id start s = (.ok node, t)) : t.failed = false := by
  have hguard : ∀ {fresh : Fresh κ ν ρ}, Makes fresh →
      guard (find codec fresh) kind id start s = (.ok node, t) → t.failed = false := by
    intro fresh hm h
    have hf := find_follows codec hm kind id start s
    unfold guard at h
    split at h
    · cases h
    · rcases hv : find codec fresh kind id start s with ⟨e | x, u⟩ <;> rw [hv] at hf h
      · cases h
      · dsimp only at h
        split at h
        · cases h
        · next hn =>
          cases h
          have hdepth : u.depth = 0 := hf.depth.trans hs
          simpa [note, hdepth] using hn
  cases levels with
  | zero => exact hguard makes_tooDeep h
  | succ levels => exact hguard (makes_materialize (poisons_resolve schema codec levels)) h

theorem unfailed_of_require {levels : Nat} {kind : κ} {id : RecordId} {node : Address}
    (hs : s.depth = 0)
    (h : require schema (resolve schema codec levels) kind id s = (.ok node, t)) :
    t.failed = false := by
  unfold require at h
  rcases hv : resolve schema codec levels kind id (schema.empty kind) s with ⟨e | x | x, u⟩ <;>
    rw [hv] at h <;> cases h
  exact unfailed_of_resolve hs hv

theorem unfailed_of_visitAll {levels : Nat} {kind : κ} {ids : List RecordId}
    {nodes : List Address} (hs : s.depth = 0)
    (h : visitAll (require schema (resolve schema codec levels) kind) ids s = (.ok nodes, t)) :
    t.failed = false ∨ t = s := by
  induction ids generalizing s nodes with
  | nil =>
    cases h
    exact .inr rfl
  | cons id ids ih =>
    have hf := require_follows schema (poisons_resolve schema codec levels) kind id s
    unfold visitAll at h
    rcases hv : require schema (resolve schema codec levels) kind id s with ⟨e | node, u⟩ <;>
      rw [hv] at h hf
    · cases h
    · dsimp only at h
      rcases hw : visitAll (require schema (resolve schema codec levels) kind) ids u with
        ⟨e | nodes', u'⟩ <;> rw [hw] at h <;> cases h
      rcases ih (hf.depth.trans hs) hw with ht | rfl
      · exact .inl ht
      · exact .inl (unfailed_of_require hs hv)

/-- A request from outside that is granted leaves the session unfailed, or asks for nothing. -/
theorem unfailed_of_request {c : Call κ ν} {x : c.Answer} (hs : s.depth = 0)
    (h : s.request schema codec c = (.ok x, t)) : t.failed = false ∨ t = s := by
  unfold request perform at h
  rcases hv : s.answer schema (resolve schema codec s.limits.maxDepth.toNat) c with ⟨e | y, u⟩ <;>
    rw [hv] at h <;> cases h
  cases c with
  | root kind start =>
    simp only [answer] at hv
    split at hv
    · cases hv
    · rcases hw : resolve schema codec s.limits.maxDepth.toNat kind .root start s with
        ⟨e | x | x, v⟩ <;> rw [hw] at hv <;> cases hv
      exact .inl (unfailed_of_resolve hs hw)
  | resolve kind id start => exact .inl (unfailed_of_resolve hs hv)
  | required kind id => exact .inl (unfailed_of_require hs hv)
  | all kind ids =>
    simp only [answer, requireAll_eq] at hv
    rcases hw : visitAll (require schema (resolve schema codec s.limits.maxDepth.toNat) kind) ids s
      with ⟨e | nodes, v⟩ <;> rw [hw] at hv <;> cases hv
    exact unfailed_of_visitAll hs hw

/-- The session after some requests from outside, whatever the answers. -/
def after (schema : Schema κ ν ρ) (codec : Codec κ ρ) (s : Session κ ν)
    (calls : List (Call κ ν)) : Session κ ν :=
  calls.foldl (fun s c => (s.request schema codec c).2) s

/-- What every request keeps is kept by some of them. -/
theorem kept_after {P : Session κ ν → Prop} (hP : ∀ s c, P s → P (s.request schema codec c).2)
    (hs : P s) (calls : List (Call κ ν)) : P (s.after schema codec calls) := by
  induction calls generalizing s with
  | nil => exact hs
  | cons c calls ih => exact ih (hP s c hs)

theorem after_follows (s : Session κ ν) (calls : List (Call κ ν)) :
    Follows s (s.after schema codec calls) :=
  kept_after (fun t c h => h.trans (perform_follows schema (poisons_resolve schema codec _) t c))
    (.refl s) calls

/-- A refused request, of a caller or of a hook at any level, fails the session for good exactly
if it does not lapse. A request of a caller is granted only if no request inside it has failed the
session: those refused in it were refused for an empty container or an absent reference. -/
theorem refused_poisons_unless_lapsed (schema : Schema κ ν ρ) (codec : Codec κ ρ)
    {container : Container} {limits : Limits} {s : Session κ ν}
    (hs : start container limits = .ok s) (calls : List (Call κ ν)) :
    (∀ levels t c e t', t.perform schema (resolve schema codec levels) c = (.error e, t') →
      (t'.failed = true ↔ ¬ Lapses schema (resolve schema codec levels) t c)) ∧
    (∀ levels t, t.failed = true →
      (∀ c, (t.perform schema (resolve schema codec levels) c).2.failed = true) ∧
      (∀ node hook, (runHook schema (resolve schema codec levels) node hook t).2.failed = true) ∧
      ∀ later, (t.after schema codec later).failed = true) ∧
    (∀ c x t', (s.after schema codec calls).request schema codec c = (.ok x, t') →
      ∃ more, t'.trace = more ++ (s.after schema codec calls).trace ∧
        ∀ e failed, .refused e failed ∈ more → failed = false ∧ e.Mild) := by
  refine ⟨fun levels t c e t' h => ?_, fun levels t ht => ⟨fun c => ?_, fun node hook => ?_,
    fun later => ?_⟩, fun c x t' h => ?_⟩
  · unfold perform at h
    rcases hv : t.answer schema (resolve schema codec levels) c with ⟨e' | y, u⟩ <;>
      rw [hv] at h <;> cases h
    have hiff := (answer_refused (poisons_resolve schema codec levels) hv).1
    rw [← hiff, Bool.not_eq_false]
    rfl
  · exact (perform_follows schema (poisons_resolve schema codec levels) t c).failed ht
  · exact (runHook_follows schema (poisons_resolve schema codec levels) node hook t).failed ht
  · exact (after_follows t later).failed ht
  · have hstart : s.depth = 0 := by
      unfold start at hs
      split at hs <;> cases hs
      rfl
    have hdepth : (s.after schema codec calls).depth = 0 :=
      (after_follows s calls).depth.trans hstart
    have hf := perform_follows schema
      (poisons_resolve schema codec (s.after schema codec calls).limits.maxDepth.toNat)
      (s.after schema codec calls) c
    have hgranted := unfailed_of_request hdepth h
    unfold request at h
    rw [h] at hf
    rcases hgranted with ht | rfl
    · obtain ⟨more, hmore, hrefused⟩ := hf.trace
      refine ⟨more, hmore, ?_⟩
      intro e failed he
      cases failed with
      | true => exact absurd (hrefused e true he) (by simp [ht])
      | false => exact ⟨rfl, hrefused e false he⟩
    · exact ⟨[], rfl, fun _ _ he => absurd he List.not_mem_nil⟩

end Levels

section Catalog

open ObjectGraph.Catalog

def oneEmptyRecord : Rebuilding :=
  { limits := {}, container := { records := [[]] }, table := .withCapacity 1 }

/-- A required reference that is absent lapses, and so leaves the session as usable as before. -/
theorem request_required_nil_lapses :
    start { records := [[]] } {} = .ok oneEmptyRecord ∧ ∃ t,
      oneEmptyRecord.request rebuildSchema (codec .cbor) (.required .peer .nil) =
        (.error (.nilReference "graphwire_dry_tests::peers::Peer"), t) ∧ t.failed = false := by
  have hstart : start { records := [[]] } {} = .ok oneEmptyRecord := rfl
  have hiff := (refused_poisons_unless_lapsed rebuildSchema (codec .cbor) hstart []).1 _ _
    (.required .peer .nil) _ _ (rfl : oneEmptyRecord.request _ _ _ = (.error _, _))
  refine ⟨hstart, _, rfl, ?_⟩
  rw [← Bool.not_eq_true, hiff, not_not]
  exact ⟨rfl, rfl⟩

/-- Not every refusal fails the session it happens in. -/
theorem not_every_refusal_poisons :
    ¬ ∀ (container : Container) (limits : Limits) (s : Rebuilding) (c : Call Kind Built) e t,
      start container limits = .ok s → s.request rebuildSchema (codec .cbor) c = (.error e, t) →
        t.failed = true := by
  intro h
  have hpoisoned := h { records := [[]] } {} oneEmptyRecord (.required .peer .nil) _ _ rfl rfl
  cases hpoisoned

end Catalog

end Rebuild.Session
end ObjectGraph
