import ObjectGraph.Proofs.Rebuild.Poison

/-! What a failed session still does. It notes the requests it refuses (`perform_failed`), and the
hooks under way may still write to their own nodes (`runHook_failed`). Once a request was refused in
a failed session, no record is decoded, no node made and no hook started, whichever hooks are under
way (`settles_resolve`). -/
namespace ObjectGraph.Rebuild

/-- Whether a request is for any number. A root is not looked for in an empty container. -/
def Call.Resolves {κ ν : Type} (container : Container) : Call κ ν → Prop
  | .root .. => container.isEmpty = false
  | .resolve .. | .required .. => True
  | .all _ ids => ids ≠ []

/-- A refusal in a failed session. -/
def Event.Fatal : Event → Prop
  | .refused _ failed => failed = true
  | _ => False

/-- A step that makes nothing of any record. -/
def Event.Quiet : Event → Prop
  | .decoded _ | .constructed .. | .entered .. => False
  | .refused _ failed => failed = true
  | .left _ | .resolved .. => True

namespace Session

variable {κ ν ρ : Type} {s t u : Session κ ν}

/-- The same session, with further refusals noted. -/
def Notes (s t : Session κ ν) : Prop :=
  ∃ more : List Graph.Error, t = { s with trace := more.map (Event.refused · true) ++ s.trace }

namespace Notes

theorem refl (s : Session κ ν) : Notes s s := ⟨[], rfl⟩

theorem trans (h : Notes s t) (h' : Notes t u) : Notes s u := by
  obtain ⟨more, rfl⟩ := h
  obtain ⟨more', rfl⟩ := h'
  exact ⟨more' ++ more, by simp⟩

theorem refused (s : Session κ ν) (e : Graph.Error) : Notes s (s.note (.refused e true)) :=
  ⟨[e], rfl⟩

theorem failed (h : Notes s t) (hs : s.failed = true) : t.failed = true := by
  obtain ⟨more, rfl⟩ := h
  exact hs

theorem assign (h : Notes s t) (node : Address) (content : ν) :
    Notes (s.assign node content) (t.assign node content) := by
  obtain ⟨more, rfl⟩ := h
  exact ⟨more, rfl⟩

end Notes

/-- Only what is written last into a node stays there. -/
theorem assign_assign (s : Session κ ν) (node : Address) (first last : ν) :
    (s.assign node first).assign node last = s.assign node last := by
  unfold assign
  congr 1
  apply Array.ext
  · simp
  · intro i hi hi'
    simp only [Array.getElem_modify]
    split <;> rfl

section Requests

variable [DecidableEq κ] [NodeType κ] (schema : Schema κ ν ρ) (codec : Codec κ ρ)

theorem resolve_failed (hs : s.failed = true) (levels : Nat) (kind : κ) (id : RecordId)
    (start : ν) : resolve schema codec levels kind id start s = (.error .sessionFailed, s) := by
  cases levels <;> simp [resolve, guard, hs]

theorem answer_failed (hs : s.failed = true) (levels : Nat) {c : Call κ ν}
    (hc : c.Resolves s.container) :
    s.answer schema (resolve schema codec levels) c = (.error .sessionFailed, s) := by
  have hrequire : ∀ kind id, require schema (resolve schema codec levels) kind id s =
      (.error .sessionFailed, s) := by
    intro kind id
    rw [require, resolve_failed schema codec hs]
  cases c with
  | root kind start =>
    have hempty : s.container.isEmpty = false := hc
    simp [answer, hempty, resolve_failed schema codec hs]
  | resolve kind id start => exact resolve_failed schema codec hs levels kind id start
  | required kind id => exact hrequire kind id
  | all kind ids =>
    cases ids with
    | nil => exact absurd rfl hc
    | cons id ids => simp [answer, requireAll, hrequire]

/-- A request for a number, whichever it is, is refused in a failed session, and nothing else
happens. -/
theorem perform_failed (hs : s.failed = true) (levels : Nat) {c : Call κ ν}
    (hc : c.Resolves s.container) :
    s.perform schema (resolve schema codec levels) c =
      (.error .sessionFailed, s.note (.refused .sessionFailed true)) := by
  rw [perform, answer_failed schema codec hs levels hc]
  dsimp only
  rw [hs]

theorem perform_notes (hs : s.failed = true) (levels : Nat) (c : Call κ ν) :
    Notes s (s.perform schema (resolve schema codec levels) c).2 := by
  by_cases hc : c.Resolves s.container
  · rw [perform_failed schema codec hs levels hc]
    exact .refused s _
  · cases c with
    | root kind start =>
      have hempty : s.container.isEmpty = true := by simpa [Call.Resolves] using hc
      simp only [perform, answer, hempty, if_true, hs]
      exact .refused s _
    | resolve | required => exact absurd trivial hc
    | all kind ids =>
      obtain rfl : ids = [] := not_not.1 hc
      exact .refl s

/-- A hook under way can still write to its node. -/
theorem runHook_failed (hs : s.failed = true) (levels : Nat) (node : Address) (hook : Hook κ ν) :
    let t := (runHook schema (resolve schema codec levels) node hook s).2
    Notes s t ∨ ∃ content, Notes (s.assign node content) t := by
  induction hook generalizing s with
  | done | fail => exact .inl (.refl s)
  | assign content next ih =>
    rcases ih (s := s.assign node content) hs with h | ⟨last, h⟩
    · exact .inr ⟨content, h⟩
    · exact .inr ⟨last, assign_assign s node content last ▸ h⟩
  | call c next ih =>
    have hnotes := perform_notes schema codec hs levels c
    rcases ih _ (hnotes.failed hs) with h | ⟨content, h⟩
    · exact .inl (hnotes.trans h)
    · exact .inr ⟨content, (hnotes.assign node content).trans h⟩
  | look next ih => exact ih s.glance hs

theorem after_failed (hs : s.failed = true) (calls : List (Call κ ν)) :
    Notes s (s.after schema codec calls) := by
  induction calls generalizing s with
  | nil => exact .refl s
  | cons c calls ih =>
    have hnotes := perform_notes schema codec hs s.limits.maxDepth.toNat c
    exact hnotes.trans (ih (hnotes.failed hs))

end Requests

/-- A session in which only quiet steps followed a fatal one. -/
structure Orderly (s : Session κ ν) : Prop where
  /-- The steps are listed latest first. -/
  order : s.trace.Pairwise fun later earlier => earlier.Fatal → later.Quiet
  failed : ∀ event ∈ s.trace, event.Fatal → s.failed = true

/-- In between requests, a session that failed has noted so. -/
structure Settled (s : Session κ ν) : Prop extends Orderly s where
  noted : s.failed = true → ∃ event ∈ s.trace, event.Fatal

/-- How a part of a session may end. A refusal is still to be noted. -/
def Ends {β : Type} : Except Graph.Error β × Session κ ν → Prop
  | (.error _, s) => Orderly s
  | (.ok _, s) => Settled s

theorem Orderly.note (h : Orderly s) {event : Event} (hquiet : s.failed = true → event.Quiet)
    (hfatal : event.Fatal → s.failed = true) : Orderly (s.note event) where
  order := List.pairwise_cons.2 ⟨fun e he hf => hquiet (h.failed e he hf), h.order⟩
  failed := List.forall_mem_cons.2 ⟨hfatal, h.failed⟩

theorem Orderly.fail (h : Orderly s) : Orderly { s with failed := true } :=
  ⟨h.order, fun _ _ _ => rfl⟩

/-- The refusal that fails a session is noted. -/
theorem Orderly.refused (h : Orderly s) (e : Graph.Error) :
    Settled (s.note (.refused e s.failed)) :=
  ⟨h.note id id, fun hs => ⟨_, List.mem_cons_self, hs⟩⟩

namespace Settled

/-- A failed session may only take quiet steps, and no other session a fatal one. -/
theorem note (h : Settled s) {event : Event} (hquiet : s.failed = true → event.Quiet)
    (hfatal : event.Fatal → s.failed = true) : Settled (s.note event) where
  toOrderly := h.toOrderly.note hquiet hfatal
  noted hs := by
    obtain ⟨e, he, hf⟩ := h.noted hs
    exact ⟨e, List.mem_cons_of_mem event he, hf⟩

/-- As long as a session has not failed it may take any step but a fatal one. -/
theorem note_unfailed (h : Settled s) (hs : s.failed = false) {event : Event}
    (hfatal : ¬ event.Fatal) : Settled (s.note event) :=
  h.note (fun hf => absurd hf (by simp [hs])) (fun hf => absurd hf hfatal)

theorem congr (h : Settled s) (htrace : t.trace = s.trace) (hfailed : t.failed = s.failed) :
    Settled t := by
  obtain ⟨⟨horder, hfatal⟩, hnoted⟩ := h
  rw [← htrace] at horder hfatal hnoted
  rw [← hfailed] at hfatal hnoted
  exact ⟨⟨horder, hfatal⟩, hnoted⟩

theorem assign (h : Settled s) (node : Address) (content : ν) :
    Settled (s.assign node content) := h.congr rfl rfl

theorem setBusy (h : Settled s) (node : Address) (busy : Bool) : Settled (s.setBusy node busy) :=
  h.congr rfl rfl

theorem construct (h : Settled s) (hs : s.failed = false) (kind : κ) (id : RecordId)
    (content : ν) : Settled (s.construct kind id content).2 := by
  apply Settled.note_unfailed
  · exact h.congr rfl rfl
  · exact hs
  · nofun

theorem enter (h : Settled s) (hs : s.failed = false) (id : RecordId) : Settled (s.enter id) := by
  apply Settled.note_unfailed
  · exact h.congr rfl rfl
  · exact hs
  · nofun

theorem leave (h : Settled s) (id : RecordId) : Settled (s.leave id) := by
  apply Settled.note
  · exact h.congr rfl rfl
  · exact fun _ => trivial
  · nofun

end Settled

/-- A way to resolve numbers that lets a fatal step be followed by quiet ones only. -/
def Settles (resolve : Resolve κ ν) : Prop :=
  ∀ kind id start s, Settled s → Ends (resolve kind id start s)

/-- The same for a record without a node. It is met by a session that has not failed. -/
def SettlesFresh (fresh : Fresh κ ν ρ) : Prop :=
  ∀ kind id start record s, Settled s → s.failed = false → Ends (fresh kind id start record s)

section History

variable [NodeType κ] (schema : Schema κ ν ρ) {resolve : Resolve κ ν}

theorem ends_require (hr : Settles resolve) (kind : κ) (id : RecordId) (hs : Settled s) :
    Ends (require schema resolve kind id s) := by
  have hends := hr kind id (schema.empty kind) s hs
  unfold require
  rcases hv : resolve kind id (schema.empty kind) s with ⟨e | node | node, t⟩ <;> rw [hv] at hends
  · exact hends
  · exact hends.toOrderly
  · exact hends

theorem ends_requireAll (hr : Settles resolve) (kind : κ) (ids : List RecordId)
    (done : List Address) (hs : Settled s) :
    Ends (requireAll (require schema resolve kind) ids done s) := by
  induction ids generalizing s done with
  | nil => exact hs
  | cons id ids ih =>
    have hends := ends_require schema hr kind id hs
    unfold requireAll
    rcases hv : require schema resolve kind id s with ⟨e | node, t⟩ <;> rw [hv] at hends
    · exact hends
    · exact ih (node :: done) hends

theorem ends_answer (hr : Settles resolve) (hs : Settled s) (c : Call κ ν) :
    Ends (s.answer schema resolve c) := by
  cases c with
  | root kind start =>
    have hends := hr kind .root start s hs
    simp only [answer]
    split
    · exact hs.toOrderly
    · rcases hv : resolve kind .root start s with ⟨e | node | node, t⟩ <;> rw [hv] at hends
      · exact hends
      · exact hends.toOrderly
      · exact hends
  | resolve kind id start => exact hr kind id start s hs
  | required kind id => exact ends_require schema hr kind id hs
  | all kind ids => exact ends_requireAll schema hr kind ids [] hs

theorem settled_perform (hr : Settles resolve) (hs : Settled s) (c : Call κ ν) :
    Settled (s.perform schema resolve c).2 := by
  have hends := ends_answer schema hr hs c
  unfold perform
  rcases hv : s.answer schema resolve c with ⟨e | x, t⟩ <;> rw [hv] at hends
  · exact hends.refused e
  · exact hends

theorem settled_runHook (hr : Settles resolve) (node : Address) (hook : Hook κ ν)
    (hs : Settled s) : Settled (runHook schema resolve node hook s).2 := by
  induction hook generalizing s with
  | done | fail => exact hs
  | assign content next ih => exact ih (hs.assign node content)
  | call c next ih => exact ih _ (settled_perform schema hr hs c)
  | look next ih => exact ih s.glance hs

/-- A node is made, and its hook started, in a session that has not failed. -/
theorem settlesFresh_materialize (hr : Settles resolve) :
    SettlesFresh (materialize schema resolve) := by
  intro kind id start record s hs hunfailed
  have hmade := hs.construct hunfailed kind id start
  unfold materialize
  rcases hc : s.construct kind id start with ⟨node, t⟩
  rw [hc] at hmade
  have hsame : t.failed = false := by
    cases hc
    exact hunfailed
  have hfilled : Settled (t.fill schema resolve id node start record).2 := by
    have hran := settled_runHook schema hr node (schema.hook start record)
      ((hmade.enter hsame id).setBusy node true)
    unfold fill
    split
    · exact hmade
    · exact (hran.setBusy node false).leave id
  dsimp only
  rcases hv : t.fill schema resolve id node start record with ⟨e | x, u⟩ <;> rw [hv] at hfilled
  · exact hfilled.toOrderly
  · exact hfilled

variable [DecidableEq κ] (codec : Codec κ ρ)

theorem ends_find {fresh : Fresh κ ν ρ} (hfresh : SettlesFresh fresh) (kind : κ) (id : RecordId)
    (start : ν) (hs : Settled s) (hunfailed : s.failed = false) :
    Ends (find codec fresh kind id start s) := by
  have hdecoded : Settled (s.note (.decoded id)) := hs.note_unfailed hunfailed nofun
  unfold find
  split
  · exact hs
  · split
    · exact hs.toOrderly
    · exact hs
    · split
      · exact hs.toOrderly
      · split
        · exact hs.toOrderly
        · dsimp only
          split
          · exact hdecoded.toOrderly
          · exact hfresh _ _ _ _ _ hdecoded hunfailed

theorem settles_guard {fresh : Fresh κ ν ρ} (hfresh : SettlesFresh fresh) :
    Settles (guard (find codec fresh)) := by
  intro kind id start s hs
  unfold guard
  split
  · exact hs.toOrderly
  · next hunfailed =>
    have hends := ends_find codec hfresh kind id start hs (by simpa using hunfailed)
    rcases hv : find codec fresh kind id start s with ⟨e | node, t⟩ <;> rw [hv] at hends
    · exact hends.fail
    · dsimp only
      split
      · exact hends.toOrderly
      · exact hends.note (fun _ => trivial) False.elim

theorem settles_resolve (levels : Nat) : Settles (Session.resolve schema codec levels) := by
  induction levels with
  | zero => exact settles_guard codec fun _ _ _ _ _ hs _ => hs.toOrderly
  | succ levels ih => exact settles_guard codec (settlesFresh_materialize schema ih)

theorem settled_after (hs : Settled s) (calls : List (Call κ ν)) :
    Settled (s.after schema codec calls) :=
  kept_after (P := Settled) (fun _ c h => settled_perform schema (settles_resolve schema codec _) h c) hs calls

omit [NodeType κ] [DecidableEq κ] in
theorem settled_of_start {container : Container} {limits : Limits}
    (hs : start container limits = .ok s) : Settled s ∧ s.depth = 0 := by
  unfold start at hs
  split at hs <;> cases hs
  exact ⟨⟨⟨.nil, nofun⟩, nofun⟩, rfl⟩

/-- A failed session refuses every request for a number, and notes so; nothing else changes, except
that the hooks under way may write to their own nodes. Once a request of a caller or of a hook has
been refused in a failed session, no record is decoded, no node made and no hook started; a session
has failed exactly if one has been refused so. The request of a caller in which a session fails is
refused. -/
theorem failed_session_frozen (schema : Schema κ ν ρ) (codec : Codec κ ρ) {container : Container}
    {limits : Limits} {s : Session κ ν} (hs : start container limits = .ok s)
    (calls : List (Call κ ν)) :
    let s' := s.after schema codec calls
    (∀ levels (t : Session κ ν), t.failed = true →
      (∀ c : Call κ ν, c.Resolves t.container →
        t.perform schema (Session.resolve schema codec levels) c =
          (.error .sessionFailed, t.note (.refused .sessionFailed true))) ∧
      (∀ c, Notes t (t.perform schema (Session.resolve schema codec levels) c).2) ∧
      (∀ node hook, let u := (runHook schema (Session.resolve schema codec levels) node hook t).2
        Notes t u ∨ ∃ content, Notes (t.assign node content) u) ∧
      ∀ later, Notes t (t.after schema codec later)) ∧
    s'.trace.Pairwise (fun later earlier => earlier.Fatal → later.Quiet) ∧
    (s'.failed = true ↔ ∃ event ∈ s'.trace, event.Fatal) ∧
    ∀ c, s'.failed = false → (s'.request schema codec c).2.failed = true →
      ∃ e, (s'.request schema codec c).1 = .error e := by
  intro s'
  obtain ⟨hstart, hdepth⟩ := settled_of_start hs
  have hs' : Settled s' := settled_after schema codec hstart calls
  refine ⟨fun levels t ht => ⟨fun c hc => perform_failed schema codec ht levels hc,
    fun c => perform_notes schema codec ht levels c,
    fun node hook => runHook_failed schema codec ht levels node hook,
    fun later => after_failed schema codec ht later⟩, hs'.order,
    ⟨hs'.noted, fun ⟨event, hmem, hfatal⟩ => hs'.failed event hmem hfatal⟩, ?_⟩
  intro c hunfailed hfailed
  rcases hc : s'.request schema codec c with ⟨e | x, t⟩ <;> rw [hc] at hfailed
  · exact ⟨e, rfl⟩
  · have ht : t.failed = false := by
      rcases unfailed_of_request ((after_follows s calls).depth.trans hdepth) hc with ht | rfl
      · exact ht
      · exact hunfailed
    exact absurd hfailed (by simp [ht])

end History

section Catalog

open ObjectGraph.Catalog

/-- After a root that does not decode, the absent reference is refused like any other number. -/
theorem required_nil_after_failure :
    start { records := [[]] } {} = .ok oneEmptyRecord ∧
    let s := oneEmptyRecord.after rebuildSchema (codec .cbor) [.resolve .peer .root (.empty .peer)]
    s.failed = true ∧ s.request rebuildSchema (codec .cbor) (.required .peer .nil) =
      (.error .sessionFailed, s.note (.refused .sessionFailed true)) := by
  have hstart : start { records := [[]] } {} = .ok oneEmptyRecord := rfl
  have hfrozen := failed_session_frozen rebuildSchema (codec .cbor) hstart
    [.resolve .peer .root (.empty .peer)]
  exact ⟨hstart, rfl, (hfrozen.1 _ _ rfl).1 (.required .peer .nil) trivial⟩

end Catalog

end Session
end ObjectGraph.Rebuild
