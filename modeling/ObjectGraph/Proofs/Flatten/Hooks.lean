import ObjectGraph.Proofs.Flatten.Opening
import ObjectGraph.Proofs.NodeTable

/-! Which hooks a pass runs, and how deep inside each other. A hook is run for the number that was
given out last, so none is run twice (`Logged`). Each level of the recursion uses up a hook that may
start and a number that may be given out, so a pass comes to an end (`serialize_eq_descend`). -/
namespace ObjectGraph.Flatten

def Event.entered? : Event → Option RecordId
  | .entered id _ => some id
  | .left _ => none

/-- The nodes whose hooks are under way after some steps, by number, innermost first. -/
def underway : (trace : List Event) → List RecordId
  | [] => []
  | .entered id _ :: earlier => id :: underway earlier
  | .left _ :: earlier => (underway earlier).tail

theorem entered_of_underway {trace : List Event} {id : RecordId} (h : id ∈ underway trace) :
    id ∈ trace.filterMap Event.entered? := by
  induction trace with
  | nil => cases h
  | cons event earlier ih =>
    cases event with
    | entered first depth =>
      rcases List.mem_cons.1 h with rfl | h
      · exact List.mem_cons_self
      · exact List.mem_cons_of_mem _ (ih h)
    | left last => exact ih (List.mem_of_mem_tail h)

namespace Session

variable {α ν ρ κ : Type} {s : Session α ρ}

/-- The nodes whose hooks have been run, by number, latest first. -/
def hooked (s : Session α ρ) : List RecordId := s.trace.filterMap Event.entered?

def hookRuns [DecidableEq α] (s : Session α ρ) (node : α) : Nat :=
  match s.numbering.lookup node with
  | none => 0
  | some id => s.hooked.count id

/-- What is known of a pass while the hooks of some nodes are under way. -/
structure Logged (limits : Limits) (hooks : List RecordId) (s : Session α ρ) : Prop where
  limits_eq : s.limits = limits
  aligned : Aligned s
  room : s.records.size ≤ limits.maxRecords.toNat
  depth : s.depth = hooks.length
  underway : Flatten.underway s.trace = hooks
  nesting : ∀ earlier, earlier <:+ s.trace →
    (Flatten.underway earlier).length ≤ limits.maxDepth.toNat
  once : s.hooked.Nodup
  numbered : ∀ id ∈ s.hooked, ∃ index, id.index? = some index ∧ index < s.records.size
  /-- A record is there only if the hook of its node was run. -/
  stored : ∀ index p, s.records[index]? = some (some p) →
    ∃ id ∈ s.hooked, id.index? = some index

namespace Logged

variable {limits : Limits} {hooks : List RecordId} {id : RecordId}

theorem first (limits : Limits) (rootTaken : Bool) :
    Logged limits [] ({ limits, rootTaken } : Session α ρ) where
  limits_eq := rfl
  aligned := ⟨rfl, rfl⟩
  room := Nat.zero_le _
  depth := rfl
  underway := rfl
  nesting earlier h := by
    obtain rfl := List.suffix_nil.1 h
    exact Nat.zero_le _
  once := .nil
  numbered := nofun
  stored := nofun

/-- The slot of a new node is empty. -/
theorem push [DecidableEq α] (h : Logged limits hooks s) {a : α} {numbering : Numbering α}
    (hn : s.numbering.lookup a = none)
    (hr : s.numbering.register a s.limits.maxRecords = .ok (id, numbering)) :
    Logged limits hooks { s with numbering, records := s.records.push none } where
  limits_eq := h.limits_eq
  aligned := h.aligned.push hn hr
  room := by
    obtain ⟨-, -, -, hroom⟩ := Numbering.register_new hn hr
    rw [h.aligned.next, h.limits_eq] at hroom
    simpa using hroom
  depth := h.depth
  underway := h.underway
  nesting := h.nesting
  once := h.once
  numbered id hid := by
    obtain ⟨index, hi, hlt⟩ := h.numbered id hid
    exact ⟨index, hi, by simpa using Nat.lt_succ_of_lt hlt⟩
  stored index p hp := by
    rw [Array.getElem?_push] at hp
    split at hp
    · cases hp
    · exact h.stored index p hp

/-- The hook of a node is run right after the node has got its number. -/
theorem enter [DecidableEq α] (h : Logged limits hooks s) {a : α} {numbering : Numbering α}
    (hn : s.numbering.lookup a = none)
    (hr : s.numbering.register a s.limits.maxRecords = .ok (id, numbering))
    (hdepth : hooks.length < limits.maxDepth.toNat) :
    Logged limits (id :: hooks)
      (Session.enter { s with numbering, records := s.records.push none } id) := by
  have hpushed := h.push hn hr
  have hindex : id.index? = some s.records.size := by
    rw [← h.aligned.next]
    exact (Numbering.register_new hn hr).1
  have hnew : id ∉ s.hooked := by
    intro hid
    obtain ⟨index, hi, hlt⟩ := h.numbered id hid
    rw [hindex] at hi
    cases hi
    exact lt_irrefl _ hlt
  refine ⟨h.limits_eq, ⟨hpushed.aligned.next, hpushed.aligned.size⟩, hpushed.room, ?_, ?_, ?_, ?_,
    ?_, ?_⟩
  · exact congrArg (· + 1) h.depth
  · exact congrArg (id :: ·) h.underway
  · intro earlier hsuffix
    rcases List.suffix_cons_iff.1 hsuffix with rfl | hsuffix
    · rw [Flatten.underway, h.underway]
      exact hdepth
    · exact h.nesting earlier hsuffix
  · exact List.nodup_cons.2 ⟨hnew, h.once⟩
  · exact List.forall_mem_cons.2 ⟨⟨_, hindex, by simp [Session.enter]⟩, hpushed.numbered⟩
  · intro index p hp
    obtain ⟨id', hid, hi⟩ := hpushed.stored index p hp
    exact ⟨id', List.mem_cons_of_mem _ hid, hi⟩

theorem leave (h : Logged limits (id :: hooks) s) (id' : RecordId) :
    Logged limits hooks (s.leave id') := by
  have hdepth := h.depth
  have hunderway : Flatten.underway (.left id' :: s.trace) = hooks := by
    rw [Flatten.underway, h.underway, List.tail_cons]
  refine ⟨h.limits_eq, ⟨h.aligned.next, h.aligned.size⟩, h.room, ?_, hunderway, ?_, h.once,
    h.numbered, h.stored⟩
  · simp [Session.leave, hdepth]
  · intro earlier hsuffix
    rcases List.suffix_cons_iff.1 hsuffix with rfl | hsuffix
    · have hlast := h.nesting s.trace (List.suffix_refl _)
      rw [h.underway, List.length_cons] at hlast
      rw [hunderway]
      omega
    · exact h.nesting earlier hsuffix

/-- The record of a node whose hook was run. -/
theorem store (h : Logged limits hooks s) {index : Nat} (hid : id ∈ s.hooked)
    (hi : id.index? = some index) (record : Pending ρ) :
    Logged limits hooks (s.store index record) where
  limits_eq := h.limits_eq
  aligned := h.aligned.store index record
  room := by simpa [Session.store] using h.room
  depth := h.depth
  underway := h.underway
  nesting := h.nesting
  once := h.once
  numbered id hid := by simpa [Session.store] using h.numbered id hid
  stored index' p hp := by
    rw [Session.store, Array.getElem?_setIfInBounds] at hp
    split at hp
    · next hsame => exact ⟨id, hid, hsame ▸ hi⟩
    · exact h.stored index' p hp

end Logged

section Pass

variable [DecidableEq α] (schema : Schema α ν ρ) (heap : α → Cell ν) {limits : Limits}
  {hooks : List RecordId} {inner inner' : Visit α ρ} {node : α}

/-- A new node ends a part of the pass, whether its hook is run or refused. -/
theorem logged_welcome
    (hv : ∀ id a s, Logged limits (id :: hooks) s → Logged limits (id :: hooks) (inner a s).2)
    (hdepth : hooks.length < limits.maxDepth.toNat) (h : Logged limits hooks s)
    (hn : s.numbering.lookup node = none) :
    Logged limits hooks (welcome schema heap inner node s).2 := by
  unfold welcome
  rcases hr : s.numbering.register node s.limits.maxRecords with e | ⟨id, numbering⟩
  · exact h
  have hindex := (Numbering.register_new hn hr).1
  have hran := kept_runHook (hv id) (schema.hook (heap node).content) (h.enter hn hr hdepth)
  simp only [hindex, produce]
  split_ifs with hb
  · exact h.push hn hr
  · rcases hrun : runHook inner (schema.hook (heap node).content)
      (Session.enter { s with numbering, records := s.records.push none } id) with ⟨e | record, t⟩ <;>
      rw [hrun] at hran
    · exact hran.leave id
    · have hunderway : id ∈ underway t.trace := by
        rw [hran.underway]
        exact List.mem_cons_self
      have hid : id ∈ t.trace.filterMap Event.entered? := entered_of_underway hunderway
      exact (hran.leave id).store hid hindex _

theorem logged_visit {levels : Nat} (hl : hooks.length + levels ≤ limits.maxDepth.toNat) (a : α)
    (s : Session α ρ) (h : Logged limits hooks s) :
    Logged limits hooks (Session.visit schema heap levels a s).2 := by
  induction levels generalizing hooks a s with
  | zero =>
    unfold Session.visit known
    split <;> exact h
  | succ levels ih =>
    unfold Session.visit known
    split
    · exact h
    · next hn =>
      refine logged_welcome schema heap (fun id a s => ih ?_ a s) (by omega) h hn
      rw [List.length_cons]
      omega

/-- One level of the recursion as a session sees it: a hook may start as long as fewer than the
limit are under way. The nodes that it asks for are visited by `inner`. -/
def descend (inner : Visit α ρ) : Visit α ρ :=
  known fun node s =>
    if s.limits.maxDepth.toNat ≤ s.depth then tooDeep node s
    else welcome schema heap inner node s

variable (limits hooks) in
/-- A session whose recursion is less than `n` levels from its end: few hooks are still allowed, or
few numbers are left. -/
def Ending (levels n : Nat) (s : Session α ρ) : Prop :=
  Logged limits hooks s ∧ (levels < n ∨ limits.maxRecords.toNat < n + s.records.size)

theorem ending_visit {levels n : Nat} (hl : hooks.length + levels ≤ limits.maxDepth.toNat) (a : α)
    (s : Session α ρ) (h : Ending limits hooks levels n s) :
    Ending limits hooks levels n (Session.visit schema heap levels a s).2 := by
  obtain ⟨hs, hn⟩ := h
  have hsize := (extends_visit schema heap levels a s hs.aligned).2.size
  exact ⟨logged_visit schema heap hl a s hs, hn.imp_right fun hn => by omega⟩

theorem welcome_congr {levels n : Nat}
    (hv : ∀ id a s, Ending limits (id :: hooks) levels n s →
      Ending limits (id :: hooks) levels n (inner a s).2)
    (ha : ∀ id a s, Ending limits (id :: hooks) levels n s → inner a s = inner' a s)
    (hdepth : hooks.length < limits.maxDepth.toNat)
    (h : Ending limits hooks (levels + 1) (n + 1) s) (hn : s.numbering.lookup node = none) :
    welcome schema heap inner node s = welcome schema heap inner' node s := by
  obtain ⟨hs, hends⟩ := h
  unfold welcome
  rcases hr : s.numbering.register node s.limits.maxRecords with e | ⟨id, numbering⟩
  · rfl
  have hstarted : Ending limits (id :: hooks) levels n
      (Session.enter { s with numbering, records := s.records.push none } id) := by
    refine ⟨hs.enter hn hr hdepth, ?_⟩
    simp only [Session.enter, Array.size_push]
    omega
  dsimp only
  rw [produce, produce, runHook_congr (hv id) (ha id) (schema.hook (heap node).content) hstarted]

/-- Each level of the recursion leaves one hook less that may start inside it and one number less to
give out, so nothing depends on what is at its bottom. -/
theorem visit_eq_descend {levels : Nat} (hl : hooks.length + levels = limits.maxDepth.toNat)
    (bottom : Visit α ρ) (n : Nat) (a : α) (s : Session α ρ) (h : Ending limits hooks levels n s) :
    Session.visit schema heap levels a s = (descend schema heap)^[n] bottom a s := by
  induction n generalizing hooks levels a s with
  | zero =>
    obtain ⟨hs, hn⟩ := h
    have hroom := hs.room
    omega
  | succ n ih =>
    obtain ⟨hs, hn⟩ := h
    rw [Function.iterate_succ_apply', descend]
    cases levels with
    | zero =>
      unfold Session.visit known
      dsimp only
      rw [hs.limits_eq, hs.depth, if_pos (by omega)]
    | succ levels =>
      have hinner (id : RecordId) : (id :: hooks).length + levels = limits.maxDepth.toNat := by
        rw [List.length_cons]
        omega
      unfold Session.visit known
      dsimp only
      rw [hs.limits_eq, hs.depth, if_neg (by omega)]
      cases hlookup : s.numbering.lookup a with
      | some id => rfl
      | none =>
        exact welcome_congr schema heap (fun id => ending_visit schema heap (hinner id).le)
          (fun id => ih (hinner id)) (by omega) ⟨hs, hn⟩ hlookup

theorem logged_serialize (limits : Limits) (root : α) :
    Logged limits [] (serialize schema heap root { limits }).2 :=
  logged_visit schema heap (by simp) root _ (.first limits true)

omit [DecidableEq α] in
/-- A container that is made takes a call of the codec for each of its records. -/
theorem encodeRecords_calls {codec : Codec κ ρ} {n index calls : Nat}
    {done rows : List (String × Bytes)}
    (h : encodeRecords codec s n index done = (.ok rows, calls)) : calls = index + n := by
  induction n generalizing index done with
  | zero =>
    cases h
    rfl
  | succ n ih =>
    unfold encodeRecords at h
    split at h
    · cases h
    · dsimp only at h
      split at h
      · cases h
      · rw [ih h]
        omega

/-- The number of a node whose hook was run is that node's alone. -/
theorem existsUnique_hooked (ht : Titled schema heap s) (h : Logged limits hooks s) {id : RecordId}
    (hid : id ∈ s.hooked) : ∃! node, s.numbering.lookup node = some id := by
  obtain ⟨index, hi, hlt⟩ := h.numbered id hid
  have hat : ∀ {b}, s.numbering.lookup b = some id → s.numbering.nodes[index]? = some b := by
    intro b hb
    rw [← ht.sequential b, Numbering.index?, hb, Option.bind_some, hi]
  have hlength : index < s.numbering.nodes.length := by
    rwa [Numbering.length_nodes, ← objectCount, h.aligned.size]
  have hnode := List.getElem?_eq_getElem hlength
  obtain ⟨id', hid', hi'⟩ := Option.bind_eq_some_iff.1 ((ht.sequential _ _).2 hnode)
  obtain rfl := RecordId.eq_of_index? hi hi'
  refine ⟨s.numbering.nodes[index], hid', fun b hb => ?_⟩
  rw [hat hb] at hnode
  exact Option.some.inj hnode

omit [DecidableEq α] in
theorem length_hooked_le (h : Logged limits hooks s) :
    s.hooked.length ≤ limits.maxRecords.toNat :=
  (RecordId.length_le_of_index? h.once h.numbered).trans h.room

theorem hookRuns_le_one (h : Logged limits hooks s) (node : α) : s.hookRuns node ≤ 1 := by
  unfold hookRuns
  split
  · exact Nat.zero_le _
  · exact List.nodup_iff_count_le_one.1 h.once _

/-- The hook of a node that has a record was run. -/
theorem hookRuns_of_stored (h : Logged limits hooks s) {id : RecordId} {index : Nat}
    {p : Pending ρ} (hl : s.numbering.lookup node = some id) (hi : id.index? = some index)
    (hp : s.records[index]? = some (some p)) : s.hookRuns node = 1 := by
  obtain ⟨id', hid, hi'⟩ := h.stored index p hp
  obtain rfl := RecordId.eq_of_index? hi hi'
  rw [hookRuns, hl]
  exact List.count_eq_one_of_mem h.once hid

/-- A pass need not be followed to deeper levels than hooks may be nested, nor to more than there
are numbers to give out. -/
theorem serialize_eq_descend {n : Nat}
    (hn : min limits.maxDepth.toNat limits.maxRecords.toNat < n) (bottom : Visit α ρ) (root : α) :
    serialize schema heap root { limits } =
      (descend schema heap)^[n] bottom root { limits, rootTaken := true } := by
  have hends : Ending limits [] limits.maxDepth.toNat n
      ({ limits, rootTaken := true } : Session α ρ) := by
    refine ⟨.first limits true, ?_⟩
    simp only [Array.size_empty]
    omega
  exact visit_eq_descend schema heap (by simp) bottom n root _ hends

omit [DecidableEq α] in
theorem calls_of_finish {codec : Codec κ ρ} {names : Bool} {c : Container} {calls : Nat}
    (h : s.finish codec names = (.ok c, calls)) : calls = c.size := by
  have hmade : s.intoContainer codec names = .ok c := congrArg Prod.fst h
  obtain ⟨hpacked, -⟩ := packed_of_intoContainer hmade
  unfold finish at h
  rcases he : encodeRecords codec s s.objectCount 0 [] with ⟨e | rows, calls'⟩ <;> rw [he] at h <;>
    cases h
  rw [hpacked.size, encodeRecords_calls he, Nat.zero_add]

end Pass

end Session
end ObjectGraph.Flatten
