import ObjectGraph.Proofs.NodeTable
import ObjectGraph.Proofs.Rebuild.Parts

/-! The books that a session keeps on its records. Each is handed to the codec once, gets one node
and has the hook of that run once, however the numbers in the records lead back to one another; what
was decoded has its node, unless the session failed there (`Booked`, `Balanced`). Each level of the
recursion uses up a hook that may start and a record without a node, so a session comes to an end
(`rebuilding_bounded`). -/
namespace ObjectGraph.Rebuild

namespace Event

def decoded? : Event → Option RecordId
  | .decoded id => some id
  | _ => none

def constructed? : Event → Option RecordId
  | .constructed id _ => some id
  | _ => none

def entered? : Event → Option RecordId
  | .entered id _ => some id
  | _ => none

/-- A step that makes nothing of a record, and neither starts nor ends a hook. -/
def Idle : Event → Prop
  | .resolved .. | .refused .. => True
  | _ => False

end Event

/-- The records whose hooks are under way after some steps, innermost first. -/
def underway : (trace : List Event) → List RecordId
  | [] => []
  | .entered id _ :: earlier => id :: underway earlier
  | .left _ :: earlier => (underway earlier).tail
  | _ :: earlier => underway earlier

namespace Session

variable {κ ν ρ : Type} {s t : Session κ ν}

/-- The records that nodes were made for, latest first. -/
def made (s : Session κ ν) : List RecordId := s.trace.filterMap Event.constructed?

theorem decodes_eq (s : Session κ ν) :
    s.decodes = (s.trace.filterMap Event.decoded?).length := by
  rw [decodes, List.length_filterMap_eq_countP]
  congr 1
  funext event
  cases event <;> rfl

theorem Follows.made_le (h : Follows s t) : s.made.length ≤ t.made.length := by
  obtain ⟨more, hmore, -⟩ := h.trace
  rw [made, made, hmore, List.filterMap_append, List.length_append]
  omega

/-- What is known of a session in which the hooks of some records are under way, and the records in
`ahead` were handed to the codec but got no node. -/
structure Booked (container : Container) (limits : Limits) (hooks ahead : List RecordId)
    (s : Session κ ν) : Prop where
  limits_eq : s.limits = limits
  container_eq : s.container = container
  capacity : s.table.capacity = container.size
  depth : s.depth = hooks.length
  underway : Rebuild.underway s.trace = hooks
  nesting : ∀ earlier, earlier <:+ s.trace →
    (Rebuild.underway earlier).length ≤ limits.maxDepth.toNat
  entered : s.trace.filterMap Event.entered? = s.made
  decoded : s.trace.filterMap Event.decoded? = ahead ++ s.made
  nodup : (ahead ++ s.made).Nodup
  short : ahead.length ≤ 1
  entries : ∀ id node, (∃ kind, s.table.entry? id = some (kind, node)) ↔
    s.made.reverse[node]? = some id
  filled : s.table.filled = s.made.length
  nodes : s.nodes.size = s.made.length

namespace Booked

variable {container : Container} {limits : Limits} {hooks ahead : List RecordId} {id : RecordId}

theorem of_start (hs : start container limits = .ok s) : Booked container limits [] [] s := by
  unfold start at hs
  split at hs <;> cases hs
  refine ⟨rfl, rfl, ?_, rfl, rfl, ?_, rfl, rfl, .nil, by simp, ?_, rfl, rfl⟩
  · simp [NodeTable.capacity, NodeTable.withCapacity]
  · intro earlier h
    obtain rfl := List.suffix_nil.1 h
    exact Nat.zero_le _
  · intro id node
    simp [made]

/-- Whether a session has failed is not in its books, nor is what its nodes hold. -/
theorem congr (h : Booked container limits hooks ahead s) (hl : t.limits = s.limits)
    (hc : t.container = s.container) (htable : t.table = s.table)
    (hnodes : t.nodes.size = s.nodes.size) (hdepth : t.depth = s.depth)
    (htrace : t.trace = s.trace) : Booked container limits hooks ahead t := by
  have hmade : t.made = s.made := by rw [made, made, htrace]
  exact ⟨hl.trans h.limits_eq, hc.trans h.container_eq, by rw [htable, h.capacity],
    hdepth.trans h.depth, by rw [htrace, h.underway], by rw [htrace]; exact h.nesting,
    by rw [htrace, hmade, h.entered], by rw [htrace, hmade, h.decoded], by rw [hmade]; exact h.nodup,
    h.short, by rw [htable, hmade]; exact h.entries, by rw [htable, hmade, h.filled],
    by rw [hnodes, hmade, h.nodes]⟩

theorem assign (h : Booked container limits hooks ahead s) (node : Address) (content : ν) :
    Booked container limits hooks ahead (s.assign node content) :=
  h.congr rfl rfl rfl (by simp [Session.assign]) rfl rfl

theorem setBusy (h : Booked container limits hooks ahead s) (node : Address) (busy : Bool) :
    Booked container limits hooks ahead (s.setBusy node busy) :=
  h.congr rfl rfl rfl (by simp [Session.setBusy]) rfl rfl

theorem fail (h : Booked container limits hooks ahead s) :
    Booked container limits hooks ahead { s with failed := true } :=
  h.congr rfl rfl rfl rfl rfl rfl

theorem note (h : Booked container limits hooks ahead s) {event : Event} (he : event.Idle) :
    Booked container limits hooks ahead (s.note event) := by
  have hunderway : Rebuild.underway (event :: s.trace) = Rebuild.underway s.trace := by
    cases event <;> first | rfl | exact he.elim
  have hmade : (s.note event).made = s.made := by
    cases event <;> first | rfl | exact he.elim
  refine ⟨h.limits_eq, h.container_eq, h.capacity, h.depth, hunderway.trans h.underway, ?_, ?_, ?_, ?_,
    h.short, ?_, ?_, ?_⟩
  · intro earlier hsuffix
    rcases List.suffix_cons_iff.1 hsuffix with rfl | hsuffix
    · rw [hunderway]
      exact h.nesting _ (List.suffix_refl _)
    · exact h.nesting earlier hsuffix
  · rw [hmade, ← h.entered]
    cases event <;> first | rfl | exact he.elim
  · rw [hmade, ← h.decoded]
    cases event <;> first | rfl | exact he.elim
  · rw [hmade]
    exact h.nodup
  · rw [hmade]
    exact h.entries
  · rw [hmade]
    exact h.filled
  · rw [hmade]
    exact h.nodes

/-- Only records of the container have nodes. -/
theorem mem_made (h : Booked container limits hooks ahead s) :
    id ∈ s.made ↔ (s.table.entry? id).isSome = true := by
  rw [← List.mem_reverse, List.mem_iff_getElem?]
  constructor
  · rintro ⟨node, hnode⟩
    obtain ⟨kind, hentry⟩ := (h.entries id node).2 hnode
    simp [hentry]
  · intro hsome
    obtain ⟨⟨kind, node⟩, hentry⟩ := Option.isSome_iff_exists.1 hsome
    exact ⟨node, (h.entries id node).1 ⟨kind, hentry⟩⟩

theorem index?_lt (h : Booked container limits hooks ahead s) (hid : id ∈ s.made) :
    ∃ index, id.index? = some index ∧ index < container.size := by
  obtain ⟨entry, hentry⟩ := Option.isSome_iff_exists.1 (h.mem_made.1 hid)
  rw [← h.capacity]
  exact NodeTable.index?_lt_of_entry? hentry

theorem made_le (h : Booked container limits hooks ahead s) :
    s.made.length ≤ container.size :=
  RecordId.length_le_of_index? h.nodup.of_append_right fun _ hid => h.index?_lt hid

/-- A record without a node is handed to the codec. -/
theorem decode (h : Booked container limits hooks [] s) (hnew : id ∉ s.made) :
    Booked container limits hooks [id] (s.note (.decoded id)) := by
  refine ⟨h.limits_eq, h.container_eq, h.capacity, h.depth, h.underway, ?_, h.entered, ?_, ?_,
    by simp, h.entries, h.filled, h.nodes⟩
  · intro earlier hsuffix
    rcases List.suffix_cons_iff.1 hsuffix with rfl | hsuffix
    · exact h.nesting s.trace (List.suffix_refl _)
    · exact h.nesting earlier hsuffix
  · have hdecoded := h.decoded
    simp only [Session.note, List.filterMap_cons, Event.decoded?]
    rw [hdecoded]
    rfl
  · exact List.nodup_cons.2 ⟨hnew, h.nodup⟩

/-- The record gets a node, which is filled from here on. -/
theorem hook (h : Booked container limits hooks [id] s) {index : Nat}
    (hi : id.index? = some index) (hindex : index < container.size) (hnew : s.table.entry? id = none)
    (hroom : hooks.length < limits.maxDepth.toNat) (kind : κ) (start : ν) (node : Address) :
    Booked container limits (id :: hooks) []
      (((s.construct kind id start).2.enter id).setBusy node true) := by
  have hcap : index < s.table.capacity := by
    rw [h.capacity]
    exact hindex
  have htrace : (((s.construct kind id start).2.enter id).setBusy node true).trace =
      .entered id s.depth :: .constructed id (s.table.insert id kind s.nodes.size).1 :: s.trace := rfl
  have hmade : (((s.construct kind id start).2.enter id).setBusy node true).made = id :: s.made := rfl
  have hid : id ∉ s.made := (List.nodup_cons.1 h.nodup).1
  refine ⟨h.limits_eq, h.container_eq, ?_, ?_, ?_, ?_, ?_, ?_, ?_, by simp, ?_, ?_, ?_⟩
  · exact (NodeTable.capacity_insert ..).trans h.capacity
  · exact congrArg (· + 1) h.depth
  · exact congrArg (id :: ·) h.underway
  · intro earlier hsuffix
    rw [htrace] at hsuffix
    rcases List.suffix_cons_iff.1 hsuffix with rfl | hsuffix
    · rw [Rebuild.underway, Rebuild.underway, h.underway]
      · exact hroom
      all_goals simp
    · rcases List.suffix_cons_iff.1 hsuffix with rfl | hsuffix
      · exact h.nesting s.trace (List.suffix_refl _)
      · exact h.nesting earlier hsuffix
  · exact congrArg (id :: ·) h.entered
  · rw [hmade]
    exact h.decoded
  · rw [hmade]
    exact h.nodup
  · intro id' node'
    have hentry := NodeTable.entry?_insert hi hnew hcap kind s.nodes.size id'
    rw [hmade, List.reverse_cons, Graph.getElem?_snoc, List.length_reverse, ← h.entries, ← h.nodes]
    change (∃ kind', NodeTable.entry? (s.table.insert id kind s.nodes.size).2 id' =
      some (kind', node')) ↔ _
    rw [hentry]
    by_cases hsame : id' = id
    · simp [hsame, hnew, eq_comm]
    · simp [hsame, Ne.symm hsame]
  · rw [hmade, List.length_cons, ← h.filled]
    exact NodeTable.filled_insert hi hnew hcap kind _
  · rw [hmade, List.length_cons, ← h.nodes]
    simp [Session.construct, Session.enter, Session.note, Session.setBusy]

theorem leave (h : Booked container limits (id :: hooks) ahead s) (id' : RecordId) :
    Booked container limits hooks ahead (s.leave id') := by
  have hdepth := h.depth
  have hunderway : Rebuild.underway (.left id' :: s.trace) = hooks := by
    rw [Rebuild.underway, h.underway, List.tail_cons]
  refine ⟨h.limits_eq, h.container_eq, h.capacity, ?_, hunderway, ?_, h.entered, h.decoded, h.nodup,
    h.short, h.entries, h.filled, h.nodes⟩
  · simp [Session.leave, Session.note, hdepth]
  · intro earlier hsuffix
    rcases List.suffix_cons_iff.1 hsuffix with rfl | hsuffix
    · have hlast := h.nesting _ (List.suffix_refl _)
      rw [h.underway, List.length_cons] at hlast
      rw [hunderway]
      omega
    · exact h.nesting earlier hsuffix

end Booked

/-- The books of a session between its steps. A record that was handed to the codec has its node,
unless the session failed at it. -/
def Balanced (container : Container) (limits : Limits) (hooks : List RecordId)
    (s : Session κ ν) : Prop :=
  ∃ ahead, Booked container limits hooks ahead s ∧ (ahead ≠ [] → s.failed = true)

/-- What becomes of the books when a part of a session ends. A refusal is still to fail it. -/
def Closes {β : Type} (container : Container) (limits : Limits) (hooks : List RecordId) :
    Except Graph.Error β × Session κ ν → Prop
  | (.error _, s) => ∃ ahead, Booked container limits hooks ahead s
  | (.ok _, s) => Balanced container limits hooks s

theorem Balanced.closes {β : Type} {container : Container} {limits : Limits}
    {hooks : List RecordId} (h : Balanced container limits hooks s) (outcome : Except Graph.Error β) :
    Closes container limits hooks (outcome, s) := by
  obtain ⟨ahead, hbooked, hfailed⟩ := h
  cases outcome with
  | error e => exact ⟨ahead, hbooked⟩
  | ok x => exact ⟨ahead, hbooked, hfailed⟩

/-- Before a session fails, every record that was decoded has its node. -/
theorem Balanced.booked {container : Container} {limits : Limits} {hooks : List RecordId}
    (h : Balanced container limits hooks s) (hs : s.failed = false) :
    Booked container limits hooks [] s := by
  obtain ⟨ahead, hbooked, hfailed⟩ := h
  obtain rfl : ahead = [] := not_not.1 fun hne => by simpa [hs] using hfailed hne
  exact hbooked

/-- Outside every hook as many of them may start as the limit allows. -/
theorem Balanced.levels_le {container : Container} {limits : Limits}
    (h : Balanced container limits [] s) :
    ([] : List RecordId).length + s.limits.maxDepth.toNat ≤ limits.maxDepth.toNat := by
  obtain ⟨ahead, hbooked, -⟩ := h
  simp [hbooked.limits_eq]

theorem Booked.balanced {container : Container} {limits : Limits} {hooks : List RecordId}
    (h : Booked container limits hooks [] s) : Balanced container limits hooks s :=
  ⟨[], h, fun hne => absurd rfl hne⟩

section Runs

variable {container : Container} {limits : Limits} {hooks : List RecordId}

theorem steady_balanced : Steady (Balanced (κ := κ) (ν := ν) container limits hooks) where
  refused := fun _ ⟨ahead, h, hf⟩ => ⟨ahead, h.note trivial, hf⟩
  assign := fun node content ⟨ahead, h, hf⟩ => ⟨ahead, h.assign node content, hf⟩

variable [NodeType κ] (schema : Schema κ ν ρ) {resolve : Resolve κ ν}

/-- A record that was handed to the codec leaves the books closed, as it gets a node or is refused
one. -/
def ClosesFresh (container : Container) (limits : Limits) (hooks : List RecordId)
    (fresh : Fresh κ ν ρ) : Prop :=
  ∀ kind id index start record s, id.index? = some index → index < container.size →
    Booked container limits hooks [id] s → s.table.entry? id = none →
    Closes container limits hooks (fresh kind id start record s)

omit [NodeType κ] in
theorem closes_tooDeep : ClosesFresh container limits hooks (tooDeep : Fresh κ ν ρ) :=
  fun _ _ _ _ _ _ _ _ h _ => ⟨_, h⟩

theorem closes_materialize (hroom : hooks.length < limits.maxDepth.toNat)
    (hr : ∀ id, Keeps (Balanced container limits (id :: hooks)) resolve) :
    ClosesFresh container limits hooks (materialize schema resolve) := by
  intro kind id index start record s hi hindex h hnew
  have hstarted := (h.hook hi hindex hnew hroom kind start s.nodes.size).balanced
  obtain ⟨ahead, hran, hfailed⟩ := kept_runHook schema (hr id) steady_balanced s.nodes.size
    (schema.hook start record) hstarted
  have hdone : Balanced container limits hooks ((Session.setBusy _ s.nodes.size false).leave id) :=
    ⟨ahead, (hran.setBusy s.nodes.size false).leave id, hfailed⟩
  rw [materialize_eq]
  rcases hv : runHook schema resolve s.nodes.size (schema.hook start record)
    (((s.construct kind id start).2.enter id).setBusy s.nodes.size true) with ⟨e | x, t⟩ <;>
    rw [hv] at hdone <;> exact hdone.closes _

variable [DecidableEq κ] (codec : Codec κ ρ)

theorem closes_find {fresh : Fresh κ ν ρ} (hfresh : ClosesFresh container limits hooks fresh)
    (kind : κ) (id : RecordId) (start : ν) {s : Session κ ν}
    (h : Booked container limits hooks [] s) :
    Closes container limits hooks (find codec fresh kind id start s) := by
  rw [find_eq]
  rcases hv : s.lookUp kind id with outcome | bytes
  · exact h.balanced.closes outcome
  · obtain ⟨index, hi, hindex, hnew, -⟩ := of_lookUp hv
    rw [h.container_eq] at hindex
    have hdecoded : Booked container limits hooks [id] (s.note (.decoded id)) :=
      h.decode (by simp [h.mem_made, hnew])
    dsimp only
    split
    · exact ⟨_, hdecoded⟩
    · exact hfresh _ _ index _ _ _ hi hindex hdecoded hnew

theorem keeps_guard {fresh : Fresh κ ν ρ} (hfresh : ClosesFresh container limits hooks fresh) :
    Keeps (Balanced container limits hooks) (guard (find codec fresh)) := by
  intro kind id start s h
  unfold guard
  split
  · exact h
  next hunfailed =>
  have hcloses := closes_find codec hfresh kind id start (h.booked (by simpa using hunfailed))
  rcases hv : find codec fresh kind id start s with ⟨e | node, t⟩ <;> rw [hv] at hcloses
  · obtain ⟨ahead, ht⟩ := hcloses
    exact ⟨ahead, ht.fail, fun _ => rfl⟩
  · obtain ⟨ahead, ht, hf⟩ := hcloses
    dsimp only
    split
    · exact ⟨ahead, ht, hf⟩
    · exact ⟨ahead, ht.note trivial, hf⟩

/-- At every level that fits into the limit with the hooks under way. -/
theorem keeps_resolve {levels : Nat} (hroom : hooks.length + levels ≤ limits.maxDepth.toNat) :
    Keeps (Balanced container limits hooks) (Session.resolve schema codec levels) := by
  induction levels generalizing hooks with
  | zero => exact keeps_guard codec closes_tooDeep
  | succ levels ih =>
    refine keeps_guard codec (closes_materialize schema (by omega) fun id => ih ?_)
    rw [List.length_cons]
    omega

theorem balanced_request {s : Session κ ν} (h : Balanced container limits [] s) (c : Call κ ν) :
    Balanced container limits [] (s.request schema codec c).2 :=
  kept_perform schema (keeps_resolve schema codec h.levels_le) steady_balanced h c

theorem balanced_after {s : Session κ ν} (h : Balanced container limits [] s)
    (calls : List (Call κ ν)) : Balanced container limits [] (s.after schema codec calls) :=
  kept_after (P := Balanced container limits []) (fun _ c h => balanced_request schema codec h c) h calls

/-- Two ways to treat a record that was decoded resolve numbers alike, if they treat every record
alike that has no node yet. -/
theorem alike_guard {P : Session κ ν → Prop} {fresh fresh' : Fresh κ ν ρ}
    (h : ∀ kind id index start record s, P s → id.index? = some index → index < container.size →
      s.table.entry? id = none → Booked container limits hooks [id] (s.note (.decoded id)) →
      fresh kind id start record (s.note (.decoded id)) =
        fresh' kind id start record (s.note (.decoded id))) :
    Alike (fun s => Balanced container limits hooks s ∧ P s) (guard (find codec fresh))
      (guard (find codec fresh')) := by
  rintro kind id start s ⟨hs, hp⟩
  rw [guard, guard]
  by_cases hfailed : s.failed = true
  · rw [if_pos hfailed, if_pos hfailed]
  have hbooked := hs.booked (by simpa using hfailed)
  suffices hfind : find codec fresh kind id start s = find codec fresh' kind id start s by
    rw [hfind]
  rw [find_eq, find_eq]
  rcases hv : s.lookUp kind id with outcome | bytes
  · rfl
  obtain ⟨index, hi, hindex, hnew, -⟩ := of_lookUp hv
  rw [hbooked.container_eq] at hindex
  dsimp only
  cases codec.decode s.decodes kind bytes with
  | error source => rfl
  | ok record =>
    exact h kind id index start record s hp hi hindex hnew
      (hbooked.decode (by simp [hbooked.mem_made, hnew]))

/-- One level of the recursion as a session sees it: a hook may start as long as fewer than the
limit are under way. What it asks for is resolved by `inner`. -/
def descend (inner : Resolve κ ν) : Resolve κ ν :=
  guard (find codec fun kind id start record s =>
    if s.limits.maxDepth.toNat ≤ s.depth then tooDeep kind id start record s
    else materialize schema inner kind id start record s)

variable (container limits hooks) in
/-- A session whose recursion is less than `n` levels from its end: few hooks are still allowed, or
few records are without a node. -/
def Ending (levels n : Nat) (s : Session κ ν) : Prop :=
  Balanced container limits hooks s ∧ (levels < n ∨ container.size < n + s.made.length)

theorem keeps_ending {levels n : Nat} (hl : hooks.length + levels ≤ limits.maxDepth.toNat) :
    Keeps (Ending container limits hooks levels n) (Session.resolve schema codec levels) := by
  rintro kind id start s ⟨hs, hn⟩
  refine ⟨keeps_resolve schema codec hl kind id start s hs, hn.imp_right fun hn => ?_⟩
  have hmade := ((poisons_resolve schema codec levels).follows kind id start s).made_le
  omega

omit [NodeType κ] [DecidableEq κ] in
theorem steady_ending {levels n : Nat} :
    Steady (Ending (κ := κ) (ν := ν) container limits hooks levels n) where
  refused := fun e ⟨hs, hn⟩ => ⟨steady_balanced.refused e hs, hn⟩
  assign := fun node content ⟨hs, hn⟩ => ⟨steady_balanced.assign node content hs, hn⟩

/-- Each level of the recursion leaves one hook less that may start inside it and one record less
without a node, so nothing depends on what is at its bottom. -/
theorem alike_descend {levels : Nat} (hl : hooks.length + levels = limits.maxDepth.toNat)
    (bottom : Resolve κ ν) (n : Nat) :
    Alike (Ending container limits hooks levels n) (Session.resolve schema codec levels)
      ((descend schema codec)^[n] bottom) := by
  induction n generalizing hooks levels with
  | zero =>
    rintro kind id start s ⟨⟨ahead, h, -⟩, hn⟩
    have hmade := h.made_le
    omega
  | succ n ih =>
    rw [Function.iterate_succ_apply', resolve_eq_guard, descend]
    refine alike_guard codec fun kind id index start record s hn hi hindex hnew hdecoded => ?_
    rw [hdecoded.limits_eq, hdecoded.depth]
    cases levels with
    | zero =>
      rw [if_pos (by omega)]
      rfl
    | succ levels =>
      rw [if_neg (by omega), freshAt, materialize_eq, materialize_eq]
      have hstarted : Ending container limits (id :: hooks) levels n
          ((((s.note (.decoded id)).construct kind id start).2.enter id).setBusy
            (s.note (.decoded id)).nodes.size true) := by
        refine ⟨(hdecoded.hook hi hindex hnew (by omega) kind start _).balanced, ?_⟩
        change levels < n ∨ container.size < n + (s.made.length + 1)
        omega
      have hinner : (id :: hooks).length + levels = limits.maxDepth.toNat := by
        rw [List.length_cons]
        omega
      rw [runHook_congr schema (ih hinner) (keeps_ending schema codec hinner.le) steady_ending _ _
        hstarted]

/-- However hostile the records of a container are, a session comes to an end. Each record is
decoded at most once, gets at most one node and has the hook of that run at most once. Never are
more hooks under way than the limit allows, and none is once a request of a caller is answered.
Every record that was decoded has its node, but for the last one in a session that failed; nodes are
never lost. The recursion need not be followed to deeper levels than hooks may be nested, nor to
more levels than there are records without a node: whatever is at its bottom has no part in any
answer. -/
theorem rebuilding_bounded (schema : Schema κ ν ρ) (codec : Codec κ ρ) {container : Container}
    {limits : Limits} {s : Session κ ν} (hs : start container limits = .ok s)
    (calls : List (Call κ ν)) :
    let t := s.after schema codec calls
    (t.trace.filterMap Event.decoded?).Nodup ∧ (t.trace.filterMap Event.constructed?).Nodup ∧
    (t.trace.filterMap Event.entered?).Nodup ∧
    (∀ earlier, earlier <:+ t.trace → (underway earlier).length ≤ limits.maxDepth.toNat) ∧
    underway t.trace = [] ∧ t.depth = 0 ∧
    (t.decodes = t.materializedCount ∨
      t.failed = true ∧ t.decodes = t.materializedCount + 1) ∧
    (∀ later, t.materializedCount ≤ (t.after schema codec later).materializedCount) ∧
    t.materializedCount ≤ t.recordCount ∧
    ∀ c n bottom, min limits.maxDepth.toNat (t.recordCount - t.materializedCount) < n →
      t.perform schema ((descend schema codec)^[n] bottom) c = t.request schema codec c := by
  intro t
  have ht : Balanced container limits [] t :=
    balanced_after schema codec (Booked.of_start hs).balanced calls
  have hgrows (later : List (Call κ ν)) :
      t.materializedCount ≤ (t.after schema codec later).materializedCount := by
    obtain ⟨_, h', -⟩ := balanced_after schema codec ht later
    obtain ⟨_, h, -⟩ := ht
    rw [materializedCount, materializedCount, h.filled, h'.filled]
    exact (after_follows t later).made_le
  obtain ⟨ahead, h, hfailed⟩ := ht
  have hrecords : t.recordCount = container.size := by rw [recordCount, h.container_eq]
  have hcount : t.materializedCount = t.made.length := h.filled
  have hdecodes : t.decodes = ahead.length + t.materializedCount := by
    rw [decodes_eq, h.decoded, List.length_append, hcount]
  refine ⟨by rw [h.decoded]; exact h.nodup, h.nodup.of_append_right, ?_, h.nesting, h.underway,
    h.depth, ?_, hgrows, ?_, fun c n bottom hn => ?_⟩
  · rw [h.entered]
    exact h.nodup.of_append_right
  · have hshort := h.short
    cases ahead with
    | nil => exact .inl (by simpa using hdecodes)
    | cons id ahead => exact .inr ⟨hfailed nofun, by rw [List.length_cons] at hshort hdecodes; omega⟩
  · rw [hcount, hrecords]
    exact h.made_le
  · have hroom : ([] : List RecordId).length + t.limits.maxDepth.toNat = limits.maxDepth.toNat := by
      rw [h.limits_eq, List.length_nil, Nat.zero_add]
    have hle := h.made_le
    refine (perform_congr schema (alike_descend schema codec hroom bottom n)
      (keeps_ending schema codec hroom.le) ⟨⟨ahead, h, hfailed⟩, ?_⟩ c).symm
    rw [h.limits_eq]
    omega

end Runs

section Catalog

open ObjectGraph.Catalog

/-- A lenient record with edges to itself, to a record without bytes, and to itself again. -/
def looped : Container where
  records := [[0xa2, 0x65, 0x65, 0x64, 0x67, 0x65, 0x73, 0x83, 0x00, 0x01, 0x00, 0x65, 0x6c, 0x61,
    0x62, 0x65, 0x6c, 0x60], []]

/-- The session fails at the second record, after which the first one's hook goes on. -/
theorem looped_bounded : ∃ s : Rebuilding, start looped { maxDepth := 1 } = .ok s ∧
    let t := s.after rebuildSchema countingCodec [.root .lenient (.empty .lenient)]
    t.failed = true ∧ t.decodes = 2 ∧ t.materializedCount = 1 ∧ underway t.trace = [] ∧
    ∀ bottom c, t.perform rebuildSchema ((descend rebuildSchema countingCodec)^[2] bottom) c =
      t.request rebuildSchema countingCodec c := by
  have hstart : start (ν := Built) (κ := Kind) looped { maxDepth := 1 } = .ok _ := rfl
  have hbounded := rebuilding_bounded rebuildSchema countingCodec hstart
    [.root .lenient (.empty .lenient)]
  obtain ⟨-, -, -, -, hunderway, -, -, -, -, hends⟩ := hbounded
  exact ⟨_, hstart, rfl, rfl, rfl, hunderway, fun bottom c => hends c 2 bottom (by decide)⟩

end Catalog

end Session
end ObjectGraph.Rebuild
