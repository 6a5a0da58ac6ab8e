import ObjectGraph.Proofs.Custody
import ObjectGraph.Proofs.Numbering
import ObjectGraph.Registry

/-! Registered nodes, whatever becomes of the other handles to them. The registry keeps its nodes
where they are, so their numbers are never taken for those of nodes at addresses that were used
before (`Sound.step`), and what it has handed out says all that it answers (`account_run`). -/
namespace ObjectGraph

open Memory (Node Address)

namespace Registration

/-- The actions of a run with the answers to them, and how it ends. -/
def run : Registration → List Action → Option (List (Action × Answer) × Registration)
  | s, [] => some ([], s)
  | s, action :: actions => do
      let (answer, t) ← s.step action
      let (events, u) ← t.run actions
      some ((action, answer) :: events, u)

/-- What has been handed out after one more event. A new registry has handed out nothing. -/
def grant (grants : List (Node × RecordId)) : Action × Answer → List (Node × RecordId)
  | (.register n _, .number id) => grants ++ [(n, id)]
  | (.renew, _) => []
  | _ => grants

/-- The numbers that the registry has handed out, each with the node it was asked for. -/
def granted (events : List (Action × Answer)) : List (Node × RecordId) := events.foldl grant []

/-- The registered nodes, in the order in which they were registered first. -/
def registered (grants : List (Node × RecordId)) : List Node := (grants.map Prod.fst).eraseDups

variable {s t : Registration} {grants : List (Node × RecordId)} {n : Node} {a : Address}
  {id : RecordId}

theorem registered_append (grants : List (Node × RecordId)) (n : Node) (id : RecordId) :
    registered (grants ++ [(n, id)]) =
      if n ∈ registered grants then registered grants else registered grants ++ [n] := by
  have hmem : n ∈ registered grants ↔ n ∈ grants.map Prod.fst := List.mem_eraseDups
  rw [registered, List.map_append, List.eraseDups_append]
  split
  · next hn => simp [List.removeAll, hmem.1 hn, registered]
  · next hn => simp [List.removeAll, mt hmem.2 hn, registered, List.eraseDups_cons]

/-- A state in which the registry keeps the nodes it has handed out numbers for, in order. -/
structure Sound (grants : List (Node × RecordId)) (s : Registration) : Prop where
  keeps : s.custody.Keeps s.registry.anchors
  ordered : s.registry.numbering.Ordered
  placed : s.registry.numbering.nodes.map some =
    s.registry.anchors.map s.custody.memory.address?
  nodup : s.registry.anchors.Nodup
  registered : s.registry.anchors = registered grants
  granted : ∀ {n id}, (n, id) ∈ grants →
    ∃ k, id.index? = some k ∧ s.registry.anchors[k]? = some n

theorem sound_empty : Sound [] {} where
  keeps := Custody.keeps_empty
  ordered := Numbering.ordered_empty
  placed := rfl
  nodup := .nil
  registered := rfl
  granted := nofun

theorem Sound.size (h : Sound grants s) :
    s.registry.numbering.size = s.registry.anchors.length := by
  have hlength := congrArg List.length h.placed
  simpa [Numbering.length_nodes] using hlength

theorem Sound.getElem?_nodes (h : Sound grants s) {k : Nat} :
    s.registry.numbering.nodes[k]? = some a ↔
      ∃ n, s.registry.anchors[k]? = some n ∧ s.custody.memory.address? n = some a := by
  have hk := congrArg (·[k]?) h.placed
  simp only [List.getElem?_map] at hk
  rw [← Option.map_eq_some_iff, ← hk]
  simp

/-- A number is found at the address of the node it was given to. -/
theorem Sound.lookup_iff (h : Sound grants s) :
    s.registry.lookup a = some id ↔ ∃ k n, id.index? = some k ∧ s.registry.anchors[k]? = some n ∧
      s.custody.memory.address? n = some a := by
  simp only [Registry.lookup, h.ordered.lookup_iff, h.getElem?_nodes, exists_and_left]

theorem Sound.position_unique (h : Sound grants s) {k k' : Nat}
    (hk : s.registry.anchors[k]? = some n) (hk' : s.registry.anchors[k']? = some n) : k = k' :=
  (List.getElem?_inj (List.getElem?_eq_some_iff.1 hk).1 h.nodup).1 (hk.trans hk'.symm)

/-- No other node is at the address of a registered one. -/
theorem Sound.lookup_node_iff (h : Sound grants s) (ha : s.custody.memory.address? n = some a) :
    s.registry.lookup a = some id ↔ ∃ k, id.index? = some k ∧ s.registry.anchors[k]? = some n := by
  rw [h.lookup_iff]
  constructor
  · rintro ⟨k, n', hid, hk, hn'⟩
    obtain rfl := s.custody.memory.distinct n' n a hn' ha
    exact ⟨k, hid, hk⟩
  · rintro ⟨k, hid, hk⟩
    exact ⟨k, n, hid, hk, ha⟩

theorem Sound.exists_number (h : Sound grants s) {k : Nat} (hk : k < s.registry.anchors.length) :
    ∃ id : RecordId, id.index? = some k := by
  have hle := h.ordered.size_le
  rw [h.size] at hle
  exact ⟨_, RecordId.index?_ofIndex? (if_pos (hk.trans_le hle))⟩

theorem Sound.lookup_eq_none (h : Sound grants s) (ha : s.custody.memory.address? n = some a)
    (hn : n ∉ s.registry.anchors) : s.registry.lookup a = none := by
  refine Option.eq_none_iff_forall_ne_some.2 fun id hid => hn ?_
  obtain ⟨k, -, hk⟩ := (h.lookup_node_iff ha).1 hid
  exact List.mem_of_getElem? hk

/-- Handles come and go outside, and nothing that is registered moves. -/
theorem Sound.of_custody (h : Sound grants s) {custody : Custody}
    (hkeeps : custody.Keeps s.registry.anchors)
    (hstays : ∀ n ∈ s.registry.anchors,
      custody.memory.address? n = s.custody.memory.address? n) :
    Sound grants { s with custody } where
  keeps := hkeeps
  ordered := h.ordered
  placed := by
    rw [h.placed]
    exact List.map_congr_left fun n hn => (hstays n hn).symm
  nodup := h.nodup
  registered := h.registered
  granted := h.granted

theorem Sound.register_again (h : Sound grants s) {k : Nat} (hid : id.index? = some k)
    (hk : s.registry.anchors[k]? = some n) : Sound (grants ++ [(n, id)]) s where
  keeps := h.keeps
  ordered := h.ordered
  placed := h.placed
  nodup := h.nodup
  registered := by
    rw [registered_append, ← h.registered, if_pos (List.mem_of_getElem? hk)]
  granted hm := by
    rcases List.mem_append.1 hm with hm | hm
    · exact h.granted hm
    · obtain ⟨rfl, rfl⟩ := Prod.mk.inj (List.mem_singleton.1 hm)
      exact ⟨k, hid, hk⟩

theorem Sound.register_new (h : Sound grants s) (hout : n ∈ s.custody.outside)
    (ha : s.custody.memory.address? n = some a) (hn : n ∉ s.registry.anchors) {limit : UInt32}
    {numbering : Numbering Address}
    (hr : s.registry.numbering.register a limit = .ok (id, numbering)) :
    Sound (grants ++ [(n, id)])
      ⟨s.custody.keep n, ⟨numbering, s.registry.anchors ++ [n]⟩⟩ where
  keeps := h.keeps.keep hout
  ordered := h.ordered.register (h.lookup_eq_none ha hn) hr
  placed := by
    have hnodes := Numbering.nodes_register (h.lookup_eq_none ha hn) hr
    have hstays : (s.custody.keep n).memory.address? = s.custody.memory.address? :=
      funext (Memory.address?_retain _ _)
    rw [hnodes, hstays, List.map_append, List.map_append, h.placed]
    simp [ha]
  nodup := by simpa [List.nodup_append] using ⟨h.nodup, fun k hk => ne_of_mem_of_not_mem hk hn⟩
  registered := by rw [registered_append, ← h.registered, if_neg hn]
  granted hm := by
    rcases List.mem_append.1 hm with hm | hm
    · obtain ⟨k, hid, hk⟩ := h.granted hm
      exact ⟨k, hid, List.getElem?_append_left (List.getElem?_eq_some_iff.1 hk).1 ▸ hk⟩
    · obtain ⟨rfl, rfl⟩ := Prod.mk.inj (List.mem_singleton.1 hm)
      refine ⟨s.registry.anchors.length, ?_, by simp⟩
      rw [← h.size, ← h.ordered.next]
      exact (Numbering.register_new (h.lookup_eq_none ha hn) hr).1

/-- A new registry, when the old one has given its handles back. -/
theorem Sound.renew (h : Sound grants s) :
    Sound [] ⟨s.custody.dropKept s.registry.anchors, {}⟩ where
  keeps := h.keeps.dropKept
  ordered := Numbering.ordered_empty
  placed := rfl
  nodup := .nil
  registered := rfl
  granted := nofun

inductive Registers (s : Registration) (n : Node) (limit : UInt32) : Answer → Registration → Prop
  | again {id : RecordId} {k : Nat} : id.index? = some k → s.registry.anchors[k]? = some n →
      Registers s n limit (.number id) s
  | refused : n ∉ s.registry.anchors →
      limit.toNat ≤ s.registry.size ∨ s.registry.size = RecordId.nil.raw.toNat →
      Registers s n limit (.refused (.tooManyObjects limit)) s
  | new {a : Address} {id : RecordId} {numbering : Numbering Address} :
      s.custody.memory.address? n = some a → n ∉ s.registry.anchors →
      ¬ (limit.toNat ≤ s.registry.size ∨ s.registry.size = RecordId.nil.raw.toNat) →
      id.index? = some s.registry.size →
      s.registry.numbering.register a limit = .ok (id, numbering) →
      Registers s n limit (.number id) ⟨s.custody.keep n, ⟨numbering, s.registry.anchors ++ [n]⟩⟩

theorem Sound.step_register (h : Sound grants s) (hout : n ∈ s.custody.outside) (limit : UInt32) :
    ∃ answer t, s.step (.register n limit) = some (answer, t) ∧ Registers s n limit answer t := by
  obtain ⟨a, ha, hlocate⟩ := h.keeps.locate hout
  simp only [step, hlocate, Option.map_some, Registry.register]
  by_cases hn : n ∈ s.registry.anchors
  · obtain ⟨k, hk⟩ := List.mem_iff_getElem?.1 hn
    obtain ⟨id, hid⟩ := h.exists_number (List.getElem?_eq_some_iff.1 hk).1
    rw [(h.lookup_node_iff ha).2 ⟨k, hid, hk⟩]
    exact ⟨_, _, rfl, .again hid hk⟩
  · have hnone := h.lookup_eq_none ha hn
    have hregister := h.ordered.register_eq hnone limit
    rw [h.size] at hregister
    rw [hnone]
    split at hregister
    · next hfull =>
      rw [hregister]
      exact ⟨_, _, rfl, .refused hn hfull⟩
    · next hroom =>
      obtain ⟨id, numbering, hid, hr⟩ := hregister
      rw [hr]
      exact ⟨_, _, rfl, .new ha hn hroom hid hr⟩

/-- Whatever is done keeps the registry and its nodes together. -/
theorem Sound.step (h : Sound grants s) {action : Action} {answer : Answer}
    (hs : s.step action = some (answer, t)) : Sound (grant grants (action, answer)) t := by
  cases action with
  | create a =>
    obtain ⟨⟨n, custody⟩, hc, ⟨⟩⟩ := Option.map_eq_some_iff.1 hs
    exact h.of_custody (h.keeps.create hc) fun k hk =>
      Custody.address?_create hc (h.keeps.pos_of_kept hk)
  | clone n =>
    obtain ⟨custody, hc, ⟨⟩⟩ := Option.map_eq_some_iff.1 hs
    exact h.of_custody (h.keeps.clone hc) fun k _ => Custody.address?_clone hc k
  | drop n =>
    obtain ⟨custody, hc, ⟨⟩⟩ := Option.map_eq_some_iff.1 hs
    have hkeeps := h.keeps.drop hc
    exact h.of_custody hkeeps fun k hk => Custody.address?_drop hc (hkeeps.pos_of_kept hk)
  | look a =>
    cases hs
    exact h
  | register n limit =>
    have hout : n ∈ s.custody.outside := by
      obtain ⟨a, hlocate, -⟩ := Option.map_eq_some_iff.1 hs
      rw [Custody.locate?] at hlocate
      split at hlocate
      · assumption
      · cases hlocate
    obtain ⟨_, _, hs', hr⟩ := h.step_register hout limit
    rw [hs] at hs'
    cases hs'
    cases hr with
    | again hid hk => exact h.register_again hid hk
    | refused => exact h
    | new ha hn _ _ hr => exact h.register_new hout ha hn hr
  | renew =>
    cases hs
    exact h.renew

theorem Sound.run (h : Sound grants s) {actions : List Action} {events : List (Action × Answer)}
    (hr : s.run actions = some (events, t)) : Sound (events.foldl grant grants) t := by
  induction actions generalizing s grants events with
  | nil =>
    cases hr
    exact h
  | cons action actions ih =>
    obtain ⟨⟨answer, u⟩, hs, hr⟩ := Option.bind_eq_some_iff.1 hr
    obtain ⟨⟨rest, v⟩, hr, ⟨⟩⟩ := Option.bind_eq_some_iff.1 hr
    exact ih (h.step hs) hr

/-- What a registry that has handed out certain numbers answers from then on. -/
structure Account (grants : List (Node × RecordId)) (s : Registration) : Prop where
  /-- A number is the position of its node among the registered ones, and so not the absent
  reference. -/
  position : ∀ n id, (n, id) ∈ grants → ∃ k, id.index? = some k ∧ (registered grants)[k]? = some n
  /-- No position goes without a number. -/
  gapless : ∀ k < (registered grants).length, ∃ n id, (n, id) ∈ grants ∧ id.index? = some k
  size : s.registry.size = (registered grants).length
  last : ∀ id, s.registry.last = some id ↔
    ∃ k, id.index? = some k ∧ k + 1 = (registered grants).length
  lookup : ∀ n a, s.custody.memory.address? n = some a → ∀ id,
    s.registry.lookup a = some id ↔ ∃ k, id.index? = some k ∧ (registered grants)[k]? = some n
  /-- There is no number for a place where no node is. -/
  vacant : ∀ a, s.custody.memory.isTaken a = false → s.registry.lookup a = none
  /-- A registered node has its number under any limit. -/
  again : ∀ n ∈ s.custody.outside, ∀ k id, (registered grants)[k]? = some n → id.index? = some k →
    ∀ limit, s.step (.register n limit) = some (.number id, s)
  /-- A new node is refused if there are no numbers left, or else gets the next one. -/
  new : ∀ n ∈ s.custody.outside, n ∉ registered grants → ∀ limit : UInt32,
    if limit.toNat ≤ (registered grants).length ∨
        (registered grants).length = RecordId.nil.raw.toNat then
      s.step (.register n limit) = some (.refused (.tooManyObjects limit), s)
    else ∃ id t, id.index? = some (registered grants).length ∧
      s.step (.register n limit) = some (.number id, t)
  handles : ∀ n, s.custody.handles n =
    s.custody.outside.count n + if n ∈ registered grants then 1 else 0
  /-- Registered nodes are not freed. -/
  alive : ∀ n ∈ registered grants, (s.custody.memory.address? n).isSome
  /-- With the registry go the handles it kept. -/
  renew : ∃ t, s.step .renew = some (.done, t) ∧ t.custody.outside = s.custody.outside ∧
    ∀ n, t.custody.handles n = s.custody.outside.count n

/-- Whatever is created, cloned, dropped, looked up and registered under whatever limits: registered
nodes have the numbers from zero in the order of their first registration, keep them, and each of
them has one handle more than there are outside, as long as the registry is there. -/
theorem account_run {actions : List Action} {events : List (Action × Answer)}
    (hr : run {} actions = some (events, s)) : Account (granted events) s := by
  have h : Sound (granted events) s := sound_empty.run hr
  have hlength := congrArg List.length h.registered
  refine {
    position := fun n id hm => h.registered ▸ h.granted hm
    gapless := fun k hk => ?_
    size := hlength
    last := fun id => ?_
    lookup := fun n a ha id => h.registered ▸ h.lookup_node_iff ha
    vacant := fun a hfree => ?_
    again := fun n hout k id hk hid limit => ?_
    new := fun n hout hn limit => ?_
    handles := fun n => ?_
    alive := fun n hn => ?_
    renew := ⟨_, rfl, rfl, h.keeps.dropKept⟩ }
  · obtain ⟨⟨n, id⟩, hm, hn⟩ := List.mem_map.1 (List.mem_eraseDups.1 (List.getElem_mem hk))
    obtain ⟨k', hid, hk'⟩ := h.granted hm
    have hat : s.registry.anchors[k]? = some n := by
      rw [h.registered, List.getElem?_eq_getElem hk]
      exact congrArg some hn.symm
    exact ⟨n, id, hm, h.position_unique hk' hat ▸ hid⟩
  · rw [← hlength, ← h.size]
    exact h.ordered.last_iff
  · refine Option.eq_none_iff_forall_ne_some.2 fun id hid => ?_
    obtain ⟨k, n, -, -, hn⟩ := h.lookup_iff.1 hid
    exact absurd (Memory.isTaken_iff.2 ⟨n, hn⟩) (Bool.eq_false_iff.1 hfree)
  · rw [← h.registered] at hk
    obtain ⟨answer, t, hs, hregisters⟩ := h.step_register hout limit
    cases hregisters with
    | again hid' hk' =>
      obtain rfl := h.position_unique hk hk'
      rw [hs, RecordId.eq_of_index? hid' hid]
    | refused hn => exact absurd (List.mem_of_getElem? hk) hn
    | new _ hn => exact absurd (List.mem_of_getElem? hk) hn
  · rw [← h.registered] at hn ⊢
    obtain ⟨answer, t, hs, hregisters⟩ := h.step_register hout limit
    cases hregisters with
    | again _ hk => exact absurd (List.mem_of_getElem? hk) hn
    | refused _ hfull => exact (if_pos hfull).symm ▸ hs
    | new _ _ hroom hid => exact (if_neg hroom).symm ▸ ⟨_, _, hid, hs⟩
  · rw [← h.registered, h.keeps n, h.nodup.count]
  · rw [← h.registered] at hn
    exact Memory.isSome_address?.2 (h.keeps.pos_of_kept hn)

/-- A registered node outlives the handles outside, another one leaves its address to a third, and a
limit that is too low refuses the third one only as long as it is new. -/
theorem account_run_reused : ∃ events s,
    run {} [.create 8, .register 0 0, .register 0 5, .drop 0, .create 16, .drop 1, .create 16,
      .register 2 1, .register 2 2, .clone 2, .register 2 0, .look 16] = some (events, s) ∧
    granted events = [(0, ⟨0⟩), (2, ⟨1⟩), (2, ⟨1⟩)] ∧ s.custody.outside = [2, 2] ∧
    Account (granted events) s := by
  have hrun : run {} [.create 8, .register 0 0, .register 0 5, .drop 0, .create 16, .drop 1,
      .create 16, .register 2 1, .register 2 2, .clone 2, .register 2 0, .look 16] = some _ := rfl
  exact ⟨_, _, hrun, rfl, rfl, account_run hrun⟩

end Registration
end ObjectGraph
