import ObjectGraph.Handles
import ObjectGraph.Proofs.Handles.Counts
import ObjectGraph.Proofs.Outcomes

/-! What a caller does who keeps no borrow. Each action writes to one peer at most and gives back
one handle at most (`Turn`), none is refused for a borrow, and the counts stay exact
(`Sound.step`). -/
namespace ObjectGraph.Handles

inductive Action where
  | create (label : String)
  /-- Makes a peer that refers to itself. -/
  | createLooped (label : String)
  | clone (slot : Nat)
  | drop (slot : Nat)
  /-- Makes the peer of a handle refer to the peer of another one. -/
  | link (slot target : Nat)
  | unlink (slot : Nat)
  /-- Empties a peer, and drops what it held. -/
  | take (slot : Nat)
  /-- Takes a handle to the peer referred to, if there is one. -/
  | other (slot : Nat)
  deriving DecidableEq, Repr

def Action.slots : Action → List Nat
  | .create _ | .createLooped _ => []
  | .clone slot | .drop slot | .unlink slot | .take slot | .other slot => [slot]
  | .link slot target => [slot, target]

def step (s : Handles) : Action → Except Error Handles
  | .create label => .ok (s.create label)
  | .createLooped label => .ok (s.createLooped label)
  | .clone slot => s.clone slot
  | .drop slot => s.drop slot
  | .link slot target => s.link slot (some target)
  | .unlink slot => s.link slot none
  | .take slot => (s.take slot).map Prod.snd
  | .other slot => (s.other slot).map Prod.snd

/-- The actions of a run, each with the state it is done in, and how the run ends. -/
def run : Handles → List Action → Except Error (List (Handles × Action) × Handles)
  | s, [] => .ok ([], s)
  | s, action :: actions => do
      let t ← s.step action
      let (events, u) ← t.run actions
      .ok ((s, action) :: events, u)

section Turn

variable (s : Handles)

def at? (slot : Nat) : Option Address := (s.slots[slot]?).join

def callers (a : Address) : Nat := s.slots.count (some a)

def held : Contents := s.heap.held

def otherOf (slot : Nat) : Option Address := (s.at? slot).bind s.held.other?

def withNew (c : String × Option Address) : Contents :=
  Function.update s.held s.heap.cells.size (some c)

/-- The peer of a handle with other contents, which depend on its label. -/
def rewritten (slot : Nat) (f : String → String × Option Address) : Contents := fun a =>
  if s.at? slot = some a then (s.held a).map fun c => f c.1 else s.held a

/-- What an action writes, before any peer is freed. -/
def written : Action → Contents
  | .create label => s.withNew (label, none)
  | .createLooped label => s.withNew (label, some s.heap.cells.size)
  | .link slot target => s.rewritten slot fun label => (label, s.at? target)
  | .unlink slot => s.rewritten slot fun label => (label, none)
  | .take slot => s.rewritten slot fun _ => ("", none)
  | .clone _ | .drop _ | .other _ => s.held

def givenBack : Action → Option Address
  | .drop slot => s.at? slot
  | .link slot _ | .unlink slot | .take slot => s.otherOf slot
  | .create _ | .createLooped _ | .clone _ | .other _ => none

def slotsAfter : Action → Array (Option Address)
  | .create _ | .createLooped _ => s.slots.push (some s.heap.cells.size)
  | .clone slot => s.slots.push (s.at? slot)
  | .other slot => (s.otherOf slot).elim s.slots fun a => s.slots.push (some a)
  | .drop slot => s.slots.setIfInBounds slot none
  | .link _ _ | .unlink _ | .take _ => s.slots

/-- All that an action does: it is told from the handles there are, not from the counts. -/
structure Turn (action : Action) (t : Handles) : Prop where
  slots : t.slots = s.slotsAfter action
  held : (s.written action).GivesBack t.callers (s.givenBack action) t.held

/-- The counts of all peers are exact, and no borrow is kept. -/
def Sound : Prop := s.heap.Counted s.callers

end Turn

variable {s t : Handles} {slot : Nat} {a : Address}

theorem sound_empty : ({} : Handles).Sound := Heap.counted_empty

theorem address_of_at? (h : s.at? slot = some a) : s.address slot = .ok a := by
  unfold at? at h
  rw [address, h]

theorem at?_of_address (h : s.address slot = .ok a) : s.at? slot = some a := by
  unfold address at h
  split at h
  · cases h
  · next hat =>
    cases h
    exact hat

theorem filled_of_address (h : s.address slot = .ok a) : (s.at? slot).isSome := by
  rw [at?_of_address h, Option.isSome_some]

theorem filled_of_peer {r : Address × Peer} (h : s.peer slot = .ok r) :
    (s.at? slot).isSome := by
  obtain ⟨a, ha, -⟩ := bind_eq_ok.1 h
  exact filled_of_address ha

theorem filled_of_readable {r : Address × Peer} (h : s.readable slot = .ok r) :
    (s.at? slot).isSome := by
  obtain ⟨_, hpeer, -⟩ := bind_eq_ok.1 h
  exact filled_of_peer hpeer

theorem filled_of_writable {r : Address × Peer} (h : s.writable slot = .ok r) :
    (s.at? slot).isSome := by
  obtain ⟨_, hpeer, -⟩ := bind_eq_ok.1 h
  exact filled_of_peer hpeer

/-- Actions are done through handles only. -/
theorem filled_of_step {action : Action} (h : s.step action = .ok t) :
    ∀ slot ∈ action.slots, (s.at? slot).isSome := by
  cases action with
  | create label => exact nofun
  | createLooped label => exact nofun
  | clone slot =>
    obtain ⟨a, ha, -⟩ := bind_eq_ok.1 h
    exact List.forall_mem_singleton.2 (filled_of_address ha)
  | drop slot =>
    obtain ⟨a, ha, -⟩ := bind_eq_ok.1 h
    exact List.forall_mem_singleton.2 (filled_of_address ha)
  | link slot target =>
    obtain ⟨b, hb, h⟩ := bind_eq_ok.1 h
    obtain ⟨a, ha, -⟩ := bind_eq_ok.1 h
    obtain ⟨c, hc, -⟩ := bind_eq_ok.1 hb
    exact List.forall_mem_cons.2
      ⟨filled_of_writable ha, List.forall_mem_singleton.2 (filled_of_address hc)⟩
  | unlink slot =>
    obtain ⟨b, -, h⟩ := bind_eq_ok.1 h
    obtain ⟨a, ha, -⟩ := bind_eq_ok.1 h
    exact List.forall_mem_singleton.2 (filled_of_writable ha)
  | take slot =>
    obtain ⟨r, h, -⟩ := map_eq_ok.1 h
    obtain ⟨a, ha, -⟩ := bind_eq_ok.1 h
    exact List.forall_mem_singleton.2 (filled_of_writable ha)
  | other slot =>
    obtain ⟨r, h, -⟩ := map_eq_ok.1 h
    obtain ⟨a, ha, -⟩ := bind_eq_ok.1 h
    exact List.forall_mem_singleton.2 (filled_of_readable ha)

theorem callers_push (s : Handles) (a b : Address) :
    (s.push a).callers b = s.callers b + if a = b then 1 else 0 := by
  simp [callers, push, Array.count_push]

theorem callers_setIfInBounds (heap : Heap) (h : s.at? slot = some a) (b : Address) :
    s.callers b = callers ⟨heap, s.slots.setIfInBounds slot none⟩ b + if a = b then 1 else 0 := by
  have hplace : s.slots[slot]? = some (some a) := Option.join_eq_some_iff.1 h
  obtain ⟨hlt, hget⟩ := Array.getElem?_eq_some_iff.1 hplace
  have hpos : a = b → 0 < s.slots.count (some b) := by
    rintro rfl
    exact Array.count_pos_iff.2 (Array.mem_of_getElem? hplace)
  simp only [callers, Array.setIfInBounds_def, dif_pos hlt, Array.count_set, hget]
  by_cases hab : a = b
  · have := hpos hab
    simp [hab]
    omega
  · simp [hab]

theorem callers_pos (h : s.at? slot = some a) : 0 < s.callers a :=
  Array.count_pos_iff.2 (Array.mem_of_getElem? (Option.join_eq_some_iff.1 h))

theorem rewritten_eq {p : Peer} (ha : s.at? slot = some a) (hp : s.heap.peer? a = some p)
    (f : String → String × Option Address) :
    s.rewritten slot f = Function.update s.held a (some (f p.label)) := by
  funext b
  rw [rewritten, ha]
  by_cases hab : a = b
  · rw [if_pos (congrArg some hab), ← hab, Function.update_self, held, Heap.held, hp, Option.map_map]
    rfl
  · rw [if_neg fun hsome => hab (Option.some.inj hsome), Function.update_of_ne (Ne.symm hab)]

theorem otherOf_eq {p : Peer} (ha : s.at? slot = some a) (hp : s.heap.peer? a = some p) :
    s.otherOf slot = p.other := by
  rw [otherOf, ha, Option.bind_some, held, Heap.other?_held, hp, Option.bind_some]

theorem mapM_address {target : Option Nat}
    (htarget : ∀ k, target = some k → (s.at? k).isSome) :
    target.mapM s.address = .ok (target.bind s.at?) := by
  cases target with
  | none => rfl
  | some k =>
    obtain ⟨b, hb⟩ := Option.isSome_iff_exists.1 (htarget k rfl)
    rw [Option.bind_some, hb, Option.mapM_some, address_of_at? hb]
    rfl

namespace Sound

theorem exists_peer (h : s.Sound) (ha : s.at? slot = some a) :
    ∃ p, s.heap.peer? a = some p ∧ s.peer slot = .ok (a, p) := by
  obtain ⟨p, hp⟩ := Heap.Counted.exists_peer h (callers_pos ha)
  refine ⟨p, hp, ?_⟩
  rw [peer, address_of_at? ha]
  simp only [bind, Except.bind, hp]

theorem readable (h : s.Sound) (ha : s.at? slot = some a) :
    ∃ p, s.heap.peer? a = some p ∧ s.readable slot = .ok (a, p) := by
  obtain ⟨p, hp, hpeer⟩ := h.exists_peer ha
  refine ⟨p, hp, ?_⟩
  rw [Handles.readable, hpeer]
  simp only [bind, Except.bind, Heap.Counted.free h hp]
  rfl

theorem writable (h : s.Sound) (ha : s.at? slot = some a) :
    ∃ p, s.heap.peer? a = some p ∧ s.writable slot = .ok (a, p) := by
  obtain ⟨p, hp, hpeer⟩ := h.exists_peer ha
  refine ⟨p, hp, ?_⟩
  rw [Handles.writable, hpeer]
  simp only [bind, Except.bind, Heap.Counted.free h hp]
  rfl

theorem count (h : s.Sound) (ha : s.at? slot = some a) :
    s.count slot = .ok (s.callers a + s.heap.referrers a) := by
  obtain ⟨p, hp, hpeer⟩ := h.exists_peer ha
  rw [Handles.count, hpeer, ← Heap.Counted.handles_eq h hp]
  rfl

theorem push {heap : Heap} (h : heap.Counted fun b => s.callers b + if a = b then 1 else 0) :
    Sound ({ s with heap }.push a) := by
  rw [Sound, funext (callers_push { s with heap } a)]
  exact h

/-- The caller gets a handle to a peer there is. -/
theorem hand (h : s.Sound) {p : Peer} (hp : s.heap.peer? a = some p) :
    Sound ({ s with heap := s.heap.retain a }.push a) ∧
      held ({ s with heap := s.heap.retain a }.push a) = s.held := by
  obtain ⟨hcounted, hheld⟩ := Heap.Counted.retain h hp
  exact ⟨push hcounted, hheld⟩

theorem create (h : s.Sound) (label : String) :
    (s.create label).Sound ∧ s.Turn (.create label) (s.create label) := by
  obtain ⟨hcounted, hheld⟩ := Heap.Counted.allocate h label
  refine ⟨push hcounted, rfl, ?_⟩
  rw [written, withNew, held, ← hheld]
  exact .none

theorem createLooped (h : s.Sound) (label : String) :
    (s.createLooped label).Sound ∧ s.Turn (.createLooped label) (s.createLooped label) := by
  obtain ⟨hcounted, hheld⟩ := Heap.Counted.allocate h label
  have hp : (s.heap.allocate { label }).2.peer? s.heap.cells.size = some { label } := by
    rw [Heap.peer?_allocate]
    exact if_pos rfl
  have hself : ∀ b, some s.heap.cells.size = some b →
      ((s.heap.allocate { label }).2.peer? b).isSome := by
    rintro b ⟨⟩
    rw [hp, Option.isSome_some]
  obtain ⟨hcounted, hgives⟩ := hcounted.setOther hp hself
  rw [hheld, Function.update_idem] at hgives
  have hcallers : (s.createLooped label).callers =
      fun b => s.callers b + if s.heap.cells.size = b then 1 else 0 := funext (callers_push _ _)
  refine ⟨push hcounted, rfl, ?_⟩
  rw [hcallers]
  exact hgives

theorem clone (h : s.Sound) (ha : s.at? slot = some a) :
    ∃ t, s.clone slot = .ok t ∧ t.Sound ∧ s.Turn (.clone slot) t := by
  obtain ⟨p, hp, -⟩ := h.exists_peer ha
  obtain ⟨hsound, hheld⟩ := h.hand hp
  refine ⟨_, ?_, hsound, ?_, ?_⟩
  · rw [Handles.clone, address_of_at? ha]
    rfl
  · rw [slotsAfter, ha]
    rfl
  · rw [hheld]
    exact .none

theorem drop (h : s.Sound) (ha : s.at? slot = some a) :
    ∃ t, s.drop slot = .ok t ∧ t.Sound ∧ s.Turn (.drop slot) t := by
  have hcallers := funext (callers_setIfInBounds (s.heap.release (some a)) ha)
  have hcounted : s.heap.Counted fun b =>
      callers ⟨s.heap.release (some a), s.slots.setIfInBounds slot none⟩ b +
        if some a = some b then 1 else 0 := by
    simpa only [Sound, hcallers, Option.some.injEq] using h
  obtain ⟨hcounted, hgives⟩ := hcounted.release
  refine ⟨_, ?_, hcounted, rfl, ?_⟩
  · rw [Handles.drop, address_of_at? ha]
    rfl
  · rw [givenBack, ha]
    exact hgives

theorem other (h : s.Sound) (ha : s.at? slot = some a) :
    ∃ r t, s.other slot = .ok (r, t) ∧ t.Sound ∧ s.Turn (.other slot) t := by
  obtain ⟨p, hp, hreadable⟩ := h.readable ha
  have hother := otherOf_eq ha hp
  rw [Handles.other, hreadable]
  simp only [bind, Except.bind]
  cases hb : p.other with
  | none =>
    rw [hb] at hother
    refine ⟨_, _, rfl, h, ?_, .none⟩
    rw [slotsAfter, hother, Option.elim_none]
  | some b =>
    rw [hb] at hother
    have hrefers : 0 < s.heap.referrers b := by
      rw [Heap.referrers_pos]
      refine ⟨a, ?_⟩
      rw [Heap.other?_held, hp, Option.bind_some, hb]
    obtain ⟨q, hq⟩ := Option.isSome_iff_exists.1
      ((Heap.Counted.isSome_iff h).2 (Nat.add_pos_right _ hrefers))
    obtain ⟨hsound, hheld⟩ := h.hand hq
    refine ⟨_, _, rfl, hsound, ?_, ?_⟩
    · rw [slotsAfter, hother, Option.elim_some]
      rfl
    · rw [hheld]
      exact .none

/-- Writing to a peer and giving back what it held. -/
theorem setOther (h : s.Sound) {p : Peer} (hp : s.heap.peer? a = some p) (target : Option Nat) :
    (s.heap.setOther a (target.bind s.at?)).Counted s.callers ∧
      Contents.GivesBack s.callers
        (Function.update s.held a (some (p.label, target.bind s.at?))) p.other
        (s.heap.setOther a (target.bind s.at?)).held := by
  refine Heap.Counted.setOther h hp fun b hb => ?_
  obtain ⟨k, -, hk⟩ := Option.bind_eq_some_iff.1 hb
  obtain ⟨q, hq, -⟩ := h.exists_peer hk
  rw [hq, Option.isSome_some]

theorem link (h : s.Sound) (ha : s.at? slot = some a) (target : Option Nat)
    (htarget : ∀ k, target = some k → (s.at? k).isSome) :
    ∃ t, s.link slot target = .ok t ∧ t.Sound ∧ t.slots = s.slots ∧
      (s.rewritten slot fun label => (label, target.bind s.at?)).GivesBack t.callers
        (s.otherOf slot) t.held := by
  obtain ⟨p, hp, hwritable⟩ := h.writable ha
  obtain ⟨hcounted, hgives⟩ := h.setOther hp target
  refine ⟨{ s with heap := s.heap.setOther a (target.bind s.at?) }, ?_, hcounted, rfl, ?_⟩
  · rw [Handles.link, mapM_address htarget]
    simp only [bind, Except.bind, hwritable]
  · rw [rewritten_eq ha hp, otherOf_eq ha hp]
    exact hgives

theorem take (h : s.Sound) (ha : s.at? slot = some a) :
    ∃ r t, s.take slot = .ok (r, t) ∧ t.Sound ∧ s.Turn (.take slot) t := by
  obtain ⟨p, hp, hwritable⟩ := h.writable ha
  have hp' : (s.heap.put a { p with label := "" }).peer? a = some { p with label := "" } := by
    rw [Heap.peer?_put (Heap.lt_of_peer? hp), if_pos rfl]
  have hcleared : (Heap.setOther _ a none).Counted s.callers ∧ _ :=
    (Heap.Counted.relabel "" h hp).setOther hp' nofun
  obtain ⟨hcounted, hgives⟩ := hcleared
  rw [(Heap.written_put hp _).held, Option.map_some, Function.update_idem] at hgives
  refine ⟨(p.label, p.other.bind s.slot?),
    { s with heap := (s.heap.put a { p with label := "" }).setOther a none }, ?_, hcounted, rfl, ?_⟩
  · rw [Handles.take, hwritable]
    rfl
  · rw [written, rewritten_eq ha hp, givenBack, otherOf_eq ha hp]
    exact hgives

/-- With handles in the slots that it uses, every action is done. -/
theorem step (h : s.Sound) {action : Action} (hfilled : ∀ slot ∈ action.slots, (s.at? slot).isSome) :
    ∃ t, s.step action = .ok t ∧ t.Sound ∧ s.Turn action t := by
  cases action with
  | create label => exact ⟨_, rfl, h.create label⟩
  | createLooped label => exact ⟨_, rfl, h.createLooped label⟩
  | clone slot =>
    obtain ⟨a, ha⟩ := Option.isSome_iff_exists.1 (hfilled slot (.head _))
    exact h.clone ha
  | drop slot =>
    obtain ⟨a, ha⟩ := Option.isSome_iff_exists.1 (hfilled slot (.head _))
    exact h.drop ha
  | link slot target =>
    obtain ⟨a, ha⟩ := Option.isSome_iff_exists.1 (hfilled slot (.head _))
    have htarget := hfilled target (.tail _ (.head _))
    obtain ⟨t, hs, hsound, hslots, hgives⟩ := h.link ha (some target) (by
      rintro k ⟨⟩
      exact htarget)
    exact ⟨t, hs, hsound, hslots, hgives⟩
  | unlink slot =>
    obtain ⟨a, ha⟩ := Option.isSome_iff_exists.1 (hfilled slot (.head _))
    obtain ⟨t, hs, hsound, hslots, hgives⟩ := h.link ha none nofun
    exact ⟨t, hs, hsound, hslots, hgives⟩
  | take slot =>
    obtain ⟨a, ha⟩ := Option.isSome_iff_exists.1 (hfilled slot (.head _))
    obtain ⟨r, t, hs, hsound, hturn⟩ := h.take ha
    refine ⟨t, ?_, hsound, hturn⟩
    rw [Handles.step, hs]
    rfl
  | other slot =>
    obtain ⟨a, ha⟩ := Option.isSome_iff_exists.1 (hfilled slot (.head _))
    obtain ⟨r, t, hs, hsound, hturn⟩ := h.other ha
    refine ⟨t, ?_, hsound, hturn⟩
    rw [Handles.step, hs]
    rfl

theorem of_step (h : s.Sound) {action : Action} (hs : s.step action = .ok t) :
    t.Sound ∧ s.Turn action t := by
  obtain ⟨u, hu, hsound, hturn⟩ := h.step (filled_of_step hs)
  rw [hs] at hu
  cases hu
  exact ⟨hsound, hturn⟩

theorem run (h : s.Sound) {actions : List Action} {events : List (Handles × Action)}
    (hr : s.run actions = .ok (events, t)) : t.Sound := by
  induction actions generalizing s events with
  | nil =>
    cases hr
    exact h
  | cons action actions ih =>
    obtain ⟨u, hs, hr⟩ := bind_eq_ok.1 hr
    obtain ⟨⟨rest, v⟩, hr, ⟨⟩⟩ := bind_eq_ok.1 hr
    exact ih (h.of_step hs).1 hr

end Sound
end ObjectGraph.Handles
