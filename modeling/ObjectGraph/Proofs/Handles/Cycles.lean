import Mathlib.Dynamics.PeriodicPts.Defs
import Mathlib.Logic.Relation
import ObjectGraph.Proofs.Handles.Actions

/-! Which peers are left once the caller has no handles any more: those that a cycle leads to, and
so none if the caller has cut every cycle (`ledger_run`). -/
namespace ObjectGraph.Handles

open Relation (TransGen ReflTransGen)

namespace Contents

variable {g g' : Contents} {a b c : Address}

def Refers (g : Contents) (a b : Address) : Prop := g.other? a = some b

/-- A peer is another one, or refers to a peer that leads there. -/
def Leads (g : Contents) : Address → Address → Prop := ReflTransGen g.Refers

/-- A peer leads back to itself. Its cycle is made of the peers that it leads to. -/
def OnCycle (g : Contents) (a : Address) : Prop := TransGen g.Refers a a

theorem Refers.unique (hb : g.Refers a b) (hc : g.Refers a c) : b = c :=
  Option.some.inj (hb.symm.trans hc)

/-- On a cycle there is a way back, also if references were taken away that are not part of it. -/
theorem OnCycle.back (h : g'.OnCycle a) (hsub : ∀ b c, g'.Refers b c → g.Refers b c)
    (hab : g.Leads a b) : TransGen g'.Refers b a := by
  induction hab with
  | refl => exact h
  | @tail b c _ hbc ih =>
    obtain ⟨c', hbc', hca⟩ := TransGen.head'_iff.1 ih
    obtain rfl := (hsub b c' hbc').unique hbc
    rcases ReflTransGen.cases_head hca with rfl | ⟨d, hcd, hda⟩
    · exact h
    · exact .head' hcd hda

theorem OnCycle.exists_other (h : g.OnCycle a) (hab : g.Leads a b) : ∃ c, g.other? b = some c := by
  obtain ⟨c, hbc, -⟩ := TransGen.head'_iff.1 (h.back (fun _ _ => id) hab)
  exact ⟨c, hbc⟩

/-- A peer on a cycle is referred to from the cycle. -/
theorem OnCycle.exists_referrer (h : g.OnCycle a) (hab : g.Leads a b) :
    ∃ x, g.Leads a x ∧ g.other? x = some b := by
  have hround : TransGen g.Refers a b := TransGen.trans_left h hab
  exact TransGen.tail'_iff.1 hround

/-- Where all peers are referred to, there is a cycle: back from referrer to referrer, one of them
is met again. -/
theorem exists_onCycle (hfinite : {a | (g a).isSome}.Finite) (ha : (g a).isSome)
    (hreferred : ∀ b, (g b).isSome → ∃ x, g.other? x = some b) : ∃ b, g.OnCycle b := by
  have hprevious : ∀ b : {b // (g b).isSome}, ∃ x : {x // (g x).isSome}, g.Refers x b := by
    rintro ⟨b, hb⟩
    obtain ⟨x, hx⟩ := hreferred b hb
    obtain ⟨content, hcontent, -⟩ := Option.bind_eq_some_iff.1 hx
    exact ⟨⟨x, hcontent ▸ rfl⟩, hx⟩
  choose previous hrefers using hprevious
  have hinjective : Function.Injective previous := by
    intro b c hbc
    have hb := hrefers b
    rw [hbc] at hb
    exact Subtype.ext (hb.unique (hrefers c))
  have hleads : ∀ (n : ℕ) b, TransGen g.Refers (previous^[n + 1] b) b := by
    intro n b
    induction n with
    | zero => exact .single (hrefers b)
    | succ n ih =>
      rw [Function.iterate_succ_apply']
      exact .head (hrefers _) ih
  have : Finite {b // (g b).isSome} := hfinite
  obtain ⟨n, hn, hagain⟩ := hinjective.mem_periodicPts ⟨a, ha⟩
  obtain ⟨n, rfl⟩ := Nat.exists_eq_add_one.2 hn
  have hcycle := hleads n ⟨a, ha⟩
  rw [hagain] at hcycle
  exact ⟨a, hcycle⟩

end Contents

variable {s t : Handles} {action : Action} {actions : List Action}
  {events : List (Handles × Action)} {a b : Address}

theorem finite_held (s : Handles) : {a | (s.held a).isSome}.Finite := by
  refine (Set.finite_lt_nat s.heap.cells.size).subset fun a ha => ?_
  have hpeer : (s.heap.peer? a).isSome := Heap.isSome_held.symm.trans ha
  obtain ⟨p, hp⟩ := Option.isSome_iff_exists.1 hpeer
  exact Heap.lt_of_peer? hp

theorem isSome_of_other? (h : s.held.other? a = some b) : (s.heap.peer? a).isSome := by
  obtain ⟨c, hc, -⟩ := Option.bind_eq_some_iff.1 h
  rw [← Heap.isSome_held, ← held, hc, Option.isSome_some]

/-- Without handles outside, peers are left exactly if there are cycles. -/
theorem Sound.left_iff (h : s.Sound) (hnone : ∀ a, s.callers a = 0) :
    (∃ a, (s.heap.peer? a).isSome) ↔ ∃ a, s.held.OnCycle a := by
  constructor
  · rintro ⟨a, ha⟩
    refine Contents.exists_onCycle s.finite_held (a := a) ?_ fun b hb => ?_
    · rw [held, Heap.isSome_held]
      exact ha
    · rw [held, Heap.isSome_held, Heap.Counted.isSome_iff h, hnone, Nat.zero_add,
        Heap.referrers_pos] at hb
      exact hb
  · rintro ⟨a, ha⟩
    obtain ⟨b, hb⟩ := ha.exists_other .refl
    exact ⟨a, isSome_of_other? hb⟩

def Cuts (s : Handles) : Action → Address → Prop
  | .unlink slot, a | .take slot, a => s.at? slot = some a
  | _, _ => False

def Redirects (s : Handles) (action : Action) (a : Address) : Prop :=
  (s.written action).other? a ≠ s.held.other? a

def Action.Joins : Action → Prop
  | .createLooped _ | .link _ _ => True
  | _ => False

theorem other?_cleared {slot : Nat} {f : String → String × Option Address}
    (hf : ∀ label, (f label).2 = none) (h : (s.rewritten slot f).other? a = some b) :
    s.held.other? a = some b ∧ s.at? slot ≠ some a := by
  rw [Contents.other?, rewritten] at h
  split at h
  · rw [Option.bind_map] at h
    obtain ⟨c, -, hc⟩ := Option.bind_eq_some_iff.1 h
    cases (hf c.1).symm.trans hc
  · next hat => exact ⟨h, hat⟩

/-- An action that joins no peers leaves references as they were, or cuts them. -/
theorem other?_written (hjoins : ¬ action.Joins) (h : (s.written action).other? a = some b) :
    s.held.other? a = some b ∧ ¬ s.Cuts action a := by
  cases action with
  | create label =>
    rw [written, withNew, Contents.other?_update] at h
    split at h
    · cases h
    · exact ⟨h, id⟩
  | createLooped label => exact absurd trivial hjoins
  | clone slot => exact ⟨h, id⟩
  | drop slot => exact ⟨h, id⟩
  | link slot target => exact absurd trivial hjoins
  | unlink slot =>
    rw [written] at h
    exact other?_cleared (fun _ => rfl) h
  | take slot =>
    rw [written] at h
    exact other?_cleared (fun _ => rfl) h
  | other slot => exact ⟨h, id⟩

theorem Turn.other? (h : s.Turn action t) (hb : t.held.other? a = some b) :
    (s.written action).other? a = some b := by
  obtain ⟨c, hc, hother⟩ := Option.bind_eq_some_iff.1 hb
  rw [Contents.other?, h.held.eq_of_some hc, Option.bind_some, hother]

/-- References that are left where none were added were there before, and nothing cut them. -/
theorem Sound.other?_run (h : s.Sound) (hr : s.run actions = .ok (events, t))
    (hjoins : ∀ action ∈ actions, ¬ action.Joins) (hb : t.held.other? a = some b) :
    s.held.other? a = some b ∧ ∀ e ∈ events, ¬ e.1.Cuts e.2 a := by
  induction actions generalizing s events with
  | nil =>
    cases hr
    exact ⟨hb, nofun⟩
  | cons action actions ih =>
    obtain ⟨u, hs, hr⟩ := bind_eq_ok.1 hr
    obtain ⟨⟨rest, v⟩, hr, ⟨⟩⟩ := bind_eq_ok.1 hr
    obtain ⟨hsound, hturn⟩ := h.of_step hs
    rw [List.forall_mem_cons] at hjoins
    obtain ⟨hother, hcuts⟩ := ih hsound hr hjoins.2
    obtain ⟨hother, hcut⟩ := other?_written hjoins.1 (hturn.other? hother)
    exact ⟨hother, List.forall_mem_cons.2 ⟨hcut, hcuts⟩⟩

/-- Once each cycle is cut and there are no handles outside, all peers are freed. -/
theorem Sound.all_freed (h : s.Sound) (hr : s.run actions = .ok (events, t))
    (hjoins : ∀ action ∈ actions, ¬ action.Joins)
    (hcut : ∀ a, s.held.OnCycle a → ∃ b, s.held.Leads a b ∧ ∃ e ∈ events, e.1.Cuts e.2 b)
    (hnone : ∀ a, t.callers a = 0) (a : Address) : t.heap.peer? a = none := by
  by_contra hleft
  obtain ⟨x, hcycle⟩ := ((h.run hr).left_iff hnone).1 ⟨a, Option.isSome_iff_ne_none.2 hleft⟩
  have hold : ∀ a b, t.held.Refers a b → s.held.Refers a b := fun _ _ hab =>
    (h.other?_run hr hjoins hab).1
  obtain ⟨b, hxb, e, he, hcuts⟩ := hcut x (TransGen.mono hold x x hcycle)
  -- All of the old cycle is left, the peer that was cut off included.
  obtain ⟨c, hbc, -⟩ := TransGen.head'_iff.1 (hcycle.back hold hxb)
  exact (h.other?_run hr hjoins hbc).2 e he hcuts

theorem Turn.other?_of_cycle (h : s.Turn action t) (stay : Set Address)
    (hstay : ∀ a ∈ stay, ∃ b ∈ stay, s.held.other? b = some a)
    (hkept : ∀ a ∈ stay, ¬ s.Redirects action a) :
    ∀ a ∈ stay, t.held.other? a = s.held.other? a := by
  have hsame : ∀ a ∈ stay, (s.written action).other? a = s.held.other? a := fun a ha =>
    not_not.1 (hkept a ha)
  have hheld : ∀ a ∈ stay, t.held a = s.written action a := by
    refine h.held.eq_of_mem stay fun a ha => .inr ?_
    obtain ⟨b, hb, hother⟩ := hstay a ha
    exact ⟨b, hb, (hsame b hb).trans hother⟩
  intro a ha
  rw [Contents.other?, hheld a ha, ← hsame a ha, Contents.other?]

/-- Peers that are referred to from among themselves stay, while they refer to the same. -/
theorem Sound.stays_run (h : s.Sound) (hr : s.run actions = .ok (events, t)) (stay : Set Address)
    (hstay : ∀ a ∈ stay, ∃ b ∈ stay, s.held.other? b = some a)
    (hkept : ∀ e ∈ events, ∀ a ∈ stay, ¬ e.1.Redirects e.2 a) :
    ∀ a ∈ stay, t.held.other? a = s.held.other? a := by
  induction actions generalizing s events with
  | nil =>
    cases hr
    exact fun _ _ => rfl
  | cons action actions ih =>
    obtain ⟨u, hs, hr⟩ := bind_eq_ok.1 hr
    obtain ⟨⟨rest, v⟩, hr, ⟨⟩⟩ := bind_eq_ok.1 hr
    obtain ⟨hsound, hturn⟩ := h.of_step hs
    rw [List.forall_mem_cons] at hkept
    have hsame := hturn.other?_of_cycle stay hstay hkept.1
    have hstay' : ∀ a ∈ stay, ∃ b ∈ stay, u.held.other? b = some a := by
      intro a ha
      obtain ⟨b, hb, hother⟩ := hstay a ha
      exact ⟨b, hb, (hsame b hb).trans hother⟩
    intro a ha
    exact (ih hsound hr hstay' hkept.2 a ha).trans (hsame a ha)

/-- All that is told of peers by the handles to them. -/
structure Ledger (s : Handles) : Prop where
  /-- The count of a peer is the number of the caller's handles to it and of the peers that refer to
  it, freed ones left out. -/
  handles : ∀ a p, s.heap.peer? a = some p → p.handles = s.callers a + s.heap.referrers a
  count : ∀ slot a, s.at? slot = some a → s.count slot = .ok (s.callers a + s.heap.referrers a)
  live : ∀ a, (s.heap.peer? a).isSome ↔ 0 < s.callers a + s.heap.referrers a
  /-- Only a handle that is not there keeps an action from being done. -/
  usable : ∀ action, (∃ t, s.step action = .ok t) ↔ ∀ slot ∈ action.slots, (s.at? slot).isSome
  turn : ∀ action t, s.step action = .ok t → s.Turn action t
  /-- The peer that is emptied stays, and all handles point where they did. -/
  take : ∀ slot a t, s.at? slot = some a → s.step (.take slot) = .ok t →
    t.slots = s.slots ∧ t.held a = some ("", none)
  left : (∀ a, s.callers a = 0) → ((∃ a, (s.heap.peer? a).isSome) ↔ ∃ a, s.held.OnCycle a)
  /-- After the caller has cut each cycle at one peer at least, and dropped all handles, no peer is
  left. -/
  freed : ∀ actions events t, s.run actions = .ok (events, t) →
    (∀ action ∈ actions, ¬ action.Joins) →
    (∀ a, s.held.OnCycle a → ∃ b, s.held.Leads a b ∧ ∃ e ∈ events, e.1.Cuts e.2 b) →
    (∀ a, t.callers a = 0) → ∀ a, t.heap.peer? a = none
  /-- A cycle of which no peer is made to refer to something else stays, whatever else is done. -/
  stays : ∀ actions events t a, s.run actions = .ok (events, t) → s.held.OnCycle a →
    (∀ e ∈ events, ∀ b, s.held.Leads a b → ¬ e.1.Redirects e.2 b) →
    ∀ b, s.held.Leads a b → (t.heap.peer? b).isSome ∧ t.held.other? b = s.held.other? b

/-- Whatever a caller does, the counts are exact, peers are freed one after the other as soon as
there are no handles to them, and cycles exactly if they are cut. -/
theorem ledger_run (hr : run {} actions = .ok (events, s)) : Ledger s := by
  have h : s.Sound := sound_empty.run hr
  refine {
    handles := fun a p hp => Heap.Counted.handles_eq h hp
    count := fun slot a ha => h.count ha
    live := fun a => Heap.Counted.isSome_iff h
    usable := fun action => ⟨?_, fun hfilled => ?_⟩
    turn := fun action t hs => (h.of_step hs).2
    take := fun slot a t ha hs => ?_
    left := h.left_iff
    freed := fun actions events t hr hjoins hcut hnone => h.all_freed hr hjoins hcut hnone
    stays := fun actions events t a hr hcycle hkept b hab => ?_ }
  · rintro ⟨t, hs⟩
    exact filled_of_step hs
  · obtain ⟨t, hs, -⟩ := h.step hfilled
    exact ⟨t, hs⟩
  · have hturn := (h.of_step hs).2
    have hslots : t.slots = s.slots := hturn.slots
    have hat : t.at? slot = some a := by rw [at?, hslots]; exact ha
    have hstays := hturn.held.eq_of_mem {a} (by
      rintro _ rfl
      exact .inl (callers_pos hat))
    obtain ⟨p, hp, -⟩ := h.exists_peer ha
    refine ⟨hslots, ?_⟩
    rw [hstays a rfl, written, rewritten_eq ha hp, Function.update_self]
  · have hreferred : ∀ b ∈ {b | s.held.Leads a b}, ∃ x ∈ {b | s.held.Leads a b},
        s.held.other? x = some b := fun b hb => hcycle.exists_referrer hb
    have hsame := h.stays_run hr {b | s.held.Leads a b} hreferred hkept b hab
    obtain ⟨c, hc⟩ := hcycle.exists_other hab
    exact ⟨isSome_of_other? (hsame.trans hc), hsame⟩

def rings : Handles where
  heap := ⟨#[some ⟨"a", some 1, 2, .free⟩, some ⟨"b", some 0, 2, .free⟩,
    some ⟨"c", some 2, 2, .free⟩]⟩
  slots := #[some 0, some 1, some 2]

/-- To empty one of the two and to unlink the third frees all of them. Without the latter, the third
one stays. -/
theorem ledger_run_rings : ∃ events,
    run {} [.create "a", .create "b", .link 0 1, .link 1 0, .createLooped "c"] = .ok (events, rings) ∧
    Ledger rings ∧ rings.count 1 = .ok 2 ∧
    (∃ events t, rings.run [.take 0, .unlink 2, .drop 0, .drop 1, .drop 2] = .ok (events, t) ∧
      ∀ a, t.heap.peer? a = none) ∧
    ∃ events t, rings.run [.take 0, .drop 0, .drop 1, .drop 2] = .ok (events, t) ∧
      t.heap.peer? 1 = none ∧ (t.heap.peer? 2).isSome := by
  have hrun : run {} [.create "a", .create "b", .link 0 1, .link 1 0, .createLooped "c"] =
      .ok (_, rings) := rfl
  have hledger := ledger_run hrun
  refine ⟨_, hrun, hledger, hledger.count 1 1 rfl, ?_, ?_⟩
  · have hbroken : rings.run [.take 0, .unlink 2, .drop 0, .drop 1, .drop 2] =
        .ok (_, ⟨⟨#[none, none, none]⟩, #[none, none, none]⟩) := rfl
    refine ⟨_, _, hbroken, hledger.freed _ _ _ hbroken ?_ ?_ ?_⟩
    · simp [Action.Joins]
    · intro a ha
      obtain ⟨b, hb⟩ := ha.exists_other .refl
      obtain ⟨p, hp⟩ := Option.isSome_iff_exists.1 (isSome_of_other? hb)
      have hlt : a < 3 := Heap.lt_of_peer? hp
      interval_cases a
      · exact ⟨0, .refl, _, .head _, rfl⟩
      · exact ⟨0, .single rfl, _, .head _, rfl⟩
      · exact ⟨2, .refl, _, .tail _ (.head _), rfl⟩
    · exact fun a => rfl
  · have hkept : rings.run [.take 0, .drop 0, .drop 1, .drop 2] =
        .ok (_, ⟨⟨#[none, none, some ⟨"c", some 2, 1, .free⟩]⟩, #[none, none, none]⟩) := rfl
    have honly : ∀ b, rings.held.Leads 2 b → b = 2 := by
      intro b hb
      induction hb with
      | refl => rfl
      | tail _ hbc ih =>
        subst ih
        exact (Option.some.inj hbc).symm
    refine ⟨_, _, hkept, rfl, (hledger.stays _ _ _ 2 hkept (.single rfl) ?_ 2 .refl).1⟩
    intro e he b hb
    obtain rfl := honly b hb
    revert e
    exact List.forall_mem_cons.2 ⟨not_not.2 rfl, List.forall_mem_cons.2 ⟨not_not.2 rfl,
      List.forall_mem_cons.2 ⟨not_not.2 rfl, List.forall_mem_singleton.2 (not_not.2 rfl)⟩⟩⟩

end ObjectGraph.Handles
