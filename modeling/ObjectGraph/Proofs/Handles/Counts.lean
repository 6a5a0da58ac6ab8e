import Mathlib.Tactic
import ObjectGraph.Handles.Heap

/-! The count of a peer is the number of handles to it, those outside and those that peers hold
(`Counted`). So to give back a handle is to free the peers, one after the other, that nothing refers
to any more (`GivesBack`). -/
namespace ObjectGraph.Handles

/-- Peers without their counts: the label of each, and the peer it refers to. Freed ones are left
out. -/
abbrev Contents := Address → Option (String × Option Address)

namespace Contents

def other? (g : Contents) (a : Address) : Option Address := (g a).bind Prod.snd

theorem other?_update (g : Contents) (a : Address) (c : Option (String × Option Address))
    (b : Address) :
    other? (Function.update g a c) b = if b = a then c.bind Prod.snd else g.other? b := by
  unfold other?
  by_cases h : b = a
  · rw [if_pos h, h, Function.update_self]
  · rw [if_neg h, Function.update_of_ne h]

/-- A handle is given back. A peer that somebody else has a handle to stays. Another one is freed,
and gives back the handle it holds itself. -/
inductive GivesBack (outside : Address → Nat) : Contents → Option Address → Contents → Prop
  | none {g : Contents} : GivesBack outside g none g
  | kept {g : Contents} {a : Address} : 0 < outside a ∨ (∃ b, g.other? b = some a) →
      GivesBack outside g (some a) g
  | freed {g g' : Contents} {a : Address} {label : String} {other : Option Address} :
      g a = some (label, other) → outside a = 0 → (∀ b, g.other? b ≠ some a) →
      GivesBack outside (Function.update g a Option.none) other g' →
      GivesBack outside g (some a) g'

section GivesBack

variable {outside : Address → Nat} {g g' : Contents} {handle : Option Address}

/-- Nothing is written to a peer that is not freed. -/
theorem GivesBack.eq_of_some (h : GivesBack outside g handle g') {a : Address}
    {c : String × Option Address} (ha : g' a = some c) : g a = some c := by
  induction h with
  | none => exact ha
  | kept => exact ha
  | @freed g g' b label other hb hout hrefers hgives ih =>
    have hrest := ih ha
    by_cases hab : a = b
    · rw [hab, Function.update_self] at hrest
      cases hrest
    · rwa [Function.update_of_ne hab] at hrest

/-- Peers are not freed that there are handles to, outside or in such peers. -/
theorem GivesBack.eq_of_mem (h : GivesBack outside g handle g') (stay : Set Address)
    (hstay : ∀ a ∈ stay, 0 < outside a ∨ ∃ b ∈ stay, g.other? b = some a) :
    ∀ a ∈ stay, g' a = g a := by
  induction h with
  | none => exact fun _ _ => rfl
  | kept => exact fun _ _ => rfl
  | @freed g g' b label other hb hout hrefers hgives ih =>
    have hnot : ∀ a ∈ stay, a ≠ b := by
      rintro a ha rfl
      rcases hstay a ha with hpos | ⟨x, -, hx⟩
      · exact hpos.ne' hout
      · exact hrefers x hx
    intro a ha
    rw [ih ?_ a ha, Function.update_of_ne (hnot a ha)]
    intro a ha
    refine (hstay a ha).imp_right ?_
    rintro ⟨x, hx, hother⟩
    refine ⟨x, hx, ?_⟩
    rwa [other?_update, if_neg (hnot x hx)]

end GivesBack

end Contents

namespace Heap

open Contents (GivesBack)

variable {m m' : Heap} {a : Address} {c : Option Peer} {p q : Peer}
  {outside outside' : Address → Nat}

def held (m : Heap) : Contents := fun a => (m.peer? a).map fun p => (p.label, p.other)

def handles (m : Heap) (a : Address) : Nat := (m.peer? a).elim 0 Peer.handles

/-- How many peers refer to a peer, freed ones left out. -/
def referrers (m : Heap) (a : Address) : Nat :=
  m.cells.countP fun c => c.bind Peer.other = some a

def live (m : Heap) : Nat := m.cells.countP Option.isSome

theorem live_le_size (m : Heap) : m.live ≤ m.cells.size := Array.countP_le_size

theorem held_eq_some {label : String} {other : Option Address} :
    m.held a = some (label, other) ↔
      ∃ p, m.peer? a = some p ∧ (p.label, p.other) = (label, other) :=
  Option.map_eq_some_iff

theorem isSome_held : (m.held a).isSome = (m.peer? a).isSome := Option.isSome_map

theorem handles_of_peer? (h : m.peer? a = some p) : m.handles a = p.handles := by
  rw [handles, h, Option.elim_some]

theorem other?_held (m : Heap) (a : Address) :
    m.held.other? a = (m.peer? a).bind Peer.other := by
  rw [Contents.other?, held, Option.bind_map]
  rfl

theorem getElem?_of_peer? (h : m.peer? a = some p) : m.cells[a]? = some (some p) :=
  Option.join_eq_some_iff.1 h

theorem referrers_eq_zero : m.referrers a = 0 ↔ ∀ b, m.held.other? b ≠ some a := by
  simp only [referrers, Array.countP_eq_zero, decide_eq_true_eq, other?_held]
  constructor
  · intro hnone b hb
    obtain ⟨p, hp, hother⟩ := Option.bind_eq_some_iff.1 hb
    exact hnone _ (Array.mem_of_getElem? (getElem?_of_peer? hp)) hother
  · intro hnone c hc hrefers
    obtain ⟨b, hb⟩ := Array.mem_iff_getElem?.1 hc
    refine hnone b ?_
    rw [peer?, hb]
    exact hrefers

theorem referrers_pos : 0 < m.referrers a ↔ ∃ b, m.held.other? b = some a := by
  rw [Nat.pos_iff_ne_zero, ne_eq, referrers_eq_zero]
  push Not
  rfl

/-! Writing to a place in memory -/

/-- What is counted in memory, before and after a place is written to. -/
theorem countP_setIfInBounds (f : Option Peer → Bool) (h : m.peer? a = some p) (c : Option Peer) :
    (m.cells.setIfInBounds a c).countP f + (if f (some p) then 1 else 0) =
      m.cells.countP f + if f c then 1 else 0 := by
  have hplace := getElem?_of_peer? h
  obtain ⟨hlt, hget⟩ := Array.getElem?_eq_some_iff.1 hplace
  have hpos : f (some p) = true → 0 < m.cells.countP f := fun hf =>
    Array.countP_pos_iff.2 ⟨_, Array.mem_of_getElem? hplace, hf⟩
  rw [Array.setIfInBounds_def, dif_pos hlt, Array.countP_set, hget]
  split_ifs with hp
  · have := hpos hp
    omega
  · have := hpos hp
    omega
  · rfl
  · rfl

theorem referrers_put (h : m.peer? a = some p) (q : Peer) (b : Address) :
    (m.put a q).referrers b + (if p.other = some b then 1 else 0) =
      m.referrers b + if q.other = some b then 1 else 0 := by
  simpa [referrers, put] using countP_setIfInBounds (fun c => c.bind Peer.other = some b) h (some q)

theorem referrers_free (h : m.peer? a = some p) (b : Address) :
    (m.free a).referrers b + (if p.other = some b then 1 else 0) = m.referrers b := by
  simpa [referrers, free] using countP_setIfInBounds (fun c => c.bind Peer.other = some b) h none

theorem live_free (h : m.peer? a = some p) : (m.free a).live + 1 = m.live := by
  simpa [live, free] using countP_setIfInBounds Option.isSome h none

def Written (m m' : Heap) (a : Address) (c : Option Peer) : Prop :=
  ∀ b, m'.peer? b = if a = b then c else m.peer? b

theorem written_put (h : m.peer? a = some p) (q : Peer) : m.Written (m.put a q) a (some q) :=
  peer?_put (lt_of_peer? h)

theorem written_free (m : Heap) (a : Address) : m.Written (m.free a) a none := peer?_free m a

theorem written_allocate (m : Heap) (p : Peer) :
    m.Written (m.allocate p).2 m.cells.size (some p) := by
  intro b
  rw [peer?_allocate]
  exact if_congr eq_comm rfl rfl

theorem Written.handles (h : m.Written m' a c) (b : Address) :
    m'.handles b = if a = b then c.elim 0 Peer.handles else m.handles b := by
  rw [Heap.handles, h b]
  split
  · rfl
  · rfl

theorem Written.held (h : m.Written m' a c) :
    m'.held = Function.update m.held a (c.map fun p => (p.label, p.other)) := by
  funext b
  rw [Heap.held, h b]
  by_cases hab : a = b
  · rw [if_pos hab, ← hab, Function.update_self]
  · rw [if_neg hab, Function.update_of_ne (Ne.symm hab), Heap.held]

/-- Nothing is told apart of a peer that has the label and the reference of the old one. -/
theorem held_put_of_eq (h : m.peer? a = some p) (hq : (q.label, q.other) = (p.label, p.other)) :
    (m.put a q).held = m.held := by
  rw [(written_put h q).held, Function.update_eq_self_iff, held, h, Option.map_some, hq,
    Option.map_some]

/-! Counted memory -/

/-- Each peer counts the handles to it, outside and in other peers. It has some, and nobody keeps a
borrow of it. -/
structure Counted (outside : Address → Nat) (m : Heap) : Prop where
  handles : ∀ a, m.handles a = outside a + m.referrers a
  pos : ∀ {a p}, m.peer? a = some p → 0 < p.handles
  free : ∀ {a p}, m.peer? a = some p → p.borrow = .free

theorem counted_empty : Counted (fun _ => 0) {} where
  handles _ := rfl
  pos h := absurd h (by simp [peer?])
  free h := absurd h (by simp [peer?])

theorem Counted.handles_eq (h : m.Counted outside) (hp : m.peer? a = some p) :
    p.handles = outside a + m.referrers a := by
  rw [← h.handles, handles_of_peer? hp]

theorem Counted.isSome_iff (h : m.Counted outside) :
    (m.peer? a).isSome ↔ 0 < outside a + m.referrers a := by
  rw [← h.handles, Heap.handles]
  rcases hp : m.peer? a with _ | p
  · simp
  · exact iff_of_true rfl (h.pos hp)

theorem Counted.exists_peer (h : m.Counted outside) (ha : 0 < outside a) :
    ∃ p, m.peer? a = some p :=
  Option.isSome_iff_exists.1 (h.isSome_iff.2 (Nat.add_pos_left ha _))

theorem Counted.written (h : m.Counted outside) (hw : m.Written m' a c)
    (hc : ∀ q, c = some q → 0 < q.handles ∧ q.borrow = .free)
    (hhandles : ∀ b, (if a = b then c.elim 0 Peer.handles else m.handles b) =
      outside' b + m'.referrers b) : m'.Counted outside' where
  handles b := by rw [hw.handles, hhandles]
  pos {b p} hb := by
    rw [hw b] at hb
    split at hb
    · exact (hc p hb).1
    · exact h.pos hb
  free {b p} hb := by
    rw [hw b] at hb
    split at hb
    · exact (hc p hb).2
    · exact h.free hb

/-- A peer may be written to if its count changes as the handles to it do, and those to all others,
outside and in the peer together, stay as many as they are. -/
theorem Counted.put (h : m.Counted outside) (hp : m.peer? a = some p) (hpos : 0 < q.handles)
    (hborrow : q.borrow = p.borrow)
    (hbalance : ∀ b,
      outside b + (if p.other = some b then 1 else 0) + (if a = b then q.handles else 0) =
        outside' b + (if q.other = some b then 1 else 0) + if a = b then p.handles else 0) :
    (m.put a q).Counted outside' := by
  refine h.written (written_put hp q) ?_ fun b => ?_
  · rintro _ ⟨⟩
    exact ⟨hpos, hborrow.trans (h.free hp)⟩
  · have hb := h.handles b
    have hreferrers := referrers_put hp q b
    have hbalance := hbalance b
    rw [Option.elim_some]
    by_cases hab : a = b
    · rw [if_pos hab, if_pos hab] at hbalance
      rw [if_pos hab]
      rw [← hab, handles_of_peer? hp, hab] at hb
      omega
    · rw [if_neg hab, if_neg hab] at hbalance
      rw [if_neg hab]
      omega

theorem Counted.retain (h : m.Counted outside) (hp : m.peer? a = some p) :
    (m.retain a).Counted (fun b => outside b + if a = b then 1 else 0) ∧
      (m.retain a).held = m.held := by
  have hretain : m.retain a = m.put a { p with handles := p.handles + 1 } := by
    rw [Heap.retain, modify, hp]
  rw [hretain]
  constructor
  · refine h.put hp (Nat.succ_pos _) rfl fun b => ?_
    dsimp only
    split_ifs <;> omega
  · exact held_put_of_eq hp rfl

/-- A peer takes over a handle from outside, and gives its own to the outside. -/
theorem Counted.exchange {target : Option Address} (label : String)
    (h : m.Counted fun b => outside b + if target = some b then 1 else 0)
    (hp : m.peer? a = some p) :
    (m.put a { p with label, other := target }).Counted
      fun b => outside b + if p.other = some b then 1 else 0 := by
  have hpos : 0 < p.handles := h.pos hp
  refine h.put hp hpos rfl fun b => ?_
  dsimp only
  omega

theorem Counted.relabel (label : String) (h : m.Counted outside) (hp : m.peer? a = some p) :
    (m.put a { p with label }).Counted outside := by
  have hpos : 0 < p.handles := h.pos hp
  exact h.put hp hpos rfl fun _ => rfl

/-- The last handle to a peer is given back, and the peer gives its own to the outside. -/
theorem Counted.freed (h : m.Counted fun b => outside b + if some a = some b then 1 else 0)
    (hp : m.peer? a = some p) (hlast : p.handles ≤ 1) :
    (m.free a).Counted fun b => outside b + if p.other = some b then 1 else 0 := by
  refine h.written (written_free m a) nofun fun b => ?_
  have ha := h.handles_eq hp
  have hb := h.handles b
  have hreferrers := referrers_free hp b
  rw [if_pos rfl] at ha
  by_cases hab : a = b
  · subst hab
    rw [if_pos rfl, Option.elim_none]
    omega
  · have hother : some a ≠ some b := fun hsome => hab (Option.some.inj hsome)
    rw [if_neg hother] at hb
    rw [if_neg hab]
    omega

/-- There is a handle to a peer on every call, and each call but the last frees one of the peers, so
there are steps enough. -/
theorem Counted.releaseWithin {steps : Nat} {handle : Option Address}
    (h : m.Counted fun b => outside b + if handle = some b then 1 else 0) (hsteps : m.live ≤ steps) :
    (releaseWithin steps handle m).Counted outside ∧
      GivesBack outside m.held handle (releaseWithin steps handle m).held := by
  induction steps generalizing m handle with
  | zero =>
    cases handle with
    | none => exact ⟨by simpa [Heap.releaseWithin] using h, .none⟩
    | some a =>
      obtain ⟨p, hp⟩ := h.exists_peer (by simp : 0 < outside a + if some a = some a then 1 else 0)
      have hlive := live_free hp
      omega
  | succ steps ih =>
    cases handle with
    | none => exact ⟨by simpa [Heap.releaseWithin] using h, by simpa [Heap.releaseWithin] using .none⟩
    | some a =>
      obtain ⟨p, hp⟩ := h.exists_peer (by simp : 0 < outside a + if some a = some a then 1 else 0)
      have ha := h.handles_eq hp
      rw [if_pos rfl] at ha
      simp only [Heap.releaseWithin, hp]
      by_cases hmore : 1 < p.handles
      · have hheld : (m.put a { p with handles := p.handles - 1 }).held = m.held :=
          held_put_of_eq hp rfl
        rw [if_pos hmore, hheld]
        constructor
        · refine h.put hp (Nat.sub_pos_of_lt hmore) rfl fun b => ?_
          simp only [Option.some.injEq]
          split_ifs <;> omega
        · apply GivesBack.kept
          rw [← referrers_pos]
          omega
      · have hlast : p.handles ≤ 1 := not_lt.1 hmore
        have hlive := live_free hp
        rw [if_neg hmore]
        obtain ⟨hcounted, hgives⟩ := ih (h.freed hp hlast) (by omega)
        rw [(written_free m a).held, Option.map_none] at hgives
        have hheld : m.held a = some (p.label, p.other) := held_eq_some.2 ⟨p, hp, rfl⟩
        refine ⟨hcounted, GivesBack.freed hheld ?_ ?_ hgives⟩
        · omega
        · apply referrers_eq_zero.1
          omega

theorem Counted.release {handle : Option Address}
    (h : m.Counted fun b => outside b + if handle = some b then 1 else 0) :
    (m.release handle).Counted outside ∧ GivesBack outside m.held handle (m.release handle).held :=
  h.releaseWithin m.live_le_size

/-- A peer is made to refer to another one, or to none. -/
theorem Counted.setOther {target : Option Address} (h : m.Counted outside)
    (hp : m.peer? a = some p) (htarget : ∀ b, target = some b → (m.peer? b).isSome) :
    (m.setOther a target).Counted outside ∧
      GivesBack outside (Function.update m.held a (some (p.label, target))) p.other
        (m.setOther a target).held := by
  obtain ⟨m₁, hm₁, hcounted₁, hheld₁⟩ : ∃ m₁, target.elim m m.retain = m₁ ∧
      (m₁.Counted fun b => outside b + if target = some b then 1 else 0) ∧ m₁.held = m.held := by
    cases target with
    | none => exact ⟨m, rfl, by simpa using h, rfl⟩
    | some b =>
      obtain ⟨q, hq⟩ := Option.isSome_iff_exists.1 (htarget b rfl)
      obtain ⟨hcounted, hheld⟩ := h.retain hq
      exact ⟨m.retain b, rfl, by simpa only [Option.some.injEq] using hcounted, hheld⟩
  -- A peer that is to refer to itself has been retained, so its count is not the old one.
  obtain ⟨p₁, hp₁, hsame⟩ :
      ∃ p₁, m₁.peer? a = some p₁ ∧ (p₁.label, p₁.other) = (p.label, p.other) := by
    apply held_eq_some.1
    rw [hheld₁, held, hp, Option.map_some]
  obtain ⟨hlabel, hother⟩ := Prod.mk.inj hsame
  have hset : m.setOther a target =
      (m₁.put a { p₁ with other := target }).release p₁.other := by
    rw [Heap.setOther, hm₁, modify, hp₁, hp, Option.bind_some, hother]
  have hrelease := (hcounted₁.exchange p₁.label hp₁).release
  rw [(written_put hp₁ _).held, hheld₁] at hrelease
  rw [hset, ← hother, ← hlabel]
  exact hrelease

/-- A new peer has one handle, outside. -/
theorem Counted.allocate (h : m.Counted outside) (label : String) :
    (m.allocate { label }).2.Counted (fun b => outside b + if m.cells.size = b then 1 else 0) ∧
      (m.allocate { label }).2.held =
        Function.update m.held m.cells.size (some (label, none)) := by
  have hw := m.written_allocate { label }
  have hnew : m.handles m.cells.size = 0 := by simp [Heap.handles, peer?]
  have hreferrers : ∀ b, (m.allocate { label }).2.referrers b = m.referrers b := by
    intro b
    simp [Heap.allocate, referrers]
  constructor
  · refine h.written hw ?_ fun b => ?_
    · rintro _ ⟨⟩
      exact ⟨Nat.one_pos, rfl⟩
    · have hb := h.handles b
      rw [hreferrers, Option.elim_some]
      by_cases hsize : m.cells.size = b
      · subst hsize
        rw [hnew] at hb
        rw [if_pos rfl, if_pos rfl]
        dsimp only
        omega
      · rw [if_neg hsize, if_neg hsize]
        omega
  · exact hw.held

end Heap
end ObjectGraph.Handles
