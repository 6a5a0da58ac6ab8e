import ObjectGraph.Proofs.Flatten.Parts
import ObjectGraph.Proofs.Numbering
import Mathlib.Tactic

/-! What a pass does to its session, whatever the hooks ask for: a node that gets a number gets a
slot behind those that are there, and those are not written again (`extends_visit`). The slot of a
root that is refused stays empty, so only an empty container can come of it
(`isEmpty_of_refused`). -/
namespace ObjectGraph

namespace Flatten.Session

variable {α ν ρ κ : Type} {s t u : Session α ρ}

/-- A session with a slot for each number given out. -/
structure Aligned (s : Session α ρ) : Prop where
  next : s.numbering.next = s.records.size
  size : s.objectCount = s.records.size

structure Extends (s t : Session α ρ) : Prop where
  limits : t.limits = s.limits
  rootTaken : t.rootTaken = s.rootTaken
  size : s.records.size ≤ t.records.size
  slots : ∀ k < s.records.size, t.records[k]? = s.records[k]?

theorem Extends.refl (s : Session α ρ) : Extends s s := ⟨rfl, rfl, le_rfl, fun _ _ => rfl⟩

theorem Extends.trans (h : Extends s t) (h' : Extends t u) : Extends s u where
  limits := h'.limits.trans h.limits
  rootTaken := h'.rootTaken.trans h.rootTaken
  size := h.size.trans h'.size
  slots k hk := (h'.slots k (hk.trans_le h.size)).trans (h.slots k hk)

theorem Aligned.next_eq_size (h : Aligned s) : s.numbering.next = s.numbering.size :=
  h.next.trans h.size.symm

theorem Aligned.push [DecidableEq α] (h : Aligned s) {a : α} {limit : UInt32} {id : RecordId}
    {numbering : Numbering α} (hn : s.numbering.lookup a = none)
    (hr : s.numbering.register a limit = .ok (id, numbering)) :
    Aligned { s with numbering, records := s.records.push none } := by
  obtain ⟨-, hnext, hsize, -⟩ := Numbering.register_new hn hr
  have hcount := h.size
  refine ⟨by simp [hnext, h.next], ?_⟩
  unfold objectCount at hcount ⊢
  simp [hsize, hcount]

theorem Aligned.store (h : Aligned s) (index : Nat) (record : Pending ρ) :
    Aligned (s.store index record) where
  next := by simpa [Session.store] using h.next
  size := by
    have hsize := h.size
    unfold objectCount at hsize ⊢
    simpa [Session.store] using hsize

/-- A record behind the slots of an earlier session is new to that. -/
theorem Extends.store (h : Extends s t) {index : Nat} (hi : s.records.size ≤ index)
    (record : Pending ρ) : Extends s (t.store index record) where
  limits := h.limits
  rootTaken := h.rootTaken
  size := by simpa [Session.store] using h.size
  slots k hk := by
    rw [Session.store, Array.getElem?_setIfInBounds, if_neg (by omega)]
    exact h.slots k hk

/-- A part of a pass that only adds slots. -/
def Adds (s t : Session α ρ) : Prop := Aligned s → Aligned t ∧ Extends s t

theorem partwise_adds : Partwise (Adds : Session α ρ → Session α ρ → Prop) where
  refl s hs := ⟨hs, .refl s⟩
  trans h h' hs := by
    obtain ⟨haligned, hextends⟩ := h hs
    obtain ⟨haligned', hextends'⟩ := h' haligned
    exact ⟨haligned', hextends.trans hextends'⟩
  hook h hs := by
    obtain ⟨haligned, hextends⟩ := h ⟨hs.next, hs.size⟩
    exact ⟨⟨haligned.next, haligned.size⟩,
      ⟨hextends.limits, hextends.rootTaken, hextends.size, hextends.slots⟩⟩

/-- A session with numbers whose first slot is empty gives no container. -/
theorem finish_of_hole {codec : Codec κ ρ} {names : Bool} (hs : s.objectCount ≠ 0)
    (hslot : s.records[0]? = some none) :
    s.finish codec names = (.error (.incompleteGraph .root), 0) := by
  obtain ⟨n, hn⟩ := Nat.exists_eq_succ_of_ne_zero hs
  unfold finish
  rw [hn, encodeRecords, hslot]
  rfl

theorem finish_of_unnumbered {codec : Codec κ ρ} {names : Bool} (hs : s.objectCount = 0) :
    s.finish codec names =
      (.ok { records := [], typeNames := if names then some [] else none }, 0) := by
  unfold finish
  rw [hs, encodeRecords]
  rfl

section Pass

variable [DecidableEq α] (schema : Schema α ν ρ) (heap : α → Cell ν)

/-- What becomes of a new node: nothing at all, or it gets the slot behind the others. If it is
refused then, the slot is left empty. -/
theorem welcome_ends {visit : Visit α ρ} (hv : Moves Adds visit) {a : α} (hs : Aligned s)
    (hn : s.numbering.lookup a = none) :
    let (outcome, t) := welcome schema heap visit a s
    Aligned t ∧ Extends s t ∧ ∀ e, outcome = .error e →
      t.records.size = s.records.size ∨ t.records[s.records.size]? = some none := by
  unfold welcome
  rcases hr : s.numbering.register a s.limits.maxRecords with e | ⟨id, numbering⟩
  · exact ⟨hs, .refl s, fun _ _ => .inl rfl⟩
  · have hindex := (Numbering.register_new hn hr).1
    rw [hs.next] at hindex
    obtain ⟨hproduced, hextends⟩ := partwise_adds.produce schema hv id (heap a) _ (hs.push hn hr)
    -- The slot pushed here is the one that a refusal leaves empty: no hook below writes it.
    have hslot := hextends.slots s.records.size (by simp)
    have hpushed : Extends s { s with numbering, records := s.records.push none } :=
      ⟨rfl, rfl, by simp, fun k hk => by simp [Array.getElem?_push, hk.ne]⟩
    simp only [hindex]
    rcases hp : produce schema visit id (heap a)
      { s with numbering, records := s.records.push none } with ⟨e | record, t⟩ <;>
      rw [hp] at hproduced hextends hslot
    · exact ⟨hproduced, hpushed.trans hextends, fun _ _ => .inr (by simpa using hslot)⟩
    · exact ⟨hproduced.store .., (hpushed.trans hextends).store le_rfl _, nofun⟩

theorem extends_visit (levels : Nat) : Moves Adds (Session.visit schema heap levels) := by
  refine partwise_adds.visit schema heap (fun hv a s hn hs => ?_) levels
  obtain ⟨haligned, hextends, -⟩ := welcome_ends schema heap hv hs hn
  exact ⟨haligned, hextends⟩

variable {limits : Limits} {root : α}

/-- The slot of a refused root stays empty, if it got one. -/
theorem slot_of_refused {e : Graph.Error}
    (h : serialize schema heap root { limits } = (.error e, s)) :
    s.objectCount = 0 ∨ s.records[0]? = some none := by
  have hfirst : Aligned { limits, rootTaken := true : Session α ρ } := ⟨rfl, rfl⟩
  simp only [serialize, Bool.false_eq_true, if_false] at h
  cases hlevels : limits.maxDepth.toNat with
  | zero =>
    rw [hlevels] at h
    cases h
    exact .inl rfl
  | succ levels =>
    have hends := welcome_ends schema heap (extends_visit schema heap levels) hfirst
      (a := root) rfl
    rw [hlevels] at h
    rw [show welcome schema heap (Session.visit schema heap levels) root
      { limits, rootTaken := true } = (.error e, s) from h] at hends
    obtain ⟨haligned, -, hrefused⟩ := hends
    rw [haligned.size]
    exact hrefused e rfl

/-- From a refused root comes no container, or an empty one. -/
theorem isEmpty_of_refused {codec : Codec κ ρ} {names : Bool} {e : Graph.Error} {c : Container}
    (h : serialize schema heap root { limits } = (.error e, s))
    (hc : s.intoContainer codec names = .ok c) : c.isEmpty = true := by
  unfold intoContainer at hc
  by_cases hs : s.objectCount = 0
  · rw [finish_of_unnumbered hs] at hc
    cases hc
    rfl
  · rw [finish_of_hole hs ((slot_of_refused schema heap h).resolve_left hs)] at hc
    cases hc

/-- The sessions that requests for roots lead to under limits. Each finds the nodes as they are by
then. -/
inductive Reached (Admits : (α → Cell ν) → Prop) (limits : Limits) : Session α ρ → Prop
  | opened : Reached Admits limits { limits }
  | call {s : Session α ρ} {heap : α → Cell ν} (root : α) (h : Admits heap)
      (hs : Reached Admits limits s) : Reached Admits limits (s.serialize schema heap root).2

variable {schema} in
/-- All but the first request leave the session as it is. -/
theorem Reached.eq_first {Admits : (α → Cell ν) → Prop} (h : Reached schema Admits limits s) :
    s = { limits } ∨ ∃ heap root, Admits heap ∧ s = (serialize schema heap root { limits }).2 := by
  induction h with
  | opened => exact .inl rfl
  | @call s heap root h _ ih =>
    refine .inr ?_
    obtain rfl | ⟨heap', root', h', rfl⟩ := ih
    · exact ⟨heap, root, h, rfl⟩
    · have hfirst : Aligned { limits, rootTaken := true : Session α ρ } := ⟨rfl, rfl⟩
      have htaken := (extends_visit schema heap' limits.maxDepth.toNat root' _ hfirst).2.rootTaken
      refine ⟨heap', root', h', ?_⟩
      unfold serialize
      simp only [Bool.false_eq_true, if_false]
      rw [htaken]
      rfl

end Pass
end Flatten.Session
end ObjectGraph
