import ObjectGraph.Proofs.Flatten.Parts
import ObjectGraph.Proofs.Numbering
import Mathlib.Tactic

/-! What a visit leaves as it was: the limits, the depth, and the numbers given out
(`keeps_visit`). So hooks and callers can ask for nodes in one way, and the depth alone tells them
apart (`ask_eq`). -/
namespace ObjectGraph

namespace Flatten.Session

variable {α ν ρ : Type} [DecidableEq α] {s t u : Session α ρ}

/-- A later session with as many hooks under way, in which every node keeps its number. -/
structure Keeps (s t : Session α ρ) : Prop where
  limits : t.limits = s.limits
  depth : t.depth = s.depth
  rootTaken : t.rootTaken = s.rootTaken
  lookup : ∀ {a id}, s.numbering.lookup a = some id → t.numbering.lookup a = some id

theorem Keeps.refl (s : Session α ρ) : Keeps s s := ⟨rfl, rfl, rfl, id⟩

theorem Keeps.trans (h : Keeps s t) (h' : Keeps t u) : Keeps s u where
  limits := h'.limits.trans h.limits
  depth := h'.depth.trans h.depth
  rootTaken := h'.rootTaken.trans h.rootTaken
  lookup ha := h'.lookup (h.lookup ha)

/-- What happens inside a hook is over when the hook is left. -/
theorem Keeps.leave {id : RecordId} (h : Keeps (s.enter id) t) : Keeps s (t.leave id) where
  limits := h.limits
  depth := by
    have hdepth : t.depth = s.depth + 1 := h.depth
    show t.depth - 1 = s.depth
    rw [hdepth, Nat.add_sub_cancel]
  rootTaken := h.rootTaken
  lookup := h.lookup

theorem partwise_keeps : Partwise (Keeps : Session α ρ → Session α ρ → Prop) where
  refl := .refl
  trans := .trans
  hook := .leave

section Pass

variable (schema : Schema α ν ρ) (heap : α → Cell ν)

/-- A node that gets a number has it for good, also if its record is refused. -/
theorem keeps_welcome {visit : Visit α ρ} (hv : Moves Keeps visit) {a : α} {id : RecordId}
    {numbering : Numbering α}
    (hr : s.numbering.register a s.limits.maxRecords = .ok (id, numbering)) :
    Keeps { s with numbering, records := s.records.push none }
      (welcome schema heap visit a s).2 := by
  have hproduced := partwise_keeps.produce schema hv id (heap a)
    { s with numbering, records := s.records.push none }
  unfold welcome
  rw [hr]
  dsimp only
  split
  · exact .refl _
  · split <;> rename_i hp <;> rw [hp] at hproduced
    · exact hproduced
    · exact ⟨hproduced.limits, hproduced.depth, hproduced.rootTaken, hproduced.lookup⟩

theorem moves_welcome {visit : Visit α ρ} (hv : Moves Keeps visit) :
    Moves Keeps (welcome schema heap visit) := by
  intro a s
  rcases hr : s.numbering.register a s.limits.maxRecords with e | ⟨id, numbering⟩
  · unfold welcome
    rw [hr]
    exact .refl s
  · have hpushed : Keeps s { s with numbering, records := s.records.push none } :=
      ⟨rfl, rfl, rfl, Numbering.lookup_register hr⟩
    exact hpushed.trans (keeps_welcome schema heap hv hr)

/-- Whatever the hooks of a pass ask for, they are all left when it ends. -/
theorem keeps_visit (levels : Nat) : Moves Keeps (Session.visit schema heap levels) :=
  partwise_keeps.visit schema heap (fun hv a s _ => moves_welcome schema heap hv a s) levels

def ask (schema : Schema α ν ρ) (heap : α → Cell ν) : Visit α ρ := fun node s =>
  if s.inTraversal then Session.visit schema heap (s.limits.maxDepth.toNat - s.depth) node s
  else s.serialize schema heap node

/-- Outside every hook a request is for a root. -/
theorem ask_of_idle (hs : s.depth = 0) (node : α) :
    ask schema heap node s = s.serialize schema heap node := by
  simp [ask, inTraversal, hs]

/-- A hook that asks for nodes in that way is given what it is allowed at its depth. -/
theorem runHook_ask {levels : Nat} (hook : Hook α ρ) (hd : 0 < s.depth)
    (hl : s.depth + levels = s.limits.maxDepth.toNat) :
    runHook (Session.visit schema heap levels) hook s = runHook (ask schema heap) hook s := by
  induction hook generalizing s with
  | done | fail => rfl
  | serialize node next ih =>
    have hsame : ask schema heap node s = Session.visit schema heap levels node s := by
      simp [ask, inTraversal, hd, show s.limits.maxDepth.toNat - s.depth = levels by omega]
    have hkeeps := keeps_visit schema heap levels node s
    rw [runHook, runHook, hsame]
    apply ih
    · rwa [hkeeps.depth]
    · rwa [hkeeps.depth, hkeeps.limits]
  | look next ih =>
    rw [runHook, runHook]
    exact ih _ hd hl

theorem welcome_ask {levels : Nat} (node : α)
    (hl : s.depth + (levels + 1) = s.limits.maxDepth.toNat) :
    welcome schema heap (Session.visit schema heap levels) node s =
      welcome schema heap (ask schema heap) node s := by
  have hproduce : ∀ (id : RecordId) (cell : Cell ν) (t : Session α ρ), t.depth = s.depth →
      t.limits = s.limits → produce schema (Session.visit schema heap levels) id cell t =
        produce schema (ask schema heap) id cell t := by
    intro id cell t hdepth hlimits
    have hentered : (t.enter id).depth + levels = (t.enter id).limits.maxDepth.toNat := by
      simp only [enter, hdepth, hlimits]
      omega
    unfold produce
    rw [runHook_ask schema heap (schema.hook cell.content) (Nat.succ_pos t.depth) hentered]
  unfold welcome
  rcases s.numbering.register node s.limits.maxRecords with e | ⟨id, numbering⟩
  · rfl
  · dsimp only
    rw [hproduce id (heap node) { s with numbering, records := s.records.push none } rfl rfl]

/-- What a request does with a node that has no number yet. -/
def askNew (schema : Schema α ν ρ) (heap : α → Cell ν) : Visit α ρ := fun node s =>
  if s.limits.maxDepth.toNat ≤ s.depth then tooDeep node s
  else welcome schema heap (ask schema heap) node s

theorem visit_eq_askNew {levels : Nat} (node : α)
    (hl : s.depth + levels = s.limits.maxDepth.toNat) :
    Session.visit schema heap levels node s = known (askNew schema heap) node s := by
  unfold Session.visit known askNew
  cases levels with
  | zero => rw [if_pos (by omega)]
  | succ levels =>
    rw [if_neg (by omega)]
    dsimp only
    rw [welcome_ask schema heap node hl]

/-- One rule for all requests: outside every hook only the first is admitted, and a node without a
number is dealt with at the depth that has been reached, its hook asking in the same way. -/
theorem ask_eq (node : α) (hd : s.depth ≤ s.limits.maxDepth.toNat) :
    ask schema heap node s =
      if s.inTraversal then known (askNew schema heap) node s
      else if s.rootTaken then (.error .rootAlreadySerialized, s)
      else known (askNew schema heap) node { s with rootTaken := true } := by
  unfold ask
  split
  · exact visit_eq_askNew schema heap node (by omega)
  · next hidle =>
    have hdepth : s.depth = 0 := by simpa [inTraversal] using hidle
    unfold serialize
    split
    · rfl
    · exact visit_eq_askNew schema heap node (by simp [hdepth])

end Pass
end Flatten.Session
end ObjectGraph
