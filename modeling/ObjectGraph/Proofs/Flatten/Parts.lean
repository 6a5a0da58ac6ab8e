import ObjectGraph.Flatten.Session

/-! One induction for all that a pass preserves. A relation between the sessions before and after a
part of a pass, which does not mind the hook around that part, is to be checked for new nodes alone
(`Partwise.visit`). -/
namespace ObjectGraph.Flatten.Session

variable {α ν ρ : Type} {R : Session α ρ → Session α ρ → Prop}

/-- A relation between the sessions before and after a part of a pass. -/
structure Partwise (R : Session α ρ → Session α ρ → Prop) : Prop where
  refl : ∀ s, R s s
  trans : ∀ {s t u}, R s t → R t u → R s u
  hook : ∀ {id s t}, R (s.enter id) t → R s (t.leave id)

/-- A visit that leads from a session to a related one, also if it is refused. -/
def Moves (R : Session α ρ → Session α ρ → Prop) (visit : Visit α ρ) : Prop :=
  ∀ a s, R s (visit a s).2

namespace Partwise

theorem runHook (hR : Partwise R) {visit : Visit α ρ} (hv : Moves R visit) (hook : Hook α ρ)
    (s : Session α ρ) : R s (Session.runHook visit hook s).2 := by
  induction hook generalizing s with
  | done | fail => exact hR.refl s
  | serialize node next ih => exact hR.trans (hv node s) (ih (visit node s).1 (visit node s).2)
  | look next ih => exact ih s.objectCount s

variable (schema : Schema α ν ρ)

theorem produce (hR : Partwise R) {visit : Visit α ρ} (hv : Moves R visit) (id : RecordId)
    (cell : Cell ν) (s : Session α ρ) : R s (Session.produce schema visit id cell s).2 := by
  unfold Session.produce
  split
  · exact hR.refl s
  · exact hR.hook (hR.runHook hv (schema.hook cell.content) (s.enter id))

/-- A node with a number, or beyond the allowed depth, leaves the session as it is. -/
theorem visit [DecidableEq α] (hR : Partwise R) (heap : α → Cell ν)
    (hnew : ∀ {visit : Visit α ρ}, Moves R visit → ∀ a s, s.numbering.lookup a = none →
      R s (welcome schema heap visit a s).2) (levels : Nat) :
    Moves R (Session.visit schema heap levels) := by
  induction levels with
  | zero =>
    intro a s
    unfold Session.visit known
    split <;> exact hR.refl s
  | succ levels ih =>
    intro a s
    unfold Session.visit known
    split
    · exact hR.refl s
    · next hn => exact hnew ih a s hn

end Partwise

section Kept

variable {P : Session α ρ → Prop} {visit visit' : Visit α ρ} {s : Session α ρ}

/-- What every visit keeps a hook keeps. -/
theorem kept_runHook (hv : ∀ a s, P s → P (visit a s).2) (hook : Hook α ρ) (hs : P s) :
    P (runHook visit hook s).2 := by
  induction hook generalizing s with
  | done | fail => exact hs
  | serialize node next ih => exact ih _ (hv node s hs)
  | look next ih => exact ih s.objectCount hs

/-- A hook does the same under two visits that agree on the sessions it meets. -/
theorem runHook_congr (hv : ∀ a s, P s → P (visit a s).2)
    (ha : ∀ a s, P s → visit a s = visit' a s) (hook : Hook α ρ) (hs : P s) :
    runHook visit hook s = runHook visit' hook s := by
  induction hook generalizing s with
  | done | fail => rfl
  | serialize node next ih =>
    rw [runHook, runHook, ← ha node s hs]
    exact ih _ (hv node s hs)
  | look next ih => exact ih s.objectCount hs

end Kept

end ObjectGraph.Flatten.Session
