import Mathlib.Tactic

/-! Steps that may fail, one after another, and steps that read the front of an input. -/
namespace ObjectGraph

variable {ε ε' α β : Type}

theorem bind_eq_ok {x : Except ε α} {f : α → Except ε β} {b : β} :
    (x >>= f) = .ok b ↔ ∃ a, x = .ok a ∧ f a = .ok b := by
  cases x with
  | error e => exact ⟨nofun, nofun⟩
  | ok a =>
    constructor
    · exact fun h => ⟨a, rfl, h⟩
    · rintro ⟨_, ⟨⟩, h⟩
      exact h

theorem map_eq_ok {f : α → β} {x : Except ε α} {b : β} :
    x.map f = .ok b ↔ ∃ a, x = .ok a ∧ f a = b := by
  cases x <;> simp [Except.map]

theorem mapError_eq_ok {f : ε → ε'} {x : Except ε α} {a : α} :
    x.mapError f = .ok a ↔ x = .ok a := by
  cases x <;> simp [Except.mapError]

/-- The second outcome is the first one with more items behind the input, unless the first reader
ran out of them, which is the error `cut`. -/
inductive Persists {σ : Type} (cut : ε) (more : List σ) :
    Except ε (α × List σ) → Except ε (α × List σ) → Prop
  | cut (y : Except ε (α × List σ)) : Persists cut more (.error cut) y
  | error (e : ε) : Persists cut more (.error e) (.error e)
  | ok (a : α) (rest : List σ) : Persists cut more (.ok (a, rest)) (.ok (a, rest ++ more))

namespace Persists

variable {σ : Type} {cut : ε} {more : List σ}

theorem bind {x y : Except ε (α × List σ)} {f g : α × List σ → Except ε (β × List σ)}
    (h : Persists cut more x y)
    (hf : ∀ a rest, Persists cut more (f (a, rest)) (g (a, rest ++ more))) :
    Persists cut more (x >>= f) (y >>= g) := by
  cases h with
  | cut => exact .cut _
  | error e => exact .error e
  | ok a rest => exact hf a rest

theorem eq_ok {y : Except ε (α × List σ)} {a : α} {rest : List σ}
    (h : Persists cut more (.ok (a, rest)) y) : y = .ok (a, rest ++ more) := by
  cases h
  rfl

/-- A reader that needs the whole input runs out of it without the last items. -/
theorem eq_cut {x : Except ε (α × List σ)} {a : α} (h : Persists cut more x (.ok (a, [])))
    (hm : more ≠ []) : x = .error cut := by
  generalize hy : Except.ok (a, []) = y at h
  cases h with
  | cut => rfl
  | error e => cases hy
  | ok b rest =>
    rw [Except.ok.injEq, Prod.mk.injEq] at hy
    exact absurd (List.append_eq_nil_iff.1 hy.2.symm).2 hm

end Persists
end ObjectGraph
