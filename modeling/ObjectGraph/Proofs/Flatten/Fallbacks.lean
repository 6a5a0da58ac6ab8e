import ObjectGraph.Proofs.Flatten.Roots

/-! What a pass provides for and never meets: a new number that stands for no position
(`visitOr_eq`), and a position that has no number (`exists_ofIndex?_of_lt`). The numbering is in
order at every point of a session, so its numbers run out before the absent one. -/
namespace ObjectGraph.Flatten.Session

variable {α ν ρ : Type} [DecidableEq α] (schema : Schema α ν ρ) (heap : α → Cell ν)
  {s : Session α ρ}

def welcomeOr (stray : Visit α ρ) (schema : Schema α ν ρ) (heap : α → Cell ν)
    (visit : Visit α ρ) : Visit α ρ := fun node s =>
  match s.numbering.register node s.limits.maxRecords with
  | .error e => (.error e, s)
  | .ok (id, numbering) =>
      if id.index?.isNone then stray node { s with numbering, records := s.records.push none }
      else welcome schema heap visit node s

/-- Visits a node, with `stray` wherever a new number stands for no position. -/
def visitOr (stray : Visit α ρ) (schema : Schema α ν ρ) (heap : α → Cell ν) :
    (levels : Nat) → Visit α ρ
  | 0, node, s => known tooDeep node s
  | levels+1, node, s =>
      known (welcomeOr stray schema heap (visitOr stray schema heap levels)) node s

variable (stray : Visit α ρ)

theorem welcomeOr_of_new (visit : Visit α ρ) {node : α} (hn : s.numbering.lookup node = none) :
    welcomeOr stray schema heap visit node s = welcome schema heap visit node s := by
  unfold welcomeOr
  rcases hr : s.numbering.register node s.limits.maxRecords with e | ⟨id, numbering⟩
  · rw [welcome, hr]
  · obtain ⟨hid, -⟩ := Numbering.register_new hn hr
    simp [hid]

/-- A new number stands for a position, in any session and at any depth. -/
theorem visitOr_eq (levels : Nat) :
    visitOr stray schema heap levels = visit schema heap levels := by
  induction levels with
  | zero => rfl
  | succ levels ih =>
    funext node s
    unfold visitOr visit known
    rw [ih]
    split
    · rfl
    · next hn => exact welcomeOr_of_new schema heap stray _ hn

/-- A part of a pass that keeps the numbering in order. -/
def Orders (s t : Session α ρ) : Prop := s.numbering.Ordered → t.numbering.Ordered

theorem partwise_orders : Partwise (Orders : Session α ρ → Session α ρ → Prop) where
  refl _ := id
  trans h h' := h' ∘ h
  hook h := h

theorem orders_visit (levels : Nat) : Moves Orders (visit schema heap levels) := by
  refine partwise_orders.visit schema heap (fun hv a s hn h => ?_) levels
  unfold welcome
  rcases hr : s.numbering.register a s.limits.maxRecords with e | ⟨id, numbering⟩
  · exact h
  · have hproduced := partwise_orders.produce schema hv id (heap a)
      { s with numbering, records := s.records.push none } (h.register hn hr)
    dsimp only
    split
    · exact h.register hn hr
    · split <;> rename_i hp <;> rw [hp] at hproduced <;> exact hproduced

theorem ordered_after (limits : Limits) (turns : List (Turn α ν)) :
    (after schema ({ limits } : Session α ρ) turns).numbering.Ordered := by
  rw [after_eq_pass]
  rcases firstRoot? turns with _ | ⟨heap, root⟩
  · exact Numbering.ordered_empty
  · exact orders_visit schema heap limits.maxDepth.toNat root { limits, rootTaken := true }
      Numbering.ordered_empty

/-- Every position that is encoded has a number. -/
theorem exists_ofIndex?_of_lt (hs : s.numbering.Ordered) {index : Nat}
    (h : index < s.objectCount) : ∃ id, RecordId.ofIndex? index = some id ∧ id ≠ .nil := by
  have hlt : index < RecordId.nil.raw.toNat := h.trans_le hs.size_le
  have hid : RecordId.ofIndex? index = some ⟨UInt32.ofNat index⟩ := if_pos hlt
  exact ⟨_, hid, (RecordId.index?_eq_some.1 (RecordId.index?_ofIndex? hid)).1⟩

end ObjectGraph.Flatten.Session
