import Mathlib.Tactic
import ObjectGraph.NodeTable

/-! Numbers of records below a bound, and look-ups in a table of nodes after a node has been put
into it. -/
namespace ObjectGraph

namespace RecordId

/-- Distinct numbers of records are no more than the records. -/
theorem length_le_of_index? {ids : List RecordId} {count : Nat} (hnodup : ids.Nodup)
    (hlt : ∀ id ∈ ids, ∃ index, id.index? = some index ∧ index < count) : ids.length ≤ count := by
  have hmap : (ids.map fun id => id.raw.toNat).Nodup := by
    refine hnodup.map fun id id' h => ?_
    cases id
    cases id'
    exact congrArg _ (UInt32.toNat_inj.1 h)
  have hsub : (ids.map fun id => id.raw.toNat) ⊆ List.range count := by
    intro n hn
    obtain ⟨id, hid, rfl⟩ := List.mem_map.1 hn
    obtain ⟨index, hi, hindex⟩ := hlt id hid
    rw [(RecordId.index?_eq_some.1 hi).2]
    exact List.mem_range.2 hindex
  have hle := (List.subperm_of_subset hmap hsub).length_le
  simpa using hle

end RecordId

namespace NodeTable

variable {κ α : Type} {t : NodeTable κ α} {id : RecordId} {index : Nat}

theorem entry?_eq (hi : id.index? = some index) : t.entry? id = (t.slots[index]?).join := by
  simp [NodeTable.entry?, hi]

theorem empty_slot (hi : id.index? = some index) (he : t.entry? id = none)
    (hc : index < t.capacity) : t.slots[index]? = some none := by
  rw [NodeTable.entry?_eq hi, Option.join_eq_none_iff] at he
  unfold capacity at hc
  rcases he with he | he
  · rw [Array.getElem?_eq_none_iff] at he
    omega
  · exact he

theorem insert_taken (hi : id.index? = some index) (he : t.entry? id = none)
    (hc : index < t.capacity) (kind : κ) (node : α) : (t.insert id kind node).1 = true :=
  (t.insert_fst id kind node).2 ⟨index, hi, empty_slot hi he hc⟩

/-- Where there is no slot, or no longer an empty one, nothing is changed. -/
theorem insert_refused (h : ∀ index, id.index? = some index → index < t.capacity →
    t.entry? id ≠ none) (kind : κ) (node : α) : t.insert id kind node = (false, t) := by
  unfold insert
  split
  · rfl
  next index hi =>
  split
  next hslot =>
    have hlt : index < t.capacity := (Array.getElem?_eq_some_iff.1 hslot).1
    refine absurd ?_ (h index hi hlt)
    rw [NodeTable.entry?_eq hi, hslot]
    rfl
  · rfl

/-- A new entry, and the others as they were. -/
theorem entry?_insert (hi : id.index? = some index) (he : t.entry? id = none)
    (hc : index < t.capacity) (kind : κ) (node : α) (id' : RecordId) :
    NodeTable.entry? (t.insert id kind node).2 id' =
      if id' = id then some (kind, node) else t.entry? id' := by
  have hslot := empty_slot hi he hc
  simp only [insert, hi, hslot]
  cases hi' : id'.index? with
  | none =>
    have hne : id' ≠ id := fun h => by rw [h, hi] at hi'; cases hi'
    simp [NodeTable.entry?, hi', hne]
  | some index' =>
    rw [NodeTable.entry?_eq hi', NodeTable.entry?_eq hi']
    by_cases hk : index = index'
    · subst hk
      have hsame : id' = id := RecordId.eq_of_index? hi' hi
      have hlt : index < t.slots.size := hc
      simp [hsame, hlt]
    · have hne : id' ≠ id := by
        rintro rfl
        rw [hi] at hi'
        exact hk (Option.some.inj hi')
      simp [hne, hk]

/-- No entry is replaced. -/
theorem entry?_insert_of_some {entry : κ × α} (h : t.entry? id = some entry) (id' : RecordId)
    (kind : κ) (node : α) : NodeTable.entry? (t.insert id' kind node).2 id = some entry := by
  unfold insert
  split
  · exact h
  next index' hi' =>
  split
  next hslot =>
    obtain ⟨index, hi, hentry⟩ := Option.bind_eq_some_iff.1 h
    have hne : index' ≠ index := by
      rintro rfl
      rw [hslot] at hentry
      cases hentry
    rw [NodeTable.entry?_eq hi]
    simpa [hne] using hentry
  · exact h

theorem filled_insert (hi : id.index? = some index) (he : t.entry? id = none)
    (hc : index < t.capacity) (kind : κ) (node : α) :
    (t.insert id kind node).2.filled = t.filled + 1 := by
  have hslot := empty_slot hi he hc
  simp [insert, hi, hslot]

/-- Only records of the table have entries. -/
theorem index?_lt_of_entry? {entry : κ × α} (h : t.entry? id = some entry) :
    ∃ index, id.index? = some index ∧ index < t.capacity := by
  unfold NodeTable.entry? at h
  obtain ⟨index, hi, hslot⟩ := Option.bind_eq_some_iff.1 h
  refine ⟨index, hi, ?_⟩
  by_contra hlong
  rw [Array.getElem?_eq_none (Nat.not_lt.1 hlong)] at hslot
  cases hslot

@[simp] theorem entry?_withCapacity (records : Nat) (id : RecordId) :
    NodeTable.entry? (withCapacity records : NodeTable κ α) id = none := by
  rcases hi : id.index? with _ | index
  · simp [NodeTable.entry?, hi]
  · rw [NodeTable.entry?_eq hi, withCapacity, Array.getElem?_replicate]
    split <;> rfl

end NodeTable
end ObjectGraph
