import Mathlib.Tactic
import ObjectGraph.Numbering

/-! The numbers of a pass in order: a node's number is its position among the numbered nodes
(`Numbering.Sequential`), which each new one keeps up. So a number says which node it was given to,
and the last one how many there are (`Numbering.Ordered`). -/
namespace ObjectGraph

namespace Numbering

variable {α : Type} [DecidableEq α] {n m : Numbering α}

/-- The first number goes to the root, if there may be one at all. -/
theorem register_first (node : α) (limit : UInt32) :
    ({} : Numbering α).register node limit =
      if limit = 0 then .error (.tooManyObjects limit)
      else .ok (.root, { assigned := [(node, .root)], last := some .root }) := by
  have hnext : ({} : Numbering α).next = 0 := rfl
  have hnil : RecordId.nil.raw.toNat ≠ 0 := by decide
  have hzero : limit.toNat ≤ 0 ↔ limit = 0 := Nat.le_zero.trans (UInt32.toNat_inj (b := 0))
  unfold register
  simp only [hnext, hzero, Nat.le_zero, hnil, or_false]
  rfl

theorem size_pos_of_lookup {node : α} {id : RecordId} (h : n.lookup node = some id) : 0 < n.size := by
  refine List.length_pos_of_ne_nil fun hnone => ?_
  rw [lookup, hnone] at h
  cases h

/-- A number that was given out stays with its node. -/
theorem lookup_register {node a : α} {limit : UInt32} {id id' : RecordId}
    (h : n.register node limit = .ok (id, m))
    (ha : n.lookup a = some id') : m.lookup a = some id' := by
  unfold register at h
  split at h
  · cases h
    exact ha
  · next hnew =>
    split at h
    · cases h
    · cases h
      have hne : a ≠ node := by
        rintro rfl
        rw [hnew] at ha
        cases ha
      unfold lookup at ha ⊢
      rw [List.lookup_cons, beq_eq_false_iff_ne.2 hne, ha]

def index? (n : Numbering α) (node : α) : Option Nat := (n.lookup node).bind RecordId.index?

/-- The numbered nodes, first one first. -/
def nodes (n : Numbering α) : List α := (n.assigned.map Prod.fst).reverse

/-- A node's number is its position among the numbered nodes. -/
def Sequential (n : Numbering α) : Prop := ∀ a k, n.index? a = some k ↔ n.nodes[k]? = some a

omit [DecidableEq α] in
theorem length_nodes (n : Numbering α) : n.nodes.length = n.size := by
  simp [nodes, size]

theorem assigned_register {node : α} {limit : UInt32} {id : RecordId}
    (hn : n.lookup node = none) (hr : n.register node limit = .ok (id, m)) :
    m.assigned = (node, id) :: n.assigned := by
  unfold register at hr
  rw [hn] at hr
  dsimp only at hr
  split at hr
  · cases hr
  · cases hr
    rfl

/-- A new node comes last. -/
theorem nodes_register {node : α} {limit : UInt32} {id : RecordId} (hn : n.lookup node = none)
    (hr : n.register node limit = .ok (id, m)) : m.nodes = n.nodes ++ [node] := by
  simp [nodes, assigned_register hn hr]

theorem register_new {node : α} {limit : UInt32} {id : RecordId} (hn : n.lookup node = none)
    (h : n.register node limit = .ok (id, m)) :
    id.index? = some n.next ∧ m.next = n.next + 1 ∧ m.size = n.size + 1 ∧
      n.next < limit.toNat := by
  unfold register at h
  rw [hn] at h
  dsimp only at h
  split at h
  · cases h
  · next hroom =>
    cases h
    rw [not_or, not_le, not_le] at hroom
    have hnil : RecordId.nil.raw.toNat = 2 ^ 32 - 1 := by decide
    have hraw : (UInt32.ofNat n.next).toNat = n.next := by
      rw [UInt32.toNat_ofNat']
      omega
    refine ⟨RecordId.index?_ofIndex? (by rw [RecordId.ofIndex?, if_pos hroom.2]), ?_, rfl, hroom.1⟩
    exact congrArg (· + 1) hraw

theorem index?_register {node : α} {limit : UInt32} {id : RecordId} (hn : n.lookup node = none)
    (hr : n.register node limit = .ok (id, m)) (a : α) :
    m.index? a = if a = node then some n.next else n.index? a := by
  split
  · next ha =>
    subst ha
    rw [Numbering.index?, lookup_of_register hr, Option.bind_some, (register_new hn hr).1]
  · next ha =>
    unfold Numbering.index? lookup
    rw [assigned_register hn hr, List.lookup_cons, beq_eq_false_iff_ne.2 ha]

theorem Sequential.register (h : n.Sequential) (hnext : n.next = n.size) {node : α}
    {limit : UInt32} {id : RecordId} (hn : n.lookup node = none)
    (hr : n.register node limit = .ok (id, m)) : m.Sequential := by
  intro a k
  rw [index?_register hn hr, nodes_register hn hr, List.getElem?_append, length_nodes, hnext]
  by_cases ha : a = node
  · subst ha
    have hnew : n.nodes[k]? ≠ some a := by
      rw [ne_eq, ← h a k, Numbering.index?, hn]
      nofun
    rw [if_pos rfl]
    split
    · next hk => exact iff_of_false (by simp [hk.ne']) hnew
    · next hk =>
      have hlast : n.size = k ↔ k - n.size = 0 := by omega
      simp [List.getElem?_singleton, hlast]
  · rw [if_neg ha, h a k]
    split
    · rfl
    · next hk =>
      rw [List.getElem?_eq_none (by rw [length_nodes]; omega), List.getElem?_singleton]
      simp [Ne.symm ha]

/-- A numbering that is in order and has never given out the absent reference. -/
structure Ordered (n : Numbering α) : Prop where
  sequential : n.Sequential
  next : n.next = n.size
  given : ∀ {a id}, n.lookup a = some id → id ≠ .nil
  last : ∀ {id}, n.last = some id → id ≠ .nil

theorem ordered_empty : ({} : Numbering α).Ordered where
  sequential _ _ := ⟨nofun, nofun⟩
  next := rfl
  given := nofun
  last := nofun

theorem Ordered.register (h : n.Ordered) {node : α} {limit : UInt32} {id : RecordId}
    (hn : n.lookup node = none) (hr : n.register node limit = .ok (id, m)) : m.Ordered := by
  obtain ⟨hid, hnext, hsize, -⟩ := register_new hn hr
  have hassigned := assigned_register hn hr
  have hlast : m.last = some id := by
    unfold Numbering.register at hr
    rw [hn] at hr
    dsimp only at hr
    split at hr
    · cases hr
    · cases hr
      rfl
  refine ⟨h.sequential.register h.next hn hr, by rw [hnext, hsize, h.next], ?_, ?_⟩
  · intro a id' ha
    unfold Numbering.lookup at ha
    rw [hassigned, List.lookup_cons] at ha
    split at ha
    · cases ha
      exact (RecordId.index?_eq_some.1 hid).1
    · exact h.given ha
  · intro id' hid'
    rw [hlast] at hid'
    cases hid'
    exact (RecordId.index?_eq_some.1 hid).1

/-- A node has the number of its position, if it has one. -/
theorem Ordered.lookup_iff (h : n.Ordered) {a : α} {id : RecordId} :
    n.lookup a = some id ↔ ∃ k, id.index? = some k ∧ n.nodes[k]? = some a := by
  constructor
  · intro ha
    have hindex : id.index? = some id.raw.toNat := RecordId.index?_eq_some.2 ⟨h.given ha, rfl⟩
    refine ⟨id.raw.toNat, hindex, (h.sequential a _).1 ?_⟩
    rw [index?, ha]
    exact hindex
  · rintro ⟨k, hid, hk⟩
    obtain ⟨id', ha, hid'⟩ := Option.bind_eq_some_iff.1 ((h.sequential a k).2 hk)
    rw [ha, RecordId.eq_of_index? hid' hid]

theorem Ordered.lookup_eq_none (h : n.Ordered) {a : α} (ha : a ∉ n.nodes) : n.lookup a = none := by
  refine Option.eq_none_iff_forall_ne_some.2 fun id hid => ha ?_
  obtain ⟨k, -, hk⟩ := h.lookup_iff.1 hid
  exact List.mem_of_getElem? hk

/-- The number given out last is that of the last position. -/
theorem Ordered.last_iff (h : n.Ordered) {id : RecordId} :
    n.last = some id ↔ ∃ k, id.index? = some k ∧ k + 1 = n.size := by
  have hnext := h.next
  rcases hlast : n.last with _ | newest
  · rw [Numbering.next, hlast] at hnext
    refine iff_of_false nofun ?_
    rintro ⟨k, -, hk⟩
    exact absurd (hk.trans hnext.symm) (Nat.succ_ne_zero k)
  · rw [Numbering.next, hlast] at hnext
    change newest.raw.toNat + 1 = n.size at hnext
    have hnewest : newest.index? = some newest.raw.toNat :=
      RecordId.index?_eq_some.2 ⟨h.last hlast, rfl⟩
    constructor
    · rintro ⟨⟩
      exact ⟨_, hnewest, hnext⟩
    · rintro ⟨k, hid, hk⟩
      obtain rfl : newest.raw.toNat = k := by omega
      rw [RecordId.eq_of_index? hnewest hid]

/-- Numbers run out before they come to the absent reference. -/
theorem Ordered.size_le (h : n.Ordered) : n.size ≤ RecordId.nil.raw.toNat := by
  have hnext := h.next
  rcases hlast : n.last with _ | newest
  · rw [Numbering.next, hlast] at hnext
    exact hnext ▸ Nat.zero_le _
  · rw [Numbering.next, hlast] at hnext
    exact hnext ▸ RecordId.index?_lt (RecordId.index?_eq_some.2 ⟨h.last hlast, rfl⟩)

/-- A new node gets the next number, unless there are none left. -/
theorem Ordered.register_eq (h : n.Ordered) {node : α} (hn : n.lookup node = none) (limit : UInt32) :
    if limit.toNat ≤ n.size ∨ n.size = RecordId.nil.raw.toNat then
      n.register node limit = .error (.tooManyObjects limit)
    else ∃ id m, id.index? = some n.size ∧ n.register node limit = .ok (id, m) := by
  have hle := h.size_le
  have hfull : (limit.toNat ≤ n.next ∨ RecordId.nil.raw.toNat ≤ n.next) ↔
      limit.toNat ≤ n.size ∨ n.size = RecordId.nil.raw.toNat := by
    rw [h.next]
    omega
  split
  · next hout => simp only [Numbering.register, hn, if_pos (hfull.2 hout)]
  · next hroom =>
    have hr : ∃ id m, n.register node limit = .ok (id, m) := by
      simp only [Numbering.register, hn, if_neg (mt hfull.1 hroom)]
      exact ⟨_, _, rfl⟩
    obtain ⟨id, m, hr⟩ := hr
    exact ⟨id, m, h.next ▸ (register_new hn hr).1, hr⟩

end Numbering

end ObjectGraph
