import ObjectGraph.Flatten.Session
import Mathlib.Data.Set.Function

/-! A pass does not see which nodes it numbers. If the nodes of a heap are renamed and none are
merged, it gives the same answers, numbers and records (`serialize_rename`,
`intoContainer_rename`). -/
namespace ObjectGraph

namespace Numbering

variable {α β : Type} {f : α → β} {world : Set α} {n m : Numbering α} {a : α}

def rename (f : α → β) (n : Numbering α) : Numbering β := ⟨n.assigned.map (Prod.map f id), n.last⟩

@[simp] theorem size_rename (f : α → β) (n : Numbering α) : (n.rename f).size = n.size := by
  simp [size, rename]

@[simp] theorem next_rename (f : α → β) (n : Numbering α) : (n.rename f).next = n.next := rfl

def Within (world : Set α) (n : Numbering α) : Prop := ∀ p ∈ n.assigned, p.1 ∈ world

variable [DecidableEq α] [DecidableEq β]

theorem lookup_rename (hf : Set.InjOn f world) (hn : n.Within world) (ha : a ∈ world) :
    (n.rename f).lookup (f a) = n.lookup a := by
  obtain ⟨assigned, last⟩ := n
  simp only [lookup, rename]
  induction assigned with
  | nil => rfl
  | cons p assigned ih =>
    have hrest := ih fun q hq => hn q (List.mem_cons_of_mem p hq)
    have hp : p.1 ∈ world := hn p List.mem_cons_self
    obtain ⟨b, number⟩ := p
    have hsame : (f a == f b) = (a == b) := by
      rw [Bool.eq_iff_iff, beq_iff_eq, beq_iff_eq]
      exact hf.eq_iff ha hp
    simp only [List.map_cons, List.lookup_cons, Prod.map, hsame, hrest, id_eq]

theorem register_rename (hf : Set.InjOn f world) (hn : n.Within world) (ha : a ∈ world)
    (limit : UInt32) :
    (n.rename f).register (f a) limit =
      (n.register a limit).map (Prod.map id (rename f)) := by
  simp only [register, lookup_rename hf hn ha, next_rename]
  cases n.lookup a with
  | some number => rfl
  | none =>
    by_cases hfull : limit.toNat ≤ n.next ∨ RecordId.nil.raw.toNat ≤ n.next
    · exact (if_pos hfull).trans (by rw [if_pos hfull]; rfl)
    · exact (if_neg hfull).trans (by rw [if_neg hfull]; rfl)

omit [DecidableEq β] in
theorem Within.register {limit : UInt32} {id : RecordId} (hn : n.Within world) (ha : a ∈ world)
    (h : n.register a limit = .ok (id, m)) : m.Within world := by
  unfold Numbering.register at h
  split at h
  · cases h
    exact hn
  · split at h
    · cases h
    · cases h
      intro p hp
      rcases List.mem_cons.1 hp with rfl | hp
      · exact ha
      · exact hn p hp

end Numbering

namespace Flatten

variable {α β ν ν' κ ρ : Type} {f : α → β} {world : Set α}

namespace Hook

def map (f : α → β) : Hook α ρ → Hook β ρ
  | .done record => .done record
  | .fail e => .fail e
  | .serialize node next => .serialize (f node) fun answer => (next answer).map f
  | .look next => .look fun objects => (next objects).map f

/-- A program that asks for nodes of a set alone, whatever it is answered. -/
def Within (world : Set α) : Hook α ρ → Prop
  | .done _ | .fail _ => True
  | .serialize node next => node ∈ world ∧ ∀ answer, (next answer).Within world
  | .look next => ∀ objects, (next objects).Within world

variable (f) in
theorem map_orFail {γ : Type} (next : γ → Hook α ρ) (answer : Except Graph.Error γ) :
    (orFail next answer).map f = orFail (fun x => (next x).map f) answer := by
  cases answer <;> rfl

variable (f) in
theorem map_serializeOption (node : Option α) (next : Except Graph.Error RecordId → Hook α ρ) :
    (serializeOption node next).map f =
      serializeOption (node.map f) fun answer => (next answer).map f := by
  cases node <;> rfl

variable (f) in
theorem map_serializeAll (nodes : List α) (ids : List RecordId)
    (next : Except Graph.Error (List RecordId) → Hook α ρ) :
    (serializeAll nodes ids next).map f =
      serializeAll (nodes.map f) ids fun answer => (next answer).map f := by
  induction nodes generalizing ids with
  | nil => rfl
  | cons node nodes ih =>
    simp only [serializeAll, Hook.map, List.map_cons, serialize.injEq, true_and]
    funext answer
    cases answer with
    | error e => rfl
    | ok id => exact ih (id :: ids)

theorem within_orFail {γ : Type} {next : γ → Hook α ρ} (h : ∀ x, (next x).Within world)
    (answer : Except Graph.Error γ) : (orFail next answer).Within world := by
  cases answer with
  | error e => trivial
  | ok x => exact h x

theorem within_serializeOption {node : Option α} {next : Except Graph.Error RecordId → Hook α ρ}
    (hn : ∀ a ∈ node, a ∈ world) (h : ∀ answer, (next answer).Within world) :
    (serializeOption node next).Within world := by
  cases node with
  | none => exact h _
  | some a => exact ⟨hn a rfl, h⟩

theorem within_serializeAll {nodes : List α} {ids : List RecordId}
    {next : Except Graph.Error (List RecordId) → Hook α ρ}
    (hn : ∀ a ∈ nodes, a ∈ world) (h : ∀ answer, (next answer).Within world) :
    (serializeAll nodes ids next).Within world := by
  induction nodes generalizing ids with
  | nil => exact h _
  | cons node nodes ih =>
    refine ⟨hn node List.mem_cons_self, fun answer => ?_⟩
    cases answer with
    | error e => exact h _
    | ok id => exact ih fun a ha => hn a (List.mem_cons_of_mem _ ha)

end Hook

namespace Session

def rename (f : α → β) (s : Session α ρ) : Session β ρ where
  limits := s.limits
  numbering := s.numbering.rename f
  records := s.records
  depth := s.depth
  rootTaken := s.rootTaken
  trace := s.trace

@[simp] theorem objectCount_rename (f : α → β) (s : Session α ρ) :
    (s.rename f).objectCount = s.objectCount :=
  s.numbering.size_rename f

theorem encodeRecords_rename (codec : Codec κ ρ) (f : α → β) (s : Session α ρ) (n index : Nat)
    (done : List (String × Bytes)) :
    encodeRecords codec (s.rename f) n index done = encodeRecords codec s n index done := by
  induction n generalizing index done with
  | zero => rfl
  | succ n ih =>
    simp only [encodeRecords, ih]
    rfl

/-- The container does not tell the nodes of the session. -/
theorem intoContainer_rename (codec : Codec κ ρ) (names : Bool) (f : α → β) (s : Session α ρ) :
    (s.rename f).intoContainer codec names = s.intoContainer codec names := by
  simp only [intoContainer, finish, objectCount_rename, encodeRecords_rename]

/-- Two visits agree where the second is given renamed nodes of a set. -/
structure Agrees (f : α → β) (world : Set α) (visit : Visit α ρ) (visit' : Visit β ρ) : Prop where
  same : ∀ {a s}, a ∈ world → s.numbering.Within world →
    visit' (f a) (s.rename f) = Prod.map id (rename f) (visit a s)
  within : ∀ {a s}, a ∈ world → s.numbering.Within world →
    (visit a s).2.numbering.Within world

variable {visit : Visit α ρ} {visit' : Visit β ρ} {s : Session α ρ}

theorem runHook_rename (hv : Agrees f world visit visit') {hook : Hook α ρ}
    (hh : hook.Within world) (hs : s.numbering.Within world) :
    runHook visit' (hook.map f) (s.rename f) = Prod.map id (rename f) (runHook visit hook s) ∧
      (runHook visit hook s).2.numbering.Within world := by
  -- A hook sees answers and counts only, and these are the same on both sides.
  induction hook generalizing s with
  | done | fail => exact ⟨rfl, hs⟩
  | serialize node next ih =>
    have hsame := hv.same hh.1 hs
    have hwithin := hv.within hh.1 hs
    simp only [Hook.map, runHook, hsame]
    exact ih _ (hh.2 _) hwithin
  | look next ih =>
    simp only [Hook.map, runHook, objectCount_rename]
    exact ih _ (hh _) hs

/-- A heap whose nodes of a set are renamed: no two are merged, those that a node asks for are of
the set as well, and each is the same but for the names of what it asks for. -/
structure Renames (schema : Schema α ν ρ) (heap : α → Cell ν) (schema' : Schema β ν' ρ)
    (heap' : β → Cell ν') (f : α → β) (world : Set α) : Prop where
  injOn : Set.InjOn f world
  within : ∀ a ∈ world, (schema.hook (heap a).content).Within world
  hook : ∀ a ∈ world, schema'.hook (heap' (f a)).content = (schema.hook (heap a).content).map f
  typeName : ∀ a ∈ world,
    schema'.typeName (heap' (f a)).content = schema.typeName (heap a).content
  borrow : ∀ a ∈ world, (heap' (f a)).borrow.isExclusive = (heap a).borrow.isExclusive

section Visits

variable {schema : Schema α ν ρ} {heap : α → Cell ν} {schema' : Schema β ν' ρ}
  {heap' : β → Cell ν'} (hr : Renames schema heap schema' heap' f world)
include hr

theorem produce_rename (hv : Agrees f world visit visit') {a : α} (ha : a ∈ world)
    (hs : s.numbering.Within world) (number : RecordId) :
    produce schema' visit' number (heap' (f a)) (s.rename f) =
        Prod.map id (rename f) (produce schema visit number (heap a) s) ∧
      (produce schema visit number (heap a) s).2.numbering.Within world := by
  unfold produce
  rw [hr.borrow a ha, hr.hook a ha]
  split
  · exact ⟨rfl, hs⟩
  · obtain ⟨hsame, hwithin⟩ := runHook_rename (s := s.enter number) hv (hr.within a ha) hs
    have hentered : (s.rename f).enter number = (s.enter number).rename f := rfl
    rw [hentered, hsame]
    exact ⟨rfl, hwithin⟩

variable [DecidableEq α] [DecidableEq β]

theorem agrees_welcome (hv : Agrees f world visit visit') :
    Agrees f world (welcome schema heap visit) (welcome schema' heap' visit') := by
  suffices hboth : ∀ {a s}, a ∈ world → s.numbering.Within world →
      welcome schema' heap' visit' (f a) (s.rename f) =
          Prod.map id (rename f) (welcome schema heap visit a s) ∧
        (welcome schema heap visit a s).2.numbering.Within world from
    ⟨fun ha hs => (hboth ha hs).1, fun ha hs => (hboth ha hs).2⟩
  intro a s ha hs
  have hregister := Numbering.register_rename hr.injOn hs ha s.limits.maxRecords
  unfold welcome
  rw [show (s.rename f).numbering = s.numbering.rename f from rfl,
    show (s.rename f).limits = s.limits from rfl, hregister]
  rcases hnew : s.numbering.register a s.limits.maxRecords with e | ⟨number, numbering⟩
  · exact ⟨rfl, hs⟩
  · have hwithin := hs.register ha hnew
    simp only [Except.map, Prod.map_apply, id_eq]
    cases number.index? with
    | none => exact ⟨rfl, hwithin⟩
    | some index =>
      obtain ⟨hsame, hproduced⟩ := produce_rename hr hv ha
        (s := { s with numbering, records := s.records.push none }) hwithin number
      simp only [rename] at hsame ⊢
      rw [hsame, hr.typeName a ha]
      rcases hp : produce schema visit number (heap a)
        { s with numbering, records := s.records.push none } with ⟨e | record, t⟩ <;>
        rw [hp] at hproduced <;> exact ⟨rfl, hproduced⟩

omit hr [DecidableEq α] [DecidableEq β] in
theorem agrees_tooDeep : Agrees f world (tooDeep : Visit α ρ) (tooDeep : Visit β ρ) where
  same _ _ := rfl
  within _ hs := hs

theorem agrees_known {fresh : Visit α ρ} {fresh' : Visit β ρ} (hv : Agrees f world fresh fresh') :
    Agrees f world (known fresh) (known fresh') where
  same {a s} ha hs := by
    unfold known
    rw [show (s.rename f).numbering = s.numbering.rename f from rfl,
      Numbering.lookup_rename hr.injOn hs ha]
    cases s.numbering.lookup a with
    | some number => rfl
    | none => exact hv.same ha hs
  within {a s} ha hs := by
    unfold known
    cases s.numbering.lookup a with
    | some number => exact hs
    | none => exact hv.within ha hs

theorem agrees_visit (levels : Nat) :
    Agrees f world (Session.visit schema heap levels) (Session.visit schema' heap' levels) := by
  induction levels with
  | zero => exact agrees_known hr agrees_tooDeep
  | succ levels ih => exact agrees_known hr (agrees_welcome hr ih)

/-- The pass over the renamed nodes is the renamed pass. -/
theorem serialize_rename {root : α} (ha : root ∈ world) (hs : s.numbering.Within world) :
    serialize schema' heap' (f root) (s.rename f) =
      Prod.map id (rename f) (serialize schema heap root s) := by
  unfold serialize
  rw [show (s.rename f).rootTaken = s.rootTaken from rfl]
  split
  · rfl
  · exact (agrees_visit hr s.limits.maxDepth.toNat).same (s := { s with rootTaken := true }) ha hs

end Visits
end Session
end Flatten
end ObjectGraph
