import ObjectGraph.Proofs.Flatten.Opening
import ObjectGraph.Proofs.Flatten.Roots

/-! Where the records of a pass come from. Each one is what the hook of its node makes of the
answers it is given, and a node that it is given a number for has this number
(`sourced_serialize`). -/
namespace ObjectGraph.Flatten

variable {α ν ρ : Type}

/-- The hook can end with this record if the nodes that it asks for are refused or have numbers. -/
inductive Hook.Yields (Number : α → RecordId → Prop) : Hook α ρ → ρ → Prop
  | done (record : ρ) : Yields Number (.done record) record
  | numbered {node : α} {id : RecordId} {next : Except Graph.Error RecordId → Hook α ρ}
      {record : ρ} : Number node id → Yields Number (next (.ok id)) record →
      Yields Number (.serialize node next) record
  | refused {node : α} (e : Graph.Error) {next : Except Graph.Error RecordId → Hook α ρ}
      {record : ρ} : Yields Number (next (.error e)) record →
      Yields Number (.serialize node next) record
  | look (objects : Nat) {next : Nat → Hook α ρ} {record : ρ} :
      Yields Number (next objects) record → Yields Number (.look next) record

theorem Hook.Yields.mono {Number Number' : α → RecordId → Prop} {hook : Hook α ρ} {record : ρ}
    (h : hook.Yields Number record) (hn : ∀ {a id}, Number a id → Number' a id) :
    hook.Yields Number' record := by
  induction h with
  | done => exact .done _
  | numbered ha _ ih => exact .numbered (hn ha) ih
  | refused e _ ih => exact .refused e ih
  | look objects _ ih => exact .look objects ih

namespace Session

variable [DecidableEq α] {schema : Schema α ν ρ} {heap : α → Cell ν} {s t : Session α ρ}

def Numbered (s : Session α ρ) (a : α) (id : RecordId) : Prop := s.numbering.lookup a = some id

/-- A visit that answers with the number that the node has from then on. -/
def Numbers (visit : Visit α ρ) : Prop :=
  ∀ {a s id t}, visit a s = (.ok id, t) → Numbered t a id

theorem runHook_yields {visit : Visit α ρ} (hk : Moves Keeps visit) (hv : Numbers visit)
    {hook : Hook α ρ} {record : ρ} (h : runHook visit hook s = (.ok record, t)) :
    hook.Yields (Numbered t) record := by
  induction hook generalizing s with
  | done => cases h; exact .done _
  | fail => cases h
  | serialize node next ih =>
    unfold runHook at h
    rcases hr : visit node s with ⟨e | id, u⟩ <;> rw [hr] at h
    · exact .refused e (ih _ h)
    · have hkeeps := partwise_keeps.runHook hk (next (.ok id)) u
      dsimp only at h
      rw [h] at hkeeps
      exact .numbered (hkeeps.lookup (hv hr)) (ih _ h)
  | look next ih => exact .look _ (ih _ h)

/-- The record of a node is what its hook yields. -/
theorem produce_yields {visit : Visit α ρ} (hk : Moves Keeps visit) (hv : Numbers visit)
    {id : RecordId} {cell : Cell ν} {record : ρ}
    (h : produce schema visit id cell s = (.ok record, t)) :
    (schema.hook cell.content).Yields (Numbered t) record := by
  unfold produce at h
  split at h
  · cases h
  · rcases hr : runHook visit (schema.hook cell.content) (s.enter id) with ⟨e | r, u⟩ <;>
      rw [hr] at h <;> cases h
    exact (runHook_yields hk hv hr : _)

theorem numbers_known {fresh : Visit α ρ}
    (hf : ∀ {a s id t}, s.numbering.lookup a = none → fresh a s = (.ok id, t) → Numbered t a id) :
    Numbers (known fresh) := by
  intro a s id t h
  unfold known at h
  split at h
  · next hn => cases h; exact hn
  · next hn => exact hf hn h

theorem numbers_welcome {visit : Visit α ρ} (hk : Moves Keeps visit) {a : α} {id : RecordId}
    (hn : s.numbering.lookup a = none) (h : welcome schema heap visit a s = (.ok id, t)) :
    Numbered t a id := by
  rcases hr : s.numbering.register a s.limits.maxRecords with e | ⟨id', numbering⟩
  · unfold welcome at h
    rw [hr] at h
    cases h
  · have hkeeps := keeps_welcome schema heap hk hr
    rw [h] at hkeeps
    have hid : id = id' := by
      unfold welcome at h
      simp only [hr, (Numbering.register_new hn hr).1] at h
      split at h <;> cases h
      rfl
    exact hkeeps.lookup (hid ▸ Numbering.lookup_of_register hr)

variable (schema heap) in
theorem numbers_visit (levels : Nat) : Numbers (Session.visit schema heap levels) := by
  induction levels with
  | zero => exact numbers_known fun _ h => by cases h
  | succ levels => exact numbers_known (numbers_welcome (keeps_visit schema heap levels))

variable (schema heap) in
/-- Each record is one that the hook of its node yields. -/
def Sourced (s : Session α ρ) : Prop :=
  ∀ (k : Nat) (a : α) (p : Pending ρ), s.numbering.nodes[k]? = some a →
    s.records[k]? = some (some p) → (schema.hook (heap a).content).Yields (Numbered s) p.record

theorem Sourced.push (hs : Sourced schema heap s) (haligned : Aligned s) {a : α} {id : RecordId}
    {numbering : Numbering α} (hn : s.numbering.lookup a = none)
    (hr : s.numbering.register a s.limits.maxRecords = .ok (id, numbering)) :
    Sourced schema heap { s with numbering, records := s.records.push none } := by
  intro k b p hb hp
  rw [Array.getElem?_push] at hp
  split at hp
  · cases hp
  · have hlt : k < s.numbering.nodes.length := by
      have hfilled := (Array.getElem?_eq_some_iff.1 hp).1
      rwa [Numbering.length_nodes, ← objectCount, haligned.size]
    rw [Numbering.nodes_register hn hr, List.getElem?_append_left hlt] at hb
    exact (hs k b p hb hp).mono fun h => Numbering.lookup_register hr h

theorem Sourced.store (hs : Sourced schema heap s) {index : Nat} {a : α}
    (ha : s.numbering.nodes[index]? = some a) {p : Pending ρ}
    (hp : (schema.hook (heap a).content).Yields (Numbered s) p.record) :
    Sourced schema heap (s.store index p) := by
  intro k b q hb hq
  rw [Session.store, Array.getElem?_setIfInBounds] at hq
  split at hq
  · next hk =>
    subst hk
    obtain rfl : a = b := Option.some.inj (ha.symm.trans hb)
    split at hq <;> cases hq
    exact hp
  · exact hs k b q hb hq

variable (schema heap) in
/-- A part of a pass that keeps every record so. -/
structure Traces (s t : Session α ρ) : Prop where
  books : Books schema heap s t
  sourced : Titled schema heap s → Sourced schema heap s → Sourced schema heap t

theorem partwise_traces : Partwise (Traces schema heap) where
  refl s := ⟨partwise_books.refl s, fun _ => id⟩
  trans h h' := ⟨partwise_books.trans h.books h'.books,
    fun hs hsource => h'.sourced (h.books.titled hs) (h.sourced hs hsource)⟩
  hook h := ⟨partwise_books.hook h.books, fun hs hsource => h.sourced (hs.enter _) hsource⟩

theorem sourced_welcome {visit : Visit α ρ} (hv : Moves (Traces schema heap) visit)
    (hnumbers : Numbers visit) {a : α} (hs : Titled schema heap s)
    (hsource : Sourced schema heap s) (hn : s.numbering.lookup a = none) :
    Sourced schema heap (welcome schema heap visit a s).2 := by
  unfold welcome
  rcases hr : s.numbering.register a s.limits.maxRecords with e | ⟨id, numbering⟩
  · exact hsource
  · have hindex := (Numbering.register_new hn hr).1
    have htraces := partwise_traces.produce schema hv id (heap a)
      { s with numbering, records := s.records.push none }
    have htitled := htraces.books.titled (hs.push hn hr)
    have hproduced := htraces.sourced (hs.push hn hr) (hsource.push hs.aligned hn hr)
    have hnumber := htraces.books.keeps.lookup (Numbering.lookup_of_register hr)
    simp only [hindex]
    rcases hp : produce schema visit id (heap a)
      { s with numbering, records := s.records.push none } with ⟨e | record, t⟩ <;>
      rw [hp] at htitled hproduced hnumber
    · exact hproduced
    · refine hproduced.store ((htitled.sequential a _).1 ?_)
        (produce_yields (fun a s => (hv a s).books.keeps) hnumbers hp)
      rw [Numbering.index?, hnumber, Option.bind_some, hindex]

variable (schema heap) in
theorem traces_visit (levels : Nat) :
    Moves (Traces schema heap) (Session.visit schema heap levels) := by
  induction levels with
  | zero =>
    intro a s
    unfold Session.visit known
    split <;> exact partwise_traces.refl s
  | succ levels ih =>
    intro a s
    unfold Session.visit known
    split
    · exact partwise_traces.refl s
    · next hn =>
      refine ⟨?_, fun hs hsource => ?_⟩
      · have hbooks := books_visit schema heap (levels + 1) a s
        unfold Session.visit known at hbooks
        rwa [hn] at hbooks
      · exact sourced_welcome ih (numbers_visit schema heap levels) hs hsource hn

variable (schema heap) in
theorem sourced_serialize (limits : Limits) (root : α) :
    Sourced schema heap (serialize schema heap root { limits }).2 :=
  (traces_visit schema heap limits.maxDepth.toNat root _).sourced
    (titled_first schema heap limits true) fun _ _ _ h => by cases h

variable (schema heap) in
/-- If any node has a number, the root has the first. -/
theorem root_of_first {limits : Limits} {root a : α}
    (h : (serialize schema heap root { limits }).2.numbering.nodes[0]? = some a) : a = root := by
  have htitled := titled_serialize schema heap limits root
  have hsome : (serialize schema heap root { limits }).2.objectCount ≠ 0 := by
    obtain ⟨hlt, -⟩ := List.getElem?_eq_some_iff.1 h
    rw [objectCount, ← Numbering.length_nodes]
    exact hlt.ne'
  rw [ne_eq, objectCount_serialize_eq_zero, not_or] at hsome
  obtain ⟨levels, hlevels⟩ : ∃ levels, limits.maxDepth.toNat = levels + 1 :=
    Nat.exists_eq_succ_of_ne_zero fun hzero => hsome.1 (UInt64.toNat_inj.1 hzero)
  have hregister := Numbering.register_first root limits.maxRecords
  rw [if_neg hsome.2] at hregister
  have hkeeps := keeps_welcome schema heap (keeps_visit schema heap levels)
    (s := { limits, rootTaken := true }) hregister
  have hroot : Numbered (serialize schema heap root { limits }).2 root .root := by
    simp only [serialize, Bool.false_eq_true, if_false, hlevels]
    exact hkeeps.lookup (Numbering.lookup_of_register hregister)
  have hfirst := (htitled.sequential root 0).1 (by rw [Numbering.index?, hroot]; rfl)
  exact Option.some.inj (h.symm.trans hfirst)

end Session
end ObjectGraph.Flatten
