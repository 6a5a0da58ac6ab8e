import ObjectGraph.Proofs.Catalog.RoundTrip
import ObjectGraph.Proofs.Flatten.Hooks

/-! The hooks of a pass over catalog nodes. None is run twice, and a pass that succeeds has run that
of each node below its root (`flattening_bounded`). -/
namespace ObjectGraph.Catalog

open Flatten (underway)
open Flatten.Session (serialize descend Packed)

/-- Each node discovered has a record, for which its hook was run. -/
theorem hookRuns_of_serialize {h : TypedHeap} {limits : Limits} {root : Nat} {id : RecordId}
    {s : Flatten.Session Nat Record}
    (hs : serialize flattenSchema h.cell root { limits } = (.ok id, s)) (node : Nat) :
    (Graph.Reaches h.targets root node → s.hookRuns node = 1) ∧
    (¬ Graph.Reaches h.targets root node → s.hookRuns node = 0) := by
  obtain ⟨order, ho⟩ := h.exists_search root
  obtain ⟨hclear, hnumbered⟩ := clear_of_serialize ho hs
  have hlookup := hnumbered.numbering.lookup node
  have hmem : node ∈ order.map Prod.fst ↔ Graph.Reaches h.targets root node :=
    (ho.mem_iff_reaches node).trans (by simp)
  constructor
  · intro hreach
    obtain ⟨k, p, hk, rfl⟩ := exists_position ho hreach
    have hlogged := Flatten.Session.logged_serialize flattenSchema h.cell limits root
    rw [hs] at hlogged
    have hstored : s.records[k]? = some (some (recordOf h.cell order p.1)) := by
      rw [hnumbered.records k p hk, if_neg List.not_mem_nil]
    have hbound : k < RecordId.nil.raw.toNat := by
      obtain ⟨hlt, -⟩ := Array.getElem?_eq_some_iff.1 hstored
      have hroom : s.records.size ≤ limits.maxRecords.toNat := hlogged.room
      have hlimit := limits.maxRecords.toNat_lt
      have hnil : RecordId.nil.raw.toNat = 2 ^ 32 - 1 := by decide
      omega
    rw [if_pos (hmem.2 hreach)] at hlookup
    exact Flatten.Session.hookRuns_of_stored hlogged hlookup
      (index?_position (ho.nodup (by simp)) hk hbound) hstored
  · intro hunreached
    rw [if_neg (mt hmem.1 hunreached)] at hlookup
    rw [Flatten.Session.hookRuns, hlookup]

/-- A pass comes to an end, and whether it succeeds or not, no hook is run twice or for more nodes
than may have numbers. Never are more hooks under way than the limit allows, and none is at the end.
If it succeeds it has run the hook of each node that the root leads to, and the container is made
with one call of the codec for each record. The nodes are what the pass reads and no part of what it
changes. -/
theorem flattening_bounded (h : Heap) (limits : Limits) (root : Nat) :
    let (outcome, s) := serialize flattenSchema h.cell root { limits }
    (∀ n bottom, min limits.maxDepth.toNat limits.maxRecords.toNat < n →
      (outcome, s) =
        (descend flattenSchema h.cell)^[n] bottom root { limits, rootTaken := true }) ∧
    (∀ node, s.hookRuns node ≤ 1) ∧
    (∀ id ∈ s.hooked, ∃! node, s.numbering.lookup node = some id) ∧
    s.hooked.length ≤ limits.maxRecords.toNat ∧
    (∀ earlier, earlier <:+ s.trace → (underway earlier).length ≤ limits.maxDepth.toNat) ∧
    underway s.trace = [] ∧ s.depth = 0 ∧ s.inTraversal = false ∧
    (h.isTyped = true → ∀ id, outcome = .ok id → ∀ node,
      (Graph.Reaches h.targets root node → s.hookRuns node = 1) ∧
      (¬ Graph.Reaches h.targets root node → s.hookRuns node = 0)) ∧
    ∀ (κ : Type) (c : Codec κ Record) names container calls,
      s.finish c names = (.ok container, calls) → calls = container.size ∧ Packed c s container := by
  have hlogged := Flatten.Session.logged_serialize flattenSchema h.cell limits root
  have htitled := Flatten.Session.titled_serialize flattenSchema h.cell limits root
  have hdescend (n : Nat) (bottom : Flatten.Session.Visit Nat Record)
      (hn : min limits.maxDepth.toNat limits.maxRecords.toNat < n) :=
    Flatten.Session.serialize_eq_descend flattenSchema h.cell hn bottom root
  rcases hs : serialize flattenSchema h.cell root { limits } with ⟨outcome, s⟩
  rw [hs] at hlogged htitled hdescend
  refine ⟨hdescend, Flatten.Session.hookRuns_le_one hlogged,
    fun id => Flatten.Session.existsUnique_hooked flattenSchema h.cell htitled hlogged,
    Flatten.Session.length_hooked_le hlogged, hlogged.nesting, hlogged.underway, hlogged.depth, ?_,
    ?_, fun κ c names container calls hc => ?_⟩
  · have hdepth : s.depth = 0 := hlogged.depth
    simp [Flatten.Session.inTraversal, hdepth]
  · rintro ht id rfl
    exact hookRuns_of_serialize (h := h.typed ht) hs
  · exact ⟨Flatten.Session.calls_of_finish hc,
      (Flatten.Session.packed_of_intoContainer (congrArg Prod.fst hc)).1⟩

/-- The player and the deck refer to each other, and each has its hook run once. -/
theorem hookRuns_ownedDeck : ∃ id s,
    serialize flattenSchema ownedDeck.cell 0 { limits := {} } = (.ok id, s) ∧
    s.hookRuns 0 = 1 ∧ s.hookRuns 1 = 1 ∧ underway s.trace = [] := by
  obtain ⟨-, -, -, -, -, hidle, -, -, hruns, -⟩ := flattening_bounded ownedDeck.toHeap {} 0
  have hid : (serialize flattenSchema ownedDeck.cell 0 { limits := {} }).1 = .ok .root := by
    decide +kernel
  have htyped : ownedDeck.toHeap.isTyped = true := by decide +kernel
  have hrefers : Graph.Refers ownedDeck.targets 0 1 := List.mem_singleton.2 rfl
  exact ⟨_, _, Prod.ext hid rfl, (hruns htyped _ hid 0).1 .refl,
    (hruns htyped _ hid 1).1 (.single hrefers), hidle⟩

end ObjectGraph.Catalog
