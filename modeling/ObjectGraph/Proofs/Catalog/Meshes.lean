import ObjectGraph.Catalog.Fixtures
import ObjectGraph.Proofs.Catalog.Preorder
import ObjectGraph.Proofs.Numbering

/-! Passes over meshes. A vertex of a mesh has the targets of its edges in the order in which those
were listed (`getElem?_mesh`), so a fan is discovered in the order of its positions, and none of its
vertices is more than one edge below the first (`search_fan`). Its records follow at any size
(`serialize_fanMesh`). -/
namespace ObjectGraph.Catalog

open Flatten (Session)
open ObjectGraph.Graph (Search)

namespace Fixtures

/-- The targets of the edges from a vertex, in order, but for those that are not there. -/
def outgoing (count : Nat) (edges : List (Nat × Nat)) (source : Nat) : List Nat :=
  edges.filterMap fun e => if e.1 = source ∧ e.2 < count then some e.2 else none

def row (count : Nat) (targets : Nat → List Nat) (k : Nat) : Option (Content Nat) :=
  if k < count then some (.vertex (UInt32.ofNat (min k 0xffffffff)) (targets k)) else none

theorem outgoing_cons (count : Nat) (e : Nat × Nat) (edges : List (Nat × Nat)) (k : Nat) :
    outgoing count (e :: edges) k = outgoing count [e] k ++ outgoing count edges k :=
  List.filterMap_append (l := [e])

theorem getElem?_addEdge {g : Graph} {count : Nat} {targets : Nat → List Nat}
    (hg : ∀ k, g[k]? = row count targets k) {e : Nat × Nat} (ht : e.2 < count) (k : Nat) :
    (g.modify e.1 (addEdge e.2))[k]? =
      row count (fun k => targets k ++ outgoing count [e] k) k := by
  rw [List.getElem?_modify, hg]
  unfold row outgoing
  by_cases hk : k < count <;> by_cases hs : e.1 = k <;> simp [hk, hs, ht, addEdge]

/-- A vertex has the targets of its edges in order. -/
theorem getElem?_mesh (count : Nat) (edges : List (Nat × Nat)) (k : Nat) :
    (mesh count edges)[k]? = row count (outgoing count edges) k := by
  suffices h : ∀ (g : Graph) (targets : Nat → List Nat), (∀ k, g[k]? = row count targets k) →
      (edges.foldl (fun g (e : Nat × Nat) =>
        if e.1 < count ∧ e.2 < count then g.modify e.1 (addEdge e.2) else g) g)[k]? =
        row count (fun k => targets k ++ outgoing count edges k) k by
    refine h _ (fun _ => []) fun k => ?_
    rw [List.getElem?_map, row]
    by_cases hk : k < count <;> simp [hk]
  induction edges with
  | nil =>
    intro g targets hg
    simpa [outgoing] using hg k
  | cons e edges ih =>
    intro g targets hg
    rw [List.foldl_cons]
    by_cases he : e.1 < count ∧ e.2 < count
    · rw [if_pos he, ih _ _ (getElem?_addEdge hg he.2)]
      simp only [List.append_assoc, ← outgoing_cons]
    · -- An edge from a vertex that is not there is nobody's.
      rw [if_neg he, ih _ _ hg]
      unfold row
      by_cases hk : k < count
      · have hnone : ¬ (e.1 = k ∧ e.2 < count) := by
          rintro ⟨rfl, ht⟩
          exact he ⟨hk, ht⟩
        simp [outgoing, hnone]
      · simp [hk]

theorem outgoing_lt {count source target : Nat} {edges : List (Nat × Nat)}
    (h : target ∈ outgoing count edges source) : target < count := by
  obtain ⟨e, -, he⟩ := List.mem_filterMap.1 h
  split at he
  · next hin =>
    cases he
    exact hin.2
  · cases he

end Fixtures

open Fixtures

section Mesh

variable (count : Nat) (edges : List (Nat × Nat))

/-- The vertices of a mesh, and what stands behind them. -/
theorem cell_mesh (k : Nat) :
    (Heap.ofContents (mesh count edges)).cell k =
      { content := (row count (outgoing count edges) k).getD (.empty .peer) } := by
  unfold Heap.ofContents Heap.cell
  rw [Array.getD_eq_getD_getElem?, List.getElem?_toArray, List.getElem?_map, getElem?_mesh]
  cases row count (outgoing count edges) k <;> rfl

theorem kind_mesh (k : Nat) : ((Heap.ofContents (mesh count edges)).cell k).content.kind =
    if k < count then .vertex else .peer := by
  rw [cell_mesh, row]
  split <;> rfl

/-- Every edge of a mesh leads to a vertex. -/
def meshHeap : TypedHeap where
  toHeap := .ofContents (mesh count edges)
  strict k := by
    rw [kind_mesh]
    split <;> decide
  typed k d hd := by
    rw [cell_mesh, row] at hd
    split at hd
    · obtain ⟨target, ht, rfl⟩ := List.mem_map.1 hd
      rw [kind_mesh, if_pos (outgoing_lt ht)]
    · cases hd

end Mesh

def spokes (n k : Nat) : List Nat := if k = 0 then List.range' 1 (n - 1) else [0, k / 2]

theorem outgoing_fan {n k : Nat} (hk : k < n) : outgoing n (fanEdges n) k = spokes n k := by
  unfold outgoing fanEdges spokes
  rw [List.filterMap_flatMap]
  split
  · next hzero =>
    subst hzero
    have hedge : ∀ i ∈ List.range' 1 (n - 1), [(0, i), (i, 0), (i, i / 2)].filterMap
        (fun e => if e.1 = 0 ∧ e.2 < n then some e.2 else none) = [i] := by
      intro i hi
      obtain ⟨hpos, hlt⟩ := List.mem_range'_1.1 hi
      simp [show i < n by omega, show i ≠ 0 by omega]
    rw [List.flatMap_congr hedge, List.flatMap_singleton']
  · next hpos =>
    -- The edges of the other positions start elsewhere.
    have hother : ∀ i, i ≠ k → [(0, i), (i, 0), (i, i / 2)].filterMap
        (fun e => if e.1 = k ∧ e.2 < n then some e.2 else none) = [] := by
      intro i hi
      simp [hi, Ne.symm hpos]
    obtain ⟨front, back, hsplit⟩ := List.append_of_mem
      (List.mem_range'_1.2 (by omega) : k ∈ List.range' 1 (n - 1))
    have hnodup : (front ++ k :: back).Nodup := hsplit ▸ List.nodup_range'
    obtain ⟨hfront, hback⟩ := not_or.1 (mt List.mem_append.2 (List.nodup_middle.1 hnodup).notMem)
    rw [hsplit, List.flatMap_append, List.flatMap_cons,
      List.flatMap_eq_nil_iff.2 fun i hi => hother i (ne_of_mem_of_not_mem hi hfront),
      List.flatMap_eq_nil_iff.2 fun i hi => hother i (ne_of_mem_of_not_mem hi hback)]
    simp [Ne.symm hpos, show 0 < n by omega, show k / 2 < n by omega]

def fanHeap (n : Nat) : TypedHeap := meshHeap n (fanEdges n)

theorem cell_fan {n k : Nat} (hk : k < n) : (fanHeap n).cell k =
    { content := .vertex (UInt32.ofNat (min k 0xffffffff)) (spokes n k) } := by
  show (Heap.ofContents (mesh n (fanEdges n))).cell k = _
  rw [cell_mesh, row, if_pos hk, outgoing_fan hk]
  rfl

theorem targets_fan {n k : Nat} (hk : k < n) : (fanHeap n).targets k = spokes n k := by
  rw [Heap.targets, cell_fan hk]
  rfl

/-- The vertices of a fan by position, with their depths. -/
def fanOrder (n : Nat) : List (Nat × Nat) := (List.range n).map fun k => (k, min k 1)

theorem map_fst_fanOrder (n : Nat) : (fanOrder n).map Prod.fst = List.range n := by
  simp [fanOrder, Function.comp_def]

theorem fanOrder_succ {k : Nat} (hk : 1 ≤ k) : fanOrder (k + 1) = fanOrder k ++ [(k, 1)] := by
  simp [fanOrder, List.range_succ, show min k 1 = 1 by omega]

theorem getElem?_fanOrder {n k : Nat} {p : Nat × Nat} (h : (fanOrder n)[k]? = some p) :
    k < n ∧ p = (k, min k 1) := by
  obtain ⟨hk, rfl⟩ := List.getElem?_eq_some_iff.1 h
  exact ⟨by simpa [fanOrder] using hk, by simp [fanOrder]⟩

/-- Behind the first vertices each further one is new, and leads to none but those. -/
theorem search_spokes {n : Nat} (m k : Nat) (hk : 1 ≤ k) (hn : k + m = n) :
    Search (fanHeap n).targets 1 (List.range' k m) (fanOrder k)
      ((List.range' k m).map fun k => (k, 1)) := by
  induction m generalizing k with
  | zero => exact .done
  | succ m ih =>
    have hmet {i : Nat} (hi : i ≤ k) : i ∈ (fanOrder k ++ [(k, 1)]).map Prod.fst := by
      rw [← fanOrder_succ hk, map_fst_fanOrder]
      exact List.mem_range.2 (by omega)
    have hbelow : Search (fanHeap n).targets 2 ((fanHeap n).targets k) (fanOrder k ++ [(k, 1)])
        [] := by
      rw [targets_fan (by omega), spokes, if_neg (by omega)]
      exact .met (hmet (by omega)) (.met (hmet (by omega)) .done)
    have hrest := ih (k + 1) (by omega) (by omega)
    rw [fanOrder_succ hk] at hrest
    exact .new (by simp [map_fst_fanOrder]) hbelow hrest

/-- A fan is discovered in the order of its positions, all but the first one at the same depth. -/
theorem search_fan {n : Nat} (hn : 1 ≤ n) :
    Search (fanHeap n).targets 0 [0] [] (fanOrder n) := by
  have hrest := search_spokes (n - 1) 1 le_rfl (by omega : 1 + (n - 1) = n)
  have hfan : fanOrder n = (0, 0) :: ((List.range' 1 (n - 1)).map (fun k => (k, 1)) ++ []) := by
    obtain ⟨m, rfl⟩ : ∃ m, n = m + 1 := ⟨n - 1, by omega⟩
    unfold fanOrder
    rw [List.range_eq_range', List.range'_succ, List.map_cons, List.append_nil]
    refine congrArg _ (List.map_congr_left fun k hk => ?_)
    have := List.mem_range'_1.1 hk
    rw [show min k 1 = 1 by omega]
  rw [hfan]
  refine .new (by simp) ?_ .done
  rw [targets_fan (by omega)]
  exact hrest

theorem position_fan {n k : Nat} (hk : k < n) : position (fanOrder n) k = ⟨UInt32.ofNat k⟩ := by
  unfold position
  rw [map_fst_fanOrder]
  congr 2
  exact Graph.idxOf_of_prefix List.nodup_range List.prefix_rfl (by simp [hk])

/-- The record of a vertex of a fan, as each target has its position for its number. -/
theorem recordOf_fan {n k : Nat} (hk : k < n) (hn : n ≤ 0xffffffff) :
    recordOf (fanHeap n).cell (fanOrder n) k =
      ⟨Kind.vertex.typeName, .vertex (UInt32.ofNat k)
        ((spokes n k).map fun i => ⟨UInt32.ofNat i⟩)⟩ := by
  have hspokes : (spokes n k).map (position (fanOrder n)) =
      (spokes n k).map fun i => ⟨UInt32.ofNat i⟩ := by
    refine List.map_congr_left fun i hi => position_fan ?_
    rw [← outgoing_fan hk] at hi
    exact outgoing_lt hi
  rw [recordOf, cell_fan hk, ← hspokes, min_eq_left (by omega)]
  rfl

theorem violation_fan {n k : Nat} (hk : k < n) {limits : Limits}
    (hr : n ≤ limits.maxRecords.toNat) :
    violation (fanHeap n).cell limits k (k, min k 1) =
      if limits.maxDepth.toNat ≤ min k 1 then some (.depthLimit limits.maxDepth) else none := by
  rw [violation, cell_fan hk, if_neg (by omega : ¬ limits.maxRecords.toNat ≤ k)]
  rfl

theorem check_fan {n k : Nat} {limits : Limits} {p : Nat × Nat}
    (hp : (fanOrder n)[k]? = some p) (hr : n ≤ limits.maxRecords.toNat) :
    (pass (fanHeap n).cell limits (fanOrder n)).check ([] ++ (fanOrder n).take k) p =
      if limits.maxDepth.toNat ≤ min k 1 then some (.depthLimit limits.maxDepth) else none := by
  obtain ⟨hk, rfl⟩ := getElem?_fanOrder hp
  have hlength : ([] ++ (fanOrder n).take k).length = k := by
    simp [fanOrder, hk.le]
  exact (congrArg (violation (fanHeap n).cell limits · (k, min k 1)) hlength).trans
    (violation_fan hk hr)

/-- A fan of any size takes two levels of hooks, or one if it has no edges; otherwise the pass is
refused for its depth. Each vertex gets its position as its number, and the records are those of the
edges as they were listed. -/
theorem serialize_fanMesh (n : Nat) (limits : Limits) (hn : 1 ≤ n)
    (hr : n ≤ limits.maxRecords.toNat) :
    let outcome := Session.serialize flattenSchema (Heap.ofContents (fanMesh n)).cell 0
      ({ limits } : Session Nat Record)
    if 2 ≤ limits.maxDepth.toNat ∨ n = 1 ∧ limits.maxDepth.toNat = 1 then
      ∃ s, outcome = (.ok .root, s) ∧ s.objectCount = n ∧
        (∀ i < n, s.numbering.index? i = some i) ∧
        s.records.toList = (List.range n).map fun k => some ⟨Kind.vertex.typeName,
          .vertex (UInt32.ofNat k) ((if k = 0 then List.range' 1 (n - 1) else [0, k / 2]).map
            fun i => ⟨UInt32.ofNat i⟩)⟩
    else outcome.1 = .error (.depthLimit limits.maxDepth) := by
  have hmax : limits.maxRecords.toNat < 2 ^ 32 := limits.maxRecords.toNat_lt
  have hsearch := search_fan hn
  intro outcome
  split
  · next hdeep =>
    have hclear : Graph.firstFault (pass (fanHeap n).cell limits (fanOrder n)).check []
        (fanOrder n) = none := by
      refine Graph.firstFault_eq_none.2 fun k p hp => ?_
      have hk := (getElem?_fanOrder hp).1
      rw [check_fan hp hr, if_neg (by omega)]
    obtain ⟨s, hs, hnumbered⟩ := serialize_of_clear hsearch hclear
    refine ⟨s, hs, ?_, fun i hi => ?_, ?_⟩
    · have hsize := hnumbered.numbering.size
      rwa [map_fst_fanOrder, List.length_range] at hsize
    · have hraw : (UInt32.ofNat i).toNat = i := UInt32.toNat_ofNat_of_lt' (by
        rw [UInt32.size]
        omega)
      have hid : RecordId.ofIndex? i = some ⟨UInt32.ofNat i⟩ := by
        have hnil : RecordId.nil.raw.toNat = 2 ^ 32 - 1 := by decide
        rw [RecordId.ofIndex?, if_pos (by omega)]
      rw [Numbering.index?, hnumbered.lookup_met (by simpa [map_fst_fanOrder] using hi),
        position_fan hi, Option.bind_some, RecordId.index?_ofIndex? hid]
    · rw [hnumbered.toList_records, fanOrder, List.map_map]
      refine List.map_congr_left fun k hk => ?_
      exact congrArg some (recordOf_fan (List.mem_range.1 hk) (by omega))
  · next hshallow =>
    -- The vertex at the position of the limit is the first one below it.
    have hat : (fanOrder n)[limits.maxDepth.toNat]? =
        some (limits.maxDepth.toNat, min limits.maxDepth.toNat 1) := by
      simp [fanOrder, show limits.maxDepth.toNat < n by omega]
    refine serialize_of_fault hsearch (Graph.firstFault_eq_some hat ?_ fun j hj q hq => ?_)
    · rw [check_fan hat hr, if_pos (by omega)]
    · rw [check_fan hq hr, if_neg (by omega)]

/-- Four spokes, under limits that just admit them and under one level less. -/
theorem serialize_fanMesh_five :
    let limits (maxDepth : UInt64) : Limits := { maxRecords := 5, maxDepth }
    let outcome (maxDepth : UInt64) := Session.serialize flattenSchema
      (Heap.ofContents (fanMesh 5)).cell 0 ({ limits := limits maxDepth } : Session Nat Record)
    (∀ maxDepth, 1 ≤ 5 ∧ 5 ≤ (limits maxDepth).maxRecords.toNat) ∧
    (∃ s, outcome 2 = (.ok .root, s) ∧ s.objectCount = 5 ∧
      s.records.toList.map (Option.map (·.record)) =
        [some (.vertex 0 [⟨1⟩, ⟨2⟩, ⟨3⟩, ⟨4⟩]), some (.vertex 1 [⟨0⟩, ⟨0⟩]),
          some (.vertex 2 [⟨0⟩, ⟨1⟩]), some (.vertex 3 [⟨0⟩, ⟨1⟩]), some (.vertex 4 [⟨0⟩, ⟨2⟩])]) ∧
    (outcome 1).1 = .error (.depthLimit 1) := by
  intro limits outcome
  have hdeep := serialize_fanMesh 5 (limits 2) (by decide) (by decide)
  have hshallow := serialize_fanMesh 5 (limits 1) (by decide) (by decide)
  rw [if_pos (by decide)] at hdeep
  rw [if_neg (by decide)] at hshallow
  obtain ⟨s, hs, hcount, -, hrecords⟩ := hdeep
  exact ⟨fun _ => ⟨by decide, le_rfl⟩, ⟨s, hs, hcount, by rw [hrecords]; rfl⟩, hshallow⟩

end ObjectGraph.Catalog
