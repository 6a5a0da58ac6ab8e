import ObjectGraph.Catalog.Fixtures
import ObjectGraph.Proofs.Catalog.Codec
import ObjectGraph.Proofs.Catalog.Packing
import ObjectGraph.Proofs.Catalog.Preorder
import ObjectGraph.Proofs.Catalog.Verdict

/-! A graph that was flattened into a container is rebuilt from there. The numbers of its nodes take
the search through the heap to the search through the records, so the session makes its nodes in the
order in which the pass has numbered the originals (`Flattened.isomorphic`). -/
namespace ObjectGraph.Catalog

open ObjectGraph.Graph (Reaches Search firstFault)
open Rebuild (Address)

/-- A map takes the part of a heap below a root to the nodes of a session: every node to one of its
own, of its type and with its scalars, each reference to the image of its target. -/
structure Isomorphic (h : Heap) (root : Nat) (s : Rebuilding) (node : Address) (f : Nat → Address) :
    Prop where
  bijective : Set.BijOn f {a | Reaches h.targets root a} {n | n < s.nodes.size}
  top : f root = node
  nodes : ∀ a, Reaches h.targets root a → s.nodes[f a]? =
    some ⟨(h.cell a).content.kind, ⟨(h.cell a).content.move f, []⟩, false⟩
  count : s.materializedCount = s.nodes.size

section Numbers

variable {order : List (Nat × Nat)} {k : Nat} {p : Nat × Nat}

theorem index?_position (hd : (order.map Prod.fst).Nodup) (hk : order[k]? = some p)
    (hl : k < RecordId.nil.raw.toNat) : (position order p.1).index? = some k := by
  have hat : (order.map Prod.fst)[k]? = some p.1 := by rw [List.getElem?_map, hk]; rfl
  unfold position
  rw [Graph.idxOf_of_prefix hd List.prefix_rfl hat]
  exact RecordId.index?_ofIndex? (by rw [RecordId.ofIndex?, if_pos hl])

/-- Every node below a root has its position. -/
theorem exists_position {targets : Nat → List Nat} {root a : Nat}
    (ho : Search targets 0 [root] [] order) (ha : Reaches targets root a) :
    ∃ (k : Nat) (p : Nat × Nat), order[k]? = some p ∧ p.1 = a :=
  Graph.exists_getElem?_of_mem ((ho.mem_iff_reaches a).2 ⟨root, by simp, ha⟩)

def refOf (h : Heap) (order : List (Nat × Nat)) (node : Nat) : Ref :=
  (position order node, (h.cell node).content.kind)

def copied (h : Heap) (order : List (Nat × Nat)) : List (Ref × Nat) :=
  order.map (Prod.map (refOf h order) id)

theorem getElem?_copied (h : Heap) (hk : order[k]? = some p) :
    (copied h order)[k]? = some (refOf h order p.1, p.2) := by
  unfold copied
  rw [List.getElem?_map, hk]
  rfl

end Numbers

structure Flattened (h : Heap) (limits : Limits) (e : Encoding) (order : List (Nat × Nat))
    (c : Container) : Prop where
  nodup : (order.map Prod.fst).Nodup
  clear : ∀ k p, order[k]? = some p → violation h.cell limits k p = none
  version : c.formatVersion = Container.currentVersion
  names : c.typeNames = none
  size : c.size = order.length
  records : ∀ k p, order[k]? = some p → ∃ bs, c.records[k]? = some bs ∧
    (codec e).encode k ((h.cell p.1).content.toRecord (position order)) = .ok bs ∧
    bs.length ≤ limits.maxRecordLen.toNat

section Flattened

variable {h : TypedHeap} {limits : Limits} {e : Encoding} {order : List (Nat × Nat)} {c : Container}
  {root : Nat} {k : Nat} {p : Nat × Nat}

/-- What a pass leaves behind, packed into a container. -/
theorem flattened_of_packed {s : Flatten.Session Nat Record}
    (ho : Search h.targets 0 [root] [] order)
    (hf : firstFault (pass h.cell limits order).check [] order = none)
    (hs : Numbered h.cell limits order order [] s) (hc : Flatten.Session.Packed (codec e) s c)
    (hn : c.typeNames = none) : Flattened h.toHeap limits e order c := by
  have hcount : s.objectCount = order.length := by
    unfold Flatten.Session.objectCount
    rw [hs.numbering.size, List.length_map]
  refine ⟨ho.nodup (by simp), ?_, hc.version, hn, hc.size.trans hcount, ?_⟩
  · intro k p hk
    have hclear := Graph.firstFault_eq_none.1 hf k p hk
    obtain ⟨hlt, -⟩ := List.getElem?_eq_some_iff.1 hk
    simpa [pass, List.length_take, hlt.le] using hclear
  · intro k p hk
    obtain ⟨hlt, -⟩ := List.getElem?_eq_some_iff.1 hk
    have hrecords : k < c.records.length := by rwa [← Container.size, hc.size, hcount]
    obtain ⟨bs, hb⟩ : ∃ bs, c.records[k]? = some bs := ⟨_, List.getElem?_eq_getElem hrecords⟩
    obtain ⟨pending, hp, hencode, hlength⟩ := hc.records k bs hb
    have hrecord := hs.records k p hk
    rw [if_neg List.not_mem_nil, hp, Option.some.injEq, Option.some.injEq] at hrecord
    subst hrecord
    rw [hs.limits] at hlength
    exact ⟨bs, hb, hencode, hlength⟩

namespace Flattened

theorem lt_maxRecords (hf : Flattened h.toHeap limits e order c) (hk : order[k]? = some p) :
    k < limits.maxRecords.toNat :=
  (violation_eq_none.1 (hf.clear k p hk)).2.1

theorem index?_position (hf : Flattened h.toHeap limits e order c) (hk : order[k]? = some p) :
    (position order p.1).index? = some k := by
  apply Catalog.index?_position hf.nodup hk
  have hlt := hf.lt_maxRecords hk
  have hlimit := limits.maxRecords.toNat_lt
  have hnil : RecordId.nil.raw.toNat = 2 ^ 32 - 1 := by decide
  omega

/-- The session opens the container under the limits of the pass. -/
theorem start_eq (hf : Flattened h.toHeap limits e order c) :
    Rebuild.Session.start c limits = .ok (opened c limits) := by
  have hvalid : c.validate limits = .ok () := by
    apply Container.validate_eq_ok hf.version hf.names
    · rw [hf.size]
      by_contra hmany
      obtain ⟨p, hp⟩ : ∃ p, order[limits.maxRecords.toNat]? = some p :=
        ⟨_, List.getElem?_eq_getElem (by omega)⟩
      exact absurd (hf.lt_maxRecords hp) (lt_irrefl _)
    · intro bs hb
      obtain ⟨k, hk⟩ := List.mem_iff_getElem?.1 hb
      obtain ⟨hlt, -⟩ := List.getElem?_eq_some_iff.1 hk
      rw [← Container.size, hf.size] at hlt
      obtain ⟨bs', hb', -, hlength⟩ := hf.records k _ (List.getElem?_eq_getElem hlt)
      rw [hk] at hb'
      obtain rfl := Option.some.inj hb'
      exact hlength
  simp [Rebuild.Session.start, hvalid, opened]

theorem decode_refOf (hf : Flattened h.toHeap limits e order c) (hk : order[k]? = some p) :
    ∃ bs, c.records[k]? = some bs ∧ (codec e).decode 0 (refOf h.toHeap order p.1).2 bs =
      .ok ((h.cell p.1).content.toRecord (position order)) := by
  obtain ⟨bs, hb, hencode, hlength⟩ := hf.records k p hk
  have hlimit := limits.maxRecordLen.toNat_lt
  have hdecode := decode_of_encode hencode (by omega) 0
  rw [Content.kind_toRecord] at hdecode
  exact ⟨bs, hb, hdecode⟩

theorem recordAt?_refOf (hf : Flattened h.toHeap limits e order c) (hk : order[k]? = some p) :
    recordAt? e c (refOf h.toHeap order p.1) =
      some ((h.cell p.1).content.toRecord (position order)) := by
  obtain ⟨bs, hb, hdecode⟩ := hf.decode_refOf hk
  have hindex : (refOf h.toHeap order p.1).1.index? = some k := hf.index?_position hk
  simp [recordAt?, hindex, hb, hdecode, Except.toOption]

theorem refOf_injOn (hf : Flattened h.toHeap limits e order c) :
    Set.InjOn (refOf h.toHeap order) {a | a ∈ order.map Prod.fst} := by
  rintro a ha b hb hab
  obtain ⟨i, p, hi, rfl⟩ := Graph.exists_getElem?_of_mem ha
  obtain ⟨j, q, hj, rfl⟩ := Graph.exists_getElem?_of_mem hb
  have hindex := hf.index?_position hi
  have hsame : position order p.1 = position order q.1 := congrArg Prod.fst hab
  rw [hsame, hf.index?_position hj, Option.some.injEq] at hindex
  rw [← hindex, hj] at hi
  rw [Option.some.inj hi]

theorem position_ne_nil (hf : Flattened h.toHeap limits e order c)
    (ho : Search h.targets 0 [root] [] order) {a : Nat} (ha : a ∈ order.map Prod.fst) :
    ∀ b ∈ (h.cell a).content.targets, position order b ≠ .nil := by
  intro b hb hnil
  obtain ⟨j, q, hj, rfl⟩ := Graph.exists_getElem?_of_mem (ho.closed ha hb)
  have hindex := hf.index?_position hj
  rw [hnil] at hindex
  cases hindex

/-- The links of a node's record are the references to the records of its targets. -/
theorem linksAt_refOf (hf : Flattened h.toHeap limits e order c)
    (ho : Search h.targets 0 [root] [] order) {a : Nat} (ha : a ∈ order.map Prod.fst) :
    linksAt e c (refOf h.toHeap order a) = (h.targets a).map (refOf h.toHeap order) := by
  obtain ⟨k, p, hk, rfl⟩ := Graph.exists_getElem?_of_mem ha
  unfold linksAt
  rw [hf.recordAt?_refOf hk, Option.map_some, Option.getD_some,
    Record.links_toRecord (hf.position_ne_nil ho ha), Heap.targets, ← Content.map_fst_demands,
    List.map_map]
  apply List.map_congr_left
  intro d hd
  exact Prod.ext rfl (h.typed p.1 d hd).symm

/-- The search through the heap, along the records. -/
theorem search (hf : Flattened h.toHeap limits e order c)
    (ho : Search h.targets 0 [root] [] order) :
    Search (linksAt e c) 0 [refOf h.toHeap order root] [] (copied h.toHeap order) := by
  have hmapped := ho.map (refOf h.toHeap order) (by simpa using hf.refOf_injOn)
    fun a ha => hf.linksAt_refOf ho ha
  exact hmapped

/-- The session has no objection to any record, under the name of its node's type or without one. -/
theorem objections (hf : Flattened h.toHeap limits e order { c with typeNames := none })
    (hn : ∀ k p, order[k]? = some p → Named c limits k (h.cell p.1).content.kind) :
    firstFault (objection e c limits) [] (copied h.toHeap order) = none := by
  apply Graph.firstFault_eq_none.2
  intro k ref hk
  unfold copied at hk
  rw [List.getElem?_map] at hk
  obtain ⟨p, hp, rfl⟩ := Option.map_eq_some_iff.1 hk
  obtain ⟨bs, hb, hdecode⟩ := hf.decode_refOf hp
  refine (objection_eq_none e c limits).2 ⟨k, bs, _, hf.index?_position hp, ?_, hb,
    (checkTypeName_eq_ok _).2 (hn k p hp), hdecode, (violation_eq_none.1 (hf.clear k p hp)).1⟩
  intro hmem
  rw [List.nil_append, copied, ← List.map_take, List.map_map] at hmem
  obtain ⟨q, hq, hsame⟩ := List.mem_map.1 hmem
  obtain ⟨j, hj⟩ := List.mem_iff_getElem?.1 hq
  rw [List.getElem?_take, Option.ite_none_right_eq_some] at hj
  have hindex := hf.index?_position hj.2
  rw [show position order q.1 = position order p.1 from hsame, hf.index?_position hp,
    Option.some.injEq] at hindex
  exact absurd hindex hj.1.ne'

/-- The request for the root is granted, whatever the node holds at first, and makes the node of
every record. -/
theorem request_root_granted (hf : Flattened h.toHeap limits e order { c with typeNames := none })
    (ho : Search h.targets 0 [root] [] order)
    (hn : ∀ k p, order[k]? = some p → Named c limits k (h.cell p.1).content.kind)
    (start : Built) :
    ∃ t, (opened c limits).request rebuildSchema (codec e)
        (.root (h.cell root).content.kind start) =
          (.ok (place (copied h.toHeap order) .root), t) ∧
      Materialized e c limits (copied h.toHeap order) (copied h.toHeap order) [] t := by
  have hsearch : Search (linksAt e c) 0 [refOf h.toHeap order root] [] (copied h.toHeap order) :=
    hf.search ho
  rw [show refOf h.toHeap order root = (.root, (h.cell root).content.kind) by
    rw [refOf, position_root ho]] at hsearch
  have hsize : c.records.length = order.length := hf.size
  have hfull : c.isEmpty = false := by
    rw [Container.isEmpty, List.isEmpty_eq_false_iff, ← List.length_pos_iff, hsize]
    exact (List.getElem?_eq_some_iff.1 ho.first).1
  have hends := request_root_ends limits hsearch hfull (h.strict root) start
  rwa [hf.objections hn] at hends

theorem request_root_start (hf : Flattened h.toHeap limits e order c)
    (ho : Search h.targets 0 [root] [] order) (start : Built) :
    ∃ t, (opened c limits).request rebuildSchema (codec e)
        (.root (h.cell root).content.kind start) =
          (.ok (place (copied h.toHeap order) .root), t) ∧
      Materialized e c limits (copied h.toHeap order) (copied h.toHeap order) [] t := by
  have hunnamed : ({ c with typeNames := none } : Container) = c := by rw [← hf.names]
  refine request_root_granted (hunnamed ▸ hf) ho (fun k p _ _ name hname => ?_) start
  simp [Container.typeName?, hf.names] at hname

theorem request_root (hf : Flattened h.toHeap limits e order c)
    (ho : Search h.targets 0 [root] [] order) :
    ∃ t, (opened c limits).request rebuildSchema (codec e)
        (.root (h.cell root).content.kind (.empty (h.cell root).content.kind)) =
          (.ok (place (copied h.toHeap order) .root), t) ∧
      Materialized e c limits (copied h.toHeap order) (copied h.toHeap order) [] t :=
  hf.request_root_start ho (.empty (h.cell root).content.kind)

theorem idxOf_eq (hf : Flattened h.toHeap limits e order c) (hk : order[k]? = some p) :
    (order.map Prod.fst).idxOf p.1 = k :=
  Graph.idxOf_of_prefix hf.nodup List.prefix_rfl (by rw [List.getElem?_map, hk]; rfl)

/-- The original nodes and their copies are in the same places. -/
theorem place_position (hf : Flattened h.toHeap limits e order c)
    (ho : Search h.targets 0 [root] [] order) {t : Rebuilding}
    (hm : Materialized e c limits (copied h.toHeap order) (copied h.toHeap order) [] t) {a : Nat}
    (ha : Reaches h.targets root a) :
    place (copied h.toHeap order) (position order a) = (order.map Prod.fst).idxOf a := by
  obtain ⟨k, p, hk, rfl⟩ := exists_position ho ha
  rw [hf.idxOf_eq hk]
  exact hm.place_eq (getElem?_copied h.toHeap hk)

theorem bijOn_idxOf (hf : Flattened h.toHeap limits e order c)
    (ho : Search h.targets 0 [root] [] order) :
    Set.BijOn (fun a => (order.map Prod.fst).idxOf a) {a | Reaches h.targets root a}
      {n | n < order.length} := by
  refine ⟨?_, ?_, ?_⟩
  · intro a ha
    obtain ⟨k, p, hk, rfl⟩ := exists_position ho ha
    obtain ⟨hlt, -⟩ := List.getElem?_eq_some_iff.1 hk
    show (order.map Prod.fst).idxOf p.1 < order.length
    rwa [hf.idxOf_eq hk]
  · intro a ha b hb hab
    obtain ⟨i, p, hi, rfl⟩ := exists_position ho ha
    obtain ⟨j, q, hj, rfl⟩ := exists_position ho hb
    have hij : i = j := (hf.idxOf_eq hi).symm.trans (Eq.trans hab (hf.idxOf_eq hj))
    rw [hij, hj] at hi
    rw [Option.some.inj hi]
  · intro n hn
    have hk := List.getElem?_eq_getElem (show n < order.length from hn)
    refine ⟨order[n].1, ?_, hf.idxOf_eq hk⟩
    obtain ⟨a, ha, hr⟩ := ho.reaches (List.mem_map_of_mem (List.mem_of_getElem? hk))
    rwa [List.mem_singleton.1 ha] at hr

/-- The session has made a node for each one that the root leads to, in the order of the pass. -/
theorem isomorphic (hf : Flattened h.toHeap limits e order c)
    (ho : Search h.targets 0 [root] [] order) {t : Rebuilding}
    (hm : Materialized e c limits (copied h.toHeap order) (copied h.toHeap order) [] t) :
    Isomorphic h.toHeap root t (place (copied h.toHeap order) .root)
      fun a => (order.map Prod.fst).idxOf a := by
  constructor
  · rw [hm.size, copied, List.length_map]
    exact hf.bijOn_idxOf ho
  · rw [← position_root ho]
    exact (hf.place_position ho hm .refl).symm
  · intro a ha
    obtain ⟨k, p, hk, rfl⟩ := exists_position ho ha
    obtain ⟨⟨kind, content, busy⟩, hn, rfl, rfl, hcontent⟩ :=
      hm.nodes k _ (getElem?_copied h.toHeap hk)
    obtain rfl := hcontent List.not_mem_nil
    have hnumber := hf.position_ne_nil ho (List.mem_map_of_mem (List.mem_of_getElem? hk))
    have hmove : (h.cell p.1).content.move
        (fun b => place (copied h.toHeap order) (position order b)) =
        (h.cell p.1).content.move fun b => (order.map Prod.fst).idxOf b :=
      Content.move_congr fun b hb => hf.place_position ho hm (ha.tail hb)
    rw [hf.idxOf_eq hk, hn, ← hmove, ← Record.toContent_toRecord hnumber]
    simp only [builtAt, hf.recordAt?_refOf hk]
    rfl
  · unfold Rebuild.Session.materializedCount
    rw [hm.filled, hm.size]

end Flattened

/-- What a pass flattens, a session rebuilds: the same graph up to the places of its nodes. -/
theorem rebuild_isomorphic (h : TypedHeap) (limits : Limits) (e : Encoding) (root : Nat)
    {id : RecordId} {s : Flatten.Session Nat Record} {c : Container}
    (hs : Flatten.Session.serialize flattenSchema h.cell root { limits } = (.ok id, s))
    (hc : s.intoContainer (codec e) false = .ok c) :
    ∃ s₀, Rebuild.Session.start c limits = .ok s₀ ∧ ∃ node t,
      s₀.request rebuildSchema (codec e)
        (.root (h.cell root).content.kind (.empty (h.cell root).content.kind)) = (.ok node, t) ∧
      ∃ f, Isomorphic h.toHeap root t node f := by
  obtain ⟨order, ho⟩ := h.exists_search root
  have hclear : firstFault (pass h.cell limits order).check [] order = none := by
    cases hfault : firstFault (pass h.cell limits order).check [] order with
    | none => rfl
    | some fault =>
      have hrefused := serialize_of_fault ho hfault
      rw [hs] at hrefused
      cases hrefused
  obtain ⟨s', hs', hnumbered⟩ := serialize_of_clear ho hclear
  rw [hs] at hs'
  cases hs'
  obtain ⟨hpacked, hnames⟩ := Flatten.Session.packed_of_intoContainer hc
  have hf := flattened_of_packed ho hclear hnumbered hpacked (hnames rfl)
  obtain ⟨t, hrequest, hm⟩ := hf.request_root ho
  exact ⟨_, hf.start_eq, _, t, hrequest, _, hf.isomorphic ho hm⟩

def ownedDeck : TypedHeap := Heap.typed (.ofContents (Fixtures.withDeck "a" 1 "b"))
  (by decide +kernel)

theorem isomorphic_ownedDeck : ∃ id s c,
    Flatten.Session.serialize flattenSchema ownedDeck.cell 0 { limits := {} } = (.ok id, s) ∧
    s.intoContainer (codec .cbor) false = .ok c ∧
    ∃ s₀, Rebuild.Session.start c {} = .ok s₀ ∧ ∃ node t,
      s₀.request rebuildSchema (codec .cbor)
        (.root (ownedDeck.cell 0).content.kind (.empty (ownedDeck.cell 0).content.kind)) =
          (.ok node, t) ∧
      ∃ f, Isomorphic ownedDeck.toHeap 0 t node f := by
  have hid : (Flatten.Session.serialize flattenSchema ownedDeck.cell 0 { limits := {} }).1 =
      .ok .root := by decide +kernel
  have hok : ((Flatten.Session.serialize flattenSchema ownedDeck.cell 0
      { limits := {} }).2.intoContainer (codec .cbor) false).isOk = true := by decide +kernel
  rcases hc : (Flatten.Session.serialize flattenSchema ownedDeck.cell 0
    { limits := {} }).2.intoContainer (codec .cbor) false with fault | c
  · rw [hc] at hok
    cases hok
  · exact ⟨_, _, c, Prod.ext hid rfl, hc,
      rebuild_isomorphic ownedDeck {} .cbor 0 (Prod.ext hid rfl) hc⟩

end Flattened

end ObjectGraph.Catalog
