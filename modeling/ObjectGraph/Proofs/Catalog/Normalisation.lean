import ObjectGraph.Proofs.Catalog.Canonical
import ObjectGraph.Proofs.Flatten.Growth

/-! Flattening what was rebuilt. A session leaves its nodes in the order in which a pass discovers
them, so that pass packs the records that were read, each once and in that order, and rebuilding
them changes nothing more (`reserialize_normalises`). -/
namespace ObjectGraph.Catalog

open ObjectGraph.Graph (Reaches Search firstFault)
open Flatten (Session)
open Rebuild (Address)

def Rebuilding.heap (s : Rebuilding) : Heap :=
  ⟨s.nodes.map fun n =>
    { content := n.content.item, borrow := if n.busy then .exclusive else .free }⟩

theorem cell_heap {s : Rebuilding} {k : Nat} {n : Rebuild.Node Kind Built}
    (hn : s.nodes[k]? = some n) : s.heap.cell k =
      { content := n.content.item, borrow := if n.busy then .exclusive else .free } := by
  simp [Rebuilding.heap, Heap.cell, Array.getD_eq_getD_getElem?, hn]

theorem content_heap_of_none {s : Rebuilding} {k : Nat} (hn : s.nodes[k]? = none) :
    (s.heap.cell k).content = .empty .peer := by
  simp [Rebuilding.heap, Heap.cell, Array.getD_eq_getD_getElem?, hn]

/-- A session after a request for its root was granted. -/
structure Rebuilt (e : Encoding) (c : Container) (limits : Limits) (kind : Kind)
    (whole : List (Ref × Nat)) (t : Rebuilding) : Prop where
  strict : kind ≠ .lenient
  room : c.size ≤ limits.maxRecords.toNat
  search : Search (linksAt e c) 0 [(.root, kind)] [] whole
  clear : firstFault (objection e c limits) [] whole = none
  made : Materialized e c limits whole whole [] t

section Sessions

variable {e : Encoding} {c : Container} {limits : Limits} {kind : Kind} {t : Rebuilding}

theorem exists_rebuilt (hv : c.validate limits = .ok ()) (hk : kind ≠ .lenient) {start : Built}
    {node : Address} (hr : (opened c limits).request rebuildSchema (codec e) (.root kind start) =
      (.ok node, t)) :
    ∃ whole, Rebuilt e c limits kind whole t ∧ node = place whole .root ∧ c.isEmpty = false := by
  have hfull : c.isEmpty = false := by
    by_contra hempty
    rw [request_root_empty (Bool.not_eq_false _ ▸ hempty)] at hr
    cases hr
  obtain ⟨whole, hsearch⟩ := exists_search_refs e c [(.root, kind)]
  have hends := request_root_ends limits hsearch hfull hk start
  cases hfault : firstFault (objection e c limits) [] whole with
  | some fault =>
    rw [hfault] at hends
    obtain ⟨u, hrequest⟩ := hends
    rw [hrequest] at hr
    cases hr
  | none =>
    rw [hfault] at hends
    obtain ⟨u, hrequest, hm⟩ := hends
    rw [hrequest] at hr
    cases hr
    exact ⟨whole, ⟨hk, Container.size_le_of_validate hv, hsearch, hfault, hm⟩, rfl, hfull⟩

end Sessions

namespace Rebuilt

variable {e : Encoding} {c : Container} {limits : Limits} {kind : Kind}
  {whole : List (Ref × Nat)} {t : Rebuilding} {k : Nat} {p : Ref × Nat}

/-- The session has accepted every record that it has read. -/
theorem accepted (h : Rebuilt e c limits kind whole t) (hk : whole[k]? = some p) :
    ∃ index bytes r, p.1.1.index? = some index ∧ c.records[index]? = some bytes ∧
      (codec e).decode 0 p.1.2 bytes = .ok r ∧ p.2 < limits.maxDepth.toNat := by
  obtain ⟨index, bytes, r, hi, -, hb, -, hd, hdepth⟩ :=
    (objection_eq_none e c limits).1 (Graph.firstFault_eq_none.1 h.clear k p hk)
  exact ⟨index, bytes, r, hi, hb, hd, hdepth⟩

theorem exists_record (h : Rebuilt e c limits kind whole t) (hk : whole[k]? = some p) :
    ∃ r, recordAt? e c p.1 = some r ∧ r.kind = p.1.2 := by
  obtain ⟨index, bytes, r, hi, hb, hd, -⟩ := h.accepted hk
  have hr : recordAt? e c p.1 = some r := by simp [recordAt?, hi, hb, hd, Except.toOption]
  exact ⟨r, hr, kind_recordAt? e c hr⟩

/-- No more nodes are made than there are records. -/
theorem length_le (h : Rebuilt e c limits kind whole t) : whole.length ≤ c.size := by
  have hnumbers : ∀ id ∈ whole.map (fun p => p.1.1), ∃ index, id.index? = some index ∧
      index < c.size := by
    intro id hid
    obtain ⟨p, hp, rfl⟩ := List.mem_map.1 hid
    obtain ⟨k, hk⟩ := List.mem_iff_getElem?.1 hp
    obtain ⟨index, bytes, -, hi, hb, -, -⟩ := h.accepted hk
    exact ⟨index, hi, (List.getElem?_eq_some_iff.1 hb).1⟩
  simpa using RecordId.length_le_of_index? h.made.ids_nodup hnumbers

/-- The node at a position holds what its record denotes, and is not being filled. -/
theorem exists_cell (h : Rebuilt e c limits kind whole t) (hk : whole[k]? = some p) :
    ∃ r, recordAt? e c p.1 = some r ∧ r.kind = p.1.2 ∧ t.heap.cell k =
      { content := r.toContent (place whole), borrow := .free } := by
  obtain ⟨r, hr, hkind⟩ := h.exists_record hk
  obtain ⟨n, hn, -, hbusy, hcontent⟩ := h.made.nodes k p hk
  refine ⟨r, hr, hkind, ?_⟩
  rw [cell_heap hn, hbusy, hcontent List.not_mem_nil, builtAt, hr]
  rfl

/-- Only nodes of the catalog's strict kinds are made. -/
theorem strict_of_mem (h : Rebuilt e c limits kind whole t) {ref : Ref}
    (hr : ref ∈ whole.map Prod.fst) : ref.2 ≠ .lenient := by
  obtain ⟨first, hfirst, hreach⟩ := h.search.reaches hr
  obtain rfl := List.mem_singleton.1 hfirst
  clear hr hfirst
  induction hreach with
  | refl => exact h.strict
  | tail _ hlink ih => exact strict_linksAt e c ih _ hlink

theorem place_eq (h : Rebuilt e c limits kind whole t) (hk : whole[k]? = some p) :
    place whole p.1.1 = k :=
  h.made.place_eq hk

theorem cell_of_none (h : Rebuilt e c limits kind whole t) (hk : whole[k]? = none) :
    (t.heap.cell k).content = .empty .peer := by
  apply content_heap_of_none
  rw [Array.getElem?_eq_none_iff, h.made.size]
  exact List.getElem?_eq_none_iff.1 hk

def typed (h : Rebuilt e c limits kind whole t) : TypedHeap where
  toHeap := t.heap
  strict k := by
    cases hk : whole[k]? with
    | none => simp [h.cell_of_none hk]
    | some p =>
      obtain ⟨r, -, hkind, hcell⟩ := h.exists_cell hk
      rw [hcell, Record.kind_toContent, hkind]
      exact h.strict_of_mem (List.mem_map_of_mem (List.mem_of_getElem? hk))
  typed k d hd := by
    cases hk : whole[k]? with
    | none =>
      rw [h.cell_of_none hk] at hd
      cases hd
    | some p =>
      have hp : p.1 ∈ whole.map Prod.fst := List.mem_map_of_mem (List.mem_of_getElem? hk)
      obtain ⟨r, hr, hkind, hcell⟩ := h.exists_cell hk
      have hstrict : r.kind ≠ .lenient := hkind ▸ h.strict_of_mem hp
      rw [hcell, Record.demands_toContent hstrict] at hd
      obtain ⟨link, hlink, rfl⟩ := List.mem_map.1 hd
      have hlinks : link ∈ linksAt e c p.1 := by simpa [linksAt, hr] using hlink
      obtain ⟨j, q, hj, rfl⟩ := Graph.exists_getElem?_of_mem (h.search.closed hp hlinks)
      obtain ⟨r', -, hkind', hcell'⟩ := h.exists_cell hj
      rw [Prod.map_fst, h.place_eq hj, hcell', Record.kind_toContent, hkind']
      rfl

def order (whole : List (Ref × Nat)) : List (Nat × Nat) :=
  whole.map (Prod.map (fun ref => place whole ref.1) id)

theorem getElem?_order (h : Rebuilt e c limits kind whole t) (hk : whole[k]? = some p) :
    (order whole)[k]? = some (k, p.2) := by
  simp only [order, List.getElem?_map, hk, Option.map_some, Prod.map, h.place_eq hk, id_eq]

/-- A pass over the rebuilt nodes discovers them in the order in which they were made. -/
theorem searches (h : Rebuilt e c limits kind whole t) :
    Search h.typed.targets 0 [place whole .root] [] (order whole) := by
  have hinjective : Set.InjOn (fun ref : Ref => place whole ref.1) {a | a ∈ whole.map Prod.fst} := by
    rintro a ha b hb hab
    obtain ⟨i, p, hi, rfl⟩ := Graph.exists_getElem?_of_mem ha
    obtain ⟨j, q, hj, rfl⟩ := Graph.exists_getElem?_of_mem hb
    simp only [h.place_eq hi, h.place_eq hj] at hab
    rw [hab, hj] at hi
    rw [Option.some.inj hi]
  have htargets : ∀ ref ∈ whole.map Prod.fst, h.typed.targets (place whole ref.1) =
      (linksAt e c ref).map fun link => place whole link.1 := by
    intro ref hr
    obtain ⟨k, p, hk, rfl⟩ := Graph.exists_getElem?_of_mem hr
    obtain ⟨r, hrecord, hkind, hcell⟩ := h.exists_cell hk
    have hstrict : r.kind ≠ .lenient := hkind ▸ h.strict_of_mem hr
    rw [h.place_eq hk, show h.typed.targets k = (t.heap.cell k).content.targets from rfl, hcell,
      ← Content.map_fst_demands, Record.demands_toContent hstrict, List.map_map]
    simp [linksAt, hrecord]
  exact h.search.map _ (by simpa using hinjective) htargets

/-- A pass reaches every node that was made. -/
theorem reaches_iff (h : Rebuilt e c limits kind whole t) (a : Nat) :
    Reaches t.heap.targets (place whole .root) a ↔ a < t.nodes.size := by
  have hmem := h.searches.mem_iff_reaches a
  simp only [List.mem_singleton, exists_eq_left] at hmem
  rw [show Reaches t.heap.targets (place whole .root) a ↔ a ∈ (order whole).map Prod.fst from
    hmem.symm, h.made.size]
  constructor
  · intro ha
    obtain ⟨k, p, hk, rfl⟩ := Graph.exists_getElem?_of_mem ha
    obtain ⟨hlt, -⟩ := List.getElem?_eq_some_iff.1 hk
    rw [order, List.length_map] at hlt
    rw [h.getElem?_order (List.getElem?_eq_getElem hlt)] at hk
    obtain rfl := Option.some.inj hk
    exact hlt
  · intro ha
    exact List.mem_map_of_mem (List.mem_of_getElem?
      (h.getElem?_order (List.getElem?_eq_getElem ha)))

/-- A pass over the rebuilt nodes meets no violation. -/
theorem clear_pass (h : Rebuilt e c limits kind whole t) :
    firstFault (pass h.typed.cell limits (order whole)).check [] (order whole) = none := by
  apply Graph.firstFault_eq_none.2
  intro k p hk
  obtain ⟨hlt, -⟩ := List.getElem?_eq_some_iff.1 hk
  have hwhole : k < whole.length := by simpa [order] using hlt
  have hat := List.getElem?_eq_getElem hwhole
  rw [h.getElem?_order hat] at hk
  obtain rfl := Option.some.inj hk
  obtain ⟨-, -, -, -, -, -, hdepth⟩ := h.accepted hat
  obtain ⟨r, -, -, hcell⟩ := h.exists_cell hat
  -- The container may hold its records in any order and more of them than are read.
  have hroom := h.length_le.trans h.room
  simp only [pass, List.nil_append, List.length_take, hlt.le, inf_of_le_left]
  refine violation_eq_none.2 ⟨hdepth, by omega, ?_⟩
  rw [show h.typed.cell k = t.heap.cell k from rfl, hcell]
  rfl

end Rebuilt

section Passes

variable {e : Encoding} {limits : Limits}

/-- A graph and what is rebuilt from its container are alike. -/
theorem Flattened.alike_rebuilt {h : TypedHeap} {order : List (Nat × Nat)} {c : Container}
    {root : Nat} (hf : Flattened h.toHeap limits e order c)
    (ho : Search h.targets 0 [root] [] order) {start : Built} {node : Address} {t : Rebuilding}
    (hr : (opened c limits).request rebuildSchema (codec e)
      (.root (h.cell root).content.kind start) = (.ok node, t)) :
    ∃ f, Alike h.toHeap root t.heap node f := by
  obtain ⟨t', hrequest, hm⟩ := hf.request_root_start ho start
  rw [hr] at hrequest
  cases hrequest
  obtain ⟨whole, hre, hnode, -⟩ := exists_rebuilt (validate_of_start hf.start_eq) (h.strict root) hr
  have hi := hf.isomorphic ho hm
  have hreached : {a | Reaches t.heap.targets (place (copied h.toHeap order) .root) a} =
      {a | a < t.nodes.size} := by
    ext a
    rw [hnode]
    exact hre.reaches_iff a
  refine ⟨_, hreached ▸ hi.bijective, hi.top, fun a ha => ?_, fun a ha => ?_⟩
  · rw [cell_heap (hi.nodes a ha)]
  · obtain ⟨k, p, hk, rfl⟩ := exists_position ho ha
    rw [cell_heap (hi.nodes p.1 ha), (violation_eq_none.1 (hf.clear k p hk)).2.2]
    rfl

/-- What is rebuilt from the container of a graph is packed into that container again. -/
theorem Flattened.repack {h : TypedHeap} {order : List (Nat × Nat)} {c : Container}
    {root : Nat} (hf : Flattened h.toHeap limits e order c)
    (ho : Search h.targets 0 [root] [] order) {start : Built} {node : Address} {t : Rebuilding}
    (hr : (opened c limits).request rebuildSchema (codec e)
      (.root (h.cell root).content.kind start) = (.ok node, t)) :
    (Session.serialize flattenSchema t.heap.cell node { limits }).1 =
        (Session.serialize flattenSchema h.cell root { limits }).1 ∧
      (Session.serialize flattenSchema t.heap.cell node { limits }).2.intoContainer (codec e) false =
        (Session.serialize flattenSchema h.cell root { limits }).2.intoContainer (codec e) false := by
  obtain ⟨f, ha⟩ := hf.alike_rebuilt ho hr
  rw [ha.serialize_eq limits]
  exact ⟨rfl, Session.intoContainer_rename ..⟩

variable {c c' : Container} {kind : Kind} {whole : List (Ref × Nat)} {t : Rebuilding}

theorem Rebuilt.serialize_ok (h : Rebuilt e c limits kind whole t) :
    ∃ u, Session.serialize flattenSchema t.heap.cell (place whole .root) { limits } =
      (.ok .root, u) := by
  obtain ⟨u, hu, -⟩ := serialize_of_clear h.searches h.clear_pass
  exact ⟨u, hu⟩

theorem Rebuilt.kind_root (h : Rebuilt e c limits kind whole t) :
    (t.heap.cell (place whole .root)).content.kind = kind := by
  have hfirst := h.search.first
  obtain ⟨r, -, hkind, hcell⟩ := h.exists_cell hfirst
  rw [show place whole .root = 0 from h.place_eq hfirst, hcell, Record.kind_toContent, hkind]

/-- A graph whose container is rebuilt has a root of the kind asked for. -/
theorem Rebuilt.kind_eq {h : TypedHeap} {order : List (Nat × Nat)} {root : Nat}
    (hre : Rebuilt e c limits kind whole t) (hf : Flattened h.toHeap limits e order c)
    (ho : Search h.targets 0 [root] [] order) : kind = (h.cell root).content.kind := by
  obtain ⟨index, bytes, r, hi, hb, hd, -⟩ := hre.accepted hre.search.first
  obtain ⟨bs, hbs, hencode, hlength⟩ := hf.records 0 _ ho.first
  obtain rfl : index = 0 := (Option.some.inj hi).symm
  obtain rfl : bytes = bs := Option.some.inj (hb.symm.trans hbs)
  have hlimit := limits.maxRecordLen.toNat_lt
  exact (kind_of_decode hencode (by omega) hd).trans (Content.kind_toRecord _ _)

def IsTyped (heap : Nat → Flatten.Cell (Content Nat)) : Prop := ∃ h : TypedHeap, h.cell = heap

/-- A container of a pass, whatever became of it, that is not empty shows that pass. -/
theorem exists_flattened {origin : Session Nat Record}
    (ho : Session.Reached flattenSchema IsTyped limits origin)
    (hc : origin.intoContainer (codec e) false = .ok c) (hfull : c.isEmpty = false) :
    ∃ (h : TypedHeap) (root : Nat) (order : List (Nat × Nat)),
      Search h.targets 0 [root] [] order ∧ Flattened h.toHeap limits e order c ∧
      (Session.serialize flattenSchema h.cell root { limits }).2 = origin := by
  obtain rfl | ⟨heap, root, ⟨h, rfl⟩, rfl⟩ := ho.eq_first
  · cases hc
    cases hfull
  · rcases hpass : Session.serialize flattenSchema h.cell root { limits } with ⟨fault | id, u⟩ <;>
      rw [hpass] at hc
    · rw [Session.isEmpty_of_refused flattenSchema h.cell hpass hc] at hfull
      cases hfull
    · obtain ⟨order, hsearch⟩ := h.exists_search root
      exact ⟨h, root, order, hsearch, flattened_of_unnamed hsearch hpass hc, by rw [hpass]⟩

/-- Flattening what was rebuilt normalises a container: the result is rebuilt and flattened to
itself, holds as many records as were read, and is the container itself if that came from a pass. -/
theorem reserialize_normalises {s : Rebuilding} {start : Built} {node : Address}
    (hs : Rebuild.Session.start c limits = .ok s) (hk : kind ≠ .lenient)
    (hr : s.request rebuildSchema (codec e) (.root kind start) = (.ok node, t))
    (hc : (Session.serialize flattenSchema t.heap.cell node { limits }).2.intoContainer
      (codec e) false = .ok c') :
    c'.size = t.materializedCount ∧
    (∃ s', Rebuild.Session.start c' limits = .ok s' ∧ ∀ start' : Built,
      ∃ (node' : Address) (t' : Rebuilding) (id : RecordId) (u : Session Nat Record),
        s'.request rebuildSchema (codec e) (.root kind start') = (.ok node', t') ∧
        Session.serialize flattenSchema t'.heap.cell node' { limits } = (.ok id, u) ∧
        u.intoContainer (codec e) false = .ok c') ∧
    ∀ origin : Session Nat Record, Session.Reached flattenSchema IsTyped limits origin →
      origin.intoContainer (codec e) false = .ok c → c' = c := by
  obtain rfl := start_eq hs
  obtain ⟨whole, hre, rfl, hfull⟩ := exists_rebuilt (validate_of_start hs) hk hr
  obtain ⟨u, hu⟩ := hre.serialize_ok
  have hf : Flattened hre.typed.toHeap limits e (Rebuilt.order whole) c' :=
    flattened_of_unnamed hre.searches hu (by rwa [hu] at hc)
  refine ⟨?_, ⟨_, hf.start_eq, fun start' => ?_⟩, fun origin ho horigin => ?_⟩
  · rw [hf.size, Rebuilt.order, List.length_map]
    exact hre.made.filled.symm
  · obtain ⟨t', hrequest, -⟩ := hf.request_root_start hre.searches start'
    obtain ⟨hanswer, hcontainer⟩ := hf.repack hre.searches hrequest
    rw [show (hre.typed.cell (place whole .root)).content.kind = kind from hre.kind_root]
      at hrequest
    have hok : (Session.serialize flattenSchema t.heap.cell (place whole .root) { limits }).1 =
        .ok .root := by rw [hu]
    exact ⟨_, t', .root, _, hrequest, Prod.ext (hanswer.trans hok) rfl, hcontainer.trans hc⟩
  · obtain ⟨h, root, order, hsearch, hflat, rfl⟩ := exists_flattened ho horigin hfull
    obtain rfl := hre.kind_eq hflat hsearch
    have hsame := (hflat.repack hsearch hr).2
    rw [hc, horigin] at hsame
    exact Except.ok.inj hsame

/-- Two vertices as records 0 and 2, the second with a field that no vertex has, and a record that
neither refers to. -/
def strayed : Container where
  records := ["\x7b\"tag\":7,\"edges\":[2,2]\x7d", "null",
    "\x7b\"mark\":[1,\"a\"],\"edges\":[0],\"tag\":9\x7d"].map Utf8.ofString

def tidied : Container where
  records := ["\x7b\"tag\":7,\"edges\":[1,1]\x7d", "\x7b\"tag\":9,\"edges\":[0]\x7d"].map
    Utf8.ofString

def vertexPair : TypedHeap :=
  Heap.typed (.ofContents [.vertex 7 [1, 1], .vertex 9 [0]]) (by decide +kernel)

/-- The session on a container once the vertex at its root is rebuilt. -/
def vertexOf (c : Container) : Rebuilding :=
  ((opened c {}).request rebuildSchema (codec .json) (.root .vertex (.empty .vertex))).2

theorem request_vertexOf {c : Container} {node : Address}
    (h : ((opened c {}).request rebuildSchema (codec .json) (.root .vertex (.empty .vertex))).1 =
      .ok node) :
    (opened c {}).request rebuildSchema (codec .json) (.root .vertex (.empty .vertex)) =
      (.ok node, vertexOf c) :=
  Prod.ext h rfl

theorem reserialize_strayed :
    ((opened strayed {}).request rebuildSchema (codec .json) (.root .vertex (.empty .vertex))).1 =
      .ok (0 : Address) ∧
    (Session.serialize flattenSchema (vertexOf strayed).heap.cell 0 { limits := {} }).2.intoContainer
      (codec .json) false = .ok tidied ∧
    tidied.size = (vertexOf strayed).materializedCount ∧
    (Session.serialize flattenSchema (vertexOf tidied).heap.cell 0 { limits := {} }).2.intoContainer
      (codec .json) false = .ok tidied := by
  have hopens : ∀ c : Container, c.validate {} = .ok () →
      Rebuild.Session.start c {} = .ok (opened c {}) := by
    intro c hv
    simp [Rebuild.Session.start, hv, opened]
  have hstrict : Kind.vertex ≠ .lenient := by decide
  have hs := hopens strayed (by decide +kernel)
  have hs' := hopens tidied (by decide +kernel)
  have hnode : ((opened strayed {}).request rebuildSchema (codec .json)
      (.root .vertex (.empty .vertex))).1 = .ok (0 : Address) := by decide +kernel
  have hnode' : ((opened tidied {}).request rebuildSchema (codec .json)
      (.root .vertex (.empty .vertex))).1 = .ok (0 : Address) := by decide +kernel
  have hpacked : (Session.serialize flattenSchema (vertexOf strayed).heap.cell 0
      { limits := {} }).2.intoContainer (codec .json) false = .ok tidied := by decide +kernel
  have hok : ((Session.serialize flattenSchema (vertexOf tidied).heap.cell 0
      { limits := {} }).2.intoContainer (codec .json) false).isOk = true := by decide +kernel
  have horigin : (Session.serialize flattenSchema vertexPair.cell 0 { limits := {} }).2.intoContainer
      (codec .json) false = .ok tidied := by decide +kernel
  obtain ⟨hsize, -, -⟩ := reserialize_normalises hs hstrict (request_vertexOf hnode) hpacked
  refine ⟨hnode, hpacked, hsize, ?_⟩
  cases hc : (Session.serialize flattenSchema (vertexOf tidied).heap.cell 0
      { limits := {} }).2.intoContainer (codec .json) false with
  | error fault =>
    rw [hc] at hok
    cases hok
  | ok c =>
    obtain ⟨-, -, hsame⟩ := reserialize_normalises hs' hstrict (request_vertexOf hnode') hc
    rw [hsame _ (.call 0 ⟨vertexPair, rfl⟩ .opened) horigin]

end Passes
end ObjectGraph.Catalog
