import ObjectGraph.Proofs.Catalog.Discovery

/-! What a session holds after requests that were all granted, on any container: one node for each
record that the requests lead to, filled as the record says (`Serves.materialized`). -/
namespace ObjectGraph.Catalog

open ObjectGraph.Graph (Reaches Runs Search Walk firstFault)
open Rebuild (Address Call Session)
open Rebuild.Session (resolve)

def requested : Call Kind Built → List Ref
  | .root kind _ => [(.root, kind)]
  | .resolve kind id _ => Record.optional kind id
  | .required kind id => [(id, kind)]
  | .all kind ids => ids.map (·, kind)

/-- The answer to a request where every number has its node. -/
def answerAt (place : RecordId → Address) : (c : Call Kind Built) → c.Answer
  | .root .. => place .root
  | .resolve _ id _ => if id.isNil then none else some (place id)
  | .required _ id => place id
  | .all _ ids => ids.map place

structure Grant where
  call : Call Kind Built
  answer : call.Answer

/-- A session grants requests from outside, one after another. -/
inductive Serves (e : Encoding) : List Grant → Rebuilding → Rebuilding → Prop
  | done (s : Rebuilding) : Serves e [] s s
  | next {c : Call Kind Built} {x : c.Answer} {grants : List Grant} {s t u : Rebuilding}
      (h : s.request rebuildSchema (codec e) c = (.ok x, t)) (rest : Serves e grants t u) :
      Serves e (⟨c, x⟩ :: grants) s u

theorem Serves.of_answer {e : Encoding} {c : Call Kind Built} {x : c.Answer} {grants : List Grant}
    {s t : Rebuilding} (h : (s.request rebuildSchema (codec e) c).1 = .ok x)
    (rest : Serves e grants (s.request rebuildSchema (codec e) c).2 t) :
    Serves e (⟨c, x⟩ :: grants) s t :=
  .next (Prod.ext h rfl) rest

/-- The node of a number. One that has none is given the address behind the last node. -/
def Rebuilding.nodeAt (s : Rebuilding) (id : RecordId) : Address :=
  ((s.table.entry? id).map Prod.snd).getD s.nodes.size

/-- A reference leads to a record that some request leads to. -/
def Demanded (e : Encoding) (container : Container) (grants : List Grant) (ref : Ref) : Prop :=
  ∃ start ∈ grants.flatMap fun g => requested g.call, Reaches (linksAt e container) start ref

/-- A session holds what the records denote: its nodes are those of the records demanded, each
filled from its record, and every resolution gave the node of its number. -/
structure Denotes (e : Encoding) (container : Container) (grants : List Grant) (s : Rebuilding) :
    Prop where
  entries : ∀ id kind node, s.table.entry? id = some (kind, node) ↔
    Demanded e container grants (id, kind) ∧ node = s.nodeAt id
  distinct : ∀ a b, Demanded e container grants a → Demanded e container grants b →
    s.nodeAt a.1 = s.nodeAt b.1 → a = b
  nodes : ∀ ref, Demanded e container grants ref → ∃ r, recordAt? e container ref = some r ∧
    s.nodes[s.nodeAt ref.1]? = some ⟨ref.2, ⟨r.toContent s.nodeAt, []⟩, false⟩
  resolved : ∀ id answer, .resolved id answer ∈ s.trace → id = .nil ∧ answer = none ∨
    ∃ kind, Demanded e container grants (id, kind) ∧ answer = some (s.nodeAt id)
  answers : ∀ g ∈ grants, g.answer = answerAt s.nodeAt g.call
  count : s.materializedCount = {id | ∃ kind, Demanded e container grants (id, kind)}.ncard
  size : s.nodes.size = s.materializedCount

section Requests

variable {e : Encoding} {container : Container} {limits : Limits}
  {whole seen found : List (Ref × Nat)} {s t : Rebuilding} {c : Call Kind Built} {x : c.Answer}

theorem request_root_empty (he : s.container.isEmpty = true) (kind : Kind) (start : Built) :
    s.request rebuildSchema (codec e) (.root kind start) =
      (.error .emptyContainer, s.note (.refused .emptyContainer s.failed)) := by
  simp [Session.request, Session.perform, Session.answer, he]

variable (e) in
/-- A request for the root visits its reference. -/
theorem request_root_eq (hc : s.container.isEmpty = false) (kind : Kind) (start : Built) :
    s.request rebuildSchema (codec e) (.root kind start) =
      match visitRef e (fun _ => start) s.limits.maxDepth.toNat (.root, kind) s with
      | (.error fault, t) => (.error fault, t.note (.refused fault t.failed))
      | (.ok node, t) => (.ok node, t) := by
  simp only [Session.request, Session.perform, Session.answer, hc, Bool.false_eq_true, if_false,
    visitRef]
  rcases hr : resolve rebuildSchema (codec e) s.limits.maxDepth.toNat kind .root start s with
    ⟨fault | node | node, t⟩
  · rfl
  · exact absurd ((Session.poisons_resolve rebuildSchema (codec e) _).absent hr) (by decide)
  · rfl

theorem visitRef_of_root {kind : Kind} {start : Built} {node : Address}
    (h : s.request rebuildSchema (codec e) (.root kind start) = (.ok node, t)) :
    visitRef e (fun _ => start) s.limits.maxDepth.toNat (.root, kind) s = (.ok node, t) := by
  cases hempty : s.container.isEmpty with
  | true =>
    rw [request_root_empty hempty] at h
    cases h
  | false =>
    rw [request_root_eq e hempty] at h
    rcases hv : visitRef e (fun _ => start) s.limits.maxDepth.toNat (.root, kind) s with
      ⟨fault | node', u⟩ <;> rw [hv] at h <;> cases h
    rfl

theorem visitRef_of_resolve {kind : Kind} {id : RecordId} {start : Built} {answer : Option Address}
    (hid : id ≠ .nil)
    (h : s.request rebuildSchema (codec e) (.resolve kind id start) = (.ok answer, t)) :
    ∃ node, answer = some node ∧
      visitRef e (fun _ => start) s.limits.maxDepth.toNat (id, kind) s = (.ok node, t) := by
  simp only [Session.request, Session.perform, Session.answer] at h
  rcases hr : resolve rebuildSchema (codec e) s.limits.maxDepth.toNat kind id start s with
    ⟨fault | node | node, u⟩ <;> rw [hr] at h <;> cases h
  · exact absurd ((Session.poisons_resolve rebuildSchema (codec e) _).absent hr) hid
  · exact ⟨node, rfl, by simp only [visitRef, hr]⟩

theorem visitRef_of_required {kind : Kind} {id : RecordId} {node : Address}
    (h : s.request rebuildSchema (codec e) (.required kind id) = (.ok node, t)) :
    visitRef e .empty s.limits.maxDepth.toNat (id, kind) s = (.ok node, t) := by
  simp only [Session.request, Session.perform, Session.answer, require_eq_visitRef] at h
  rcases hv : visitRef e .empty s.limits.maxDepth.toNat (id, kind) s with ⟨fault | node', u⟩ <;>
    rw [hv] at h <;> cases h
  rfl

/-- A request that is granted visits what it asks for, in order. -/
theorem runs_of_request (pause : Rebuilding → Rebuilding → Prop) (hrefl : ∀ s, pause s s)
    (hnil : ∀ s, pause s (s.note (.resolved .nil none))) (hs : s.failed = false)
    (h : s.request rebuildSchema (codec e) c = (.ok x, t)) :
    ∃ start nodes, Runs (visitRef e start s.limits.maxDepth.toNat) pause (requested c) s
      (.ok nodes, t) ∧
      ∀ place : RecordId → Address, nodes = (requested c).map (fun r => place r.1) →
        x = answerAt place c := by
  cases c with
  | root kind start =>
    have hvisit := visitRef_of_root h
    exact ⟨_, [x], .granted (hrefl s) hvisit (.done (hrefl t)), fun _ hx => (List.cons.inj hx).1⟩
  | resolve kind id start =>
    by_cases hid : id = .nil
    · subst hid
      have hn := (Session.poisons_resolve rebuildSchema (codec e) s.limits.maxDepth.toNat).nil kind
        start hs
      simp only [Session.request, Session.perform, Session.answer, hn] at h
      cases h
      exact ⟨.empty, [], .done (hnil s), fun _ _ => rfl⟩
    · obtain ⟨node, rfl, hvisit⟩ := visitRef_of_resolve hid h
      rw [requested, Record.optional_of_ne_nil hid]
      refine ⟨_, [node], .granted (hrefl s) hvisit (.done (hrefl t)), ?_⟩
      intro place hx
      obtain rfl : node = place id := by simpa using hx
      simp [answerAt, RecordId.isNil, hid]
  | required kind id =>
    have hvisit := visitRef_of_required h
    exact ⟨_, [x], .granted (hrefl s) hvisit (.done (hrefl t)), fun _ hx => (List.cons.inj hx).1⟩
  | all kind ids =>
    unfold Session.request at h
    rw [perform_all] at h
    have hruns := Runs.of_visitAll (visitRef e .empty s.limits.maxDepth.toNat) hrefl
      (ids.map (·, kind)) s
    rcases hv : Graph.visitAll (visitRef e .empty s.limits.maxDepth.toNat) (ids.map (·, kind)) s
      with ⟨fault | nodes, u⟩ <;> rw [hv] at h hruns <;> cases h
    refine ⟨_, _, hruns, ?_⟩
    intro place hx
    simpa [requested, answerAt, Function.comp_def] using hx

/-- A request that is granted walks through all that it discovers. -/
theorem materialized_of_request (hs : Materialized e container limits whole seen [] s)
    (hk : c.kind ≠ .lenient) (hf : Search (linksAt e container) 0 (requested c) seen found)
    (hp : seen ++ found <+: whole) (h : s.request rebuildSchema (codec e) c = (.ok x, t)) :
    firstFault (objection e container limits) seen found = none ∧
      x = answerAt (place whole) c ∧
      Materialized e container limits whole (seen ++ found) [] t := by
  have hadmits : ∀ ref ∈ requested c, ref.2 ≠ .lenient := by
    intro ref hr
    cases c with
    | resolve kind id start =>
      simp only [requested, Record.optional] at hr
      split at hr
      · cases hr
      · rwa [List.mem_singleton.1 hr]
    | root | required => rwa [List.mem_singleton.1 hr]
    | all =>
      obtain ⟨id, -, rfl⟩ := List.mem_map.1 hr
      exact hk
  obtain ⟨start, nodes, hruns, hanswer⟩ := runs_of_request
    ((rebuilding e container limits whole).Keeps seen []) (Walk.keeps_refl _ _ _)
    (fun s more hm => Materialized.note hm fun id answer he => by
      cases he
      exact .inl ⟨rfl, rfl⟩) hs.failed h
  have hends := Walk.run rebuilding_lawful hf (rebuilding_obeys start _) rfl
    (by rw [hs.limits]; rfl) hadmits List.prefix_rfl hp hs hruns
  exact ⟨hends.1, hanswer _ hends.2.1, hends.2.2⟩

/-- Requests that are granted walk through all that they discover, one after another. -/
theorem Serves.materialized {grants : List Grant} (h : Serves e grants s t)
    (hs : Materialized e container limits whole seen [] s)
    (hk : ∀ g ∈ grants, g.call.kind ≠ .lenient)
    (hf : Search (linksAt e container) 0 (grants.flatMap fun g => requested g.call) seen found)
    (hp : seen ++ found <+: whole) :
    firstFault (objection e container limits) seen found = none ∧
      (∀ g ∈ grants, g.answer = answerAt (place whole) g.call) ∧
      Materialized e container limits whole (seen ++ found) [] t := by
  induction h generalizing seen found with
  | done =>
    cases hf
    exact ⟨rfl, fun _ hg => absurd hg List.not_mem_nil, by simpa using hs⟩
  | next h rest ih =>
    rw [List.flatMap_cons] at hf
    obtain ⟨first, last, rfl, hfirst, hlast⟩ := hf.of_append
    rw [← List.append_assoc] at hp
    obtain ⟨hclear, hanswer, hstage⟩ := materialized_of_request hs (hk _ List.mem_cons_self) hfirst
      ((List.prefix_append _ _).trans hp) h
    obtain ⟨hclear', hanswers, hend⟩ := ih hstage (fun g hg => hk g (List.mem_cons_of_mem _ hg))
      hlast hp
    refine ⟨?_, ?_, by rwa [List.append_assoc] at hend⟩
    · rw [Graph.firstFault_append, hclear, hclear']
      rfl
    · intro g hg
      rcases List.mem_cons.1 hg with rfl | hg
      · exact hanswer
      · exact hanswers g hg

end Requests

section Outcome

variable {e : Encoding} {container : Container} {limits : Limits} {whole : List (Ref × Nat)}
  {grants : List Grant} {s t : Rebuilding}

instance : Finite Ref :=
  have : Finite RecordId := .of_injective (fun id => id.raw.toFin) fun a b h => by
    cases a
    cases b
    exact congrArg RecordId.mk (UInt32.toFin_inj.1 h)
  have : Finite Kind := Set.finite_univ_iff.1 ((Kind.all.finite_toSet).subset fun k _ => k.mem_all)
  inferInstance

/-- References lead to finitely many records. -/
theorem exists_search_refs (e : Encoding) (container : Container) (refs : List Ref) :
    ∃ whole, Search (linksAt e container) 0 refs [] whole :=
  Search.exists_of_finite Set.finite_univ (fun _ _ _ _ => trivial) 0 (fun _ _ => trivial) []

/-- Once all is discovered, every number has its place. -/
theorem Materialized.nodeAt_eq (h : Materialized e container limits whole whole [] s) :
    s.nodeAt = place whole := by
  funext id
  by_cases hid : id ∈ whole.map fun p => p.1.1
  · obtain ⟨p, hp, rfl⟩ := List.mem_map.1 hid
    unfold Rebuilding.nodeAt
    rw [h.exists_entry (List.mem_map_of_mem hp)]
    rfl
  · unfold Rebuilding.nodeAt
    rw [h.entry_eq_none hid, place, List.idxOf_eq_length hid, List.length_map,
      ← h.size]
    rfl

theorem Materialized.entry_iff (h : Materialized e container limits whole whole [] s)
    (id : RecordId) (kind : Kind) (node : Address) :
    s.table.entry? id = some (kind, node) ↔
      (id, kind) ∈ whole.map Prod.fst ∧ node = s.nodeAt id := by
  rw [h.nodeAt_eq]
  constructor
  · intro he
    obtain ⟨depth, hk⟩ := (h.entries id kind node).1 he
    exact ⟨List.mem_map.2 ⟨_, List.mem_of_getElem? hk, rfl⟩, (h.place_eq hk).symm⟩
  · rintro ⟨hr, rfl⟩
    exact h.exists_entry hr

/-- Different numbers have different nodes. -/
theorem Materialized.nodeAt_inj (h : Materialized e container limits whole whole [] s) {a b : Ref}
    (ha : a ∈ whole.map Prod.fst) (hb : b ∈ whole.map Prod.fst)
    (hab : s.nodeAt a.1 = s.nodeAt b.1) : a = b := by
  obtain ⟨depth, hk⟩ := (h.entries _ _ _).1 ((h.entry_iff a.1 a.2 _).2 ⟨ha, rfl⟩)
  obtain ⟨depth', hk'⟩ := (h.entries _ _ _).1 ((h.entry_iff b.1 b.2 _).2 ⟨hb, rfl⟩)
  rw [hab, hk', Option.some.injEq, Prod.mk.injEq] at hk
  exact hk.1.symm

/-- Without an objection, every node is filled from its record. -/
theorem Materialized.getElem?_nodeAt (h : Materialized e container limits whole whole [] s)
    (hclear : firstFault (objection e container limits) [] whole = none) {ref : Ref}
    (hr : ref ∈ whole.map Prod.fst) :
    ∃ r, recordAt? e container ref = some r ∧
      s.nodes[s.nodeAt ref.1]? = some ⟨ref.2, ⟨r.toContent s.nodeAt, []⟩, false⟩ := by
  obtain ⟨k, p, hk, rfl⟩ := Graph.exists_getElem?_of_mem hr
  obtain ⟨index, bytes, r, hi, -, hb, -, hd, -⟩ :=
    (objection_eq_none e container limits).1 (Graph.firstFault_eq_none.1 hclear k p hk)
  have hrecord : recordAt? e container p.1 = some r := by
    simp [recordAt?, hi, hb, hd, Except.toOption]
  obtain ⟨⟨kind, content, busy⟩, hn, rfl, rfl, hcontent⟩ := h.nodes k p hk
  obtain rfl := hcontent List.not_mem_nil
  refine ⟨r, hrecord, ?_⟩
  rw [h.nodeAt_eq, h.place_eq hk, hn]
  simp [builtAt, hrecord]

/-- Requests that are granted build exactly the graph that the records denote. -/
theorem serves_denotes (ho : Session.start container limits = .ok s)
    (hk : ∀ g ∈ grants, g.call.kind ≠ .lenient) (h : Serves e grants s t) :
    Denotes e container grants t := by
  obtain rfl := start_eq ho
  obtain ⟨whole, hf⟩ := exists_search_refs e container (grants.flatMap fun g => requested g.call)
  obtain ⟨hclear, hanswers, hm⟩ := h.materialized (.opened e container limits whole) hk hf
    List.prefix_rfl
  rw [List.nil_append] at hm
  have hdemanded : ∀ ref, Demanded e container grants ref ↔ ref ∈ whole.map Prod.fst := fun ref =>
    (hf.mem_iff_reaches ref).symm
  constructor
  · intro id kind node
    rw [hdemanded]
    exact hm.entry_iff id kind node
  · intro a b ha hb hab
    exact hm.nodeAt_inj ((hdemanded a).1 ha) ((hdemanded b).1 hb) hab
  · intro ref hr
    exact hm.getElem?_nodeAt hclear ((hdemanded ref).1 hr)
  · intro id answer he
    rcases hm.resolved id answer he with hnil | ⟨kind, node, hentry, rfl⟩
    · exact .inl hnil
    · obtain ⟨hr, rfl⟩ := (hm.entry_iff id kind node).1 hentry
      exact .inr ⟨kind, (hdemanded _).2 hr, rfl⟩
  · rwa [hm.nodeAt_eq]
  · have hset : {id | ∃ kind, Demanded e container grants (id, kind)} =
        ((whole.map fun p => p.1.1).toFinset : Set RecordId) := by
      ext id
      simp [hdemanded]
    rw [hset, Set.ncard_coe_finset, List.toFinset_card_of_nodup hm.ids_nodup, List.length_map]
    exact hm.filled
  · exact hm.size.trans hm.filled.symm

def pairOfPeers : Container where
  records :=
    ["\x7b\"label\":\"a\",\"other\":1\x7d", "\x7b\"label\":\"b\",\"other\":0\x7d"].map Utf8.ofString

/-- Requests for both of them, the second before the first, with their answers. -/
def bothPeers : List Grant :=
  [⟨.required .peer ⟨1⟩, (0 : Address)⟩, ⟨.root .peer (.empty .peer), (1 : Address)⟩]

theorem denotes_pairOfPeers : ∃ s t, Session.start pairOfPeers {} = .ok s ∧
    Serves .json bothPeers s t ∧ Denotes .json pairOfPeers bothPeers t := by
  have hvalid : pairOfPeers.validate {} = .ok () := by decide +kernel
  have hopens : Session.start pairOfPeers {} = .ok (opened pairOfPeers {}) := by
    simp [Session.start, hvalid, opened]
  have hfirst : ((opened pairOfPeers {}).request rebuildSchema (codec .json)
      (.required .peer ⟨1⟩)).1 = .ok (0 : Address) := by decide +kernel
  have hsecond : (((opened pairOfPeers {}).request rebuildSchema (codec .json)
      (.required .peer ⟨1⟩)).2.request rebuildSchema (codec .json)
        (.root .peer (.empty .peer))).1 = .ok (1 : Address) := by decide +kernel
  have hserves : Serves .json bothPeers _ _ := .of_answer hfirst (.of_answer hsecond (.done _))
  exact ⟨_, _, hopens, hserves, serves_denotes hopens (by decide) hserves⟩

end Outcome

end ObjectGraph.Catalog
