import ObjectGraph.Proofs.Catalog.Denotation

/-! What becomes of a request for the root of a container, whatever its records hold: the requests
that follow from it are walked depth first, and the first one that is not admitted is the fault
(`request_root_iff_walks`). -/
namespace ObjectGraph.Catalog

open ObjectGraph.Graph (Search firstFault)

section Walks

variable (e : Encoding) (container : Container) (limits : Limits)

/-- A number that is not absent and has not been discovered, at its position. -/
structure Fresh (seen : List Ref) (id : RecordId) (index : Nat) : Prop where
  position : id.index? = some index
  new : id ∉ seen.map Prod.fst

/-- The name table has no other name than the kind's at a position, if that is to be verified. -/
def Named (index : Nat) (kind : Kind) : Prop :=
  limits.verifyTypeNames = true → ∀ name, container.typeName? index = some name →
    name = typeName kind

/-- Why a request that is not for a reference in `seen` is not admitted at its depth. The checks of
a new number come in the order of their constructors. -/
inductive Violates (seen : List Ref) (depth : Nat) : Ref → Graph.Error → Prop
  | absent {id : RecordId} {kind : Kind} (h : id = .nil) :
      Violates seen depth (id, kind) (.nilReference (typeName kind))
  | mistyped {id : RecordId} {kind : Kind} {index : Nat} (position : id.index? = some index)
      (taken : id ∈ seen.map Prod.fst) :
      Violates seen depth (id, kind) (.typeMismatch id (typeName kind)
        ((container.typeName? index).getD "a node of another type"))
  | unknown {id : RecordId} {kind : Kind} {index : Nat} (fresh : Fresh seen id index)
      (h : container.size ≤ index) :
      Violates seen depth (id, kind) (.unknownId id container.size)
  | misnamed {id : RecordId} {kind : Kind} {index : Nat} {name : String}
      (fresh : Fresh seen id index) (known : index < container.size)
      (verify : limits.verifyTypeNames = true) (found : container.typeName? index = some name)
      (h : name ≠ typeName kind) :
      Violates seen depth (id, kind) (.typeMismatch id (typeName kind) name)
  | undecodable {id : RecordId} {kind : Kind} {index : Nat} {bytes : Bytes}
      {source : Encoding.Error} (fresh : Fresh seen id index)
      (known : container.records[index]? = some bytes) (named : Named container limits index kind)
      (h : (codec e).decode 0 kind bytes = .error source) :
      Violates seen depth (id, kind) (.decode id (typeName kind) source)
  | tooDeep {id : RecordId} {kind : Kind} {index : Nat} {bytes : Bytes} {record : Record}
      (fresh : Fresh seen id index) (known : container.records[index]? = some bytes)
      (named : Named container limits index kind)
      (decodes : (codec e).decode 0 kind bytes = .ok record) (h : limits.maxDepth.toNat ≤ depth) :
      Violates seen depth (id, kind) (.depthLimit limits.maxDepth)

/-- A new number that is admitted at its depth, with the record that it leads to. -/
inductive Opens (seen : List Ref) (depth : Nat) : Ref → Record → Prop
  | intro {id : RecordId} {kind : Kind} {index : Nat} {bytes : Bytes} {record : Record}
      (fresh : Fresh seen id index) (known : container.records[index]? = some bytes)
      (named : Named container limits index kind)
      (decodes : (codec e).decode 0 kind bytes = .ok record) (h : depth < limits.maxDepth.toNat) :
      Opens seen depth (id, kind) record

/-- The walk through requests in order, at one depth and with `seen` discovered before. It ends with
all that is discovered by then, or at the first violation. The links of a new record are walked
before the requests behind it, one level deeper. -/
inductive Walks :
    (depth : Nat) → (requests seen : List Ref) → Except Graph.Error (List Ref) → Prop
  | done {depth : Nat} {seen : List Ref} : Walks depth [] seen (.ok seen)
  | met {depth : Nat} {ref : Ref} {requests seen : List Ref}
      {outcome : Except Graph.Error (List Ref)} (known : ref ∈ seen)
      (rest : Walks depth requests seen outcome) : Walks depth (ref :: requests) seen outcome
  | violated {depth : Nat} {ref : Ref} {requests seen : List Ref} {fault : Graph.Error}
      (unknown : ref ∉ seen) (h : Violates e container limits seen depth ref fault) :
      Walks depth (ref :: requests) seen (.error fault)
  | fails {depth : Nat} {ref : Ref} {requests seen : List Ref} {record : Record}
      {fault : Graph.Error} (opens : Opens e container limits seen depth ref record)
      (inner : Walks (depth + 1) record.links (seen ++ [ref]) (.error fault)) :
      Walks depth (ref :: requests) seen (.error fault)
  | new {depth : Nat} {ref : Ref} {requests seen found : List Ref} {record : Record}
      {outcome : Except Graph.Error (List Ref)}
      (opens : Opens e container limits seen depth ref record)
      (inner : Walks (depth + 1) record.links (seen ++ [ref]) (.ok found))
      (rest : Walks depth requests found outcome) : Walks depth (ref :: requests) seen outcome

variable {e container limits} {seen : List (Ref × Nat)} {ref : Ref} {depth : Nat}
  {fault : Graph.Error} {record : Record}

theorem checkTypeName_eq_ok (id : RecordId) {kind : Kind} {index : Nat} :
    (opened container limits).checkTypeName kind id index = .ok () ↔
      Named container limits index kind := by
  unfold Rebuild.Session.checkTypeName Named
  cases hv : limits.verifyTypeNames with
  | false => simp [opened, hv]
  | true =>
    cases hn : container.typeName? index with
    | none => simp [opened, hv, hn]
    | some name => by_cases hsame : name = typeName kind <;> simp [opened, hv, hn, hsame]

theorem checkTypeName_eq_error (id : RecordId) {kind : Kind} {index : Nat} :
    (opened container limits).checkTypeName kind id index = .error fault ↔
      limits.verifyTypeNames = true ∧ ∃ name, container.typeName? index = some name ∧
        name ≠ typeName kind ∧ fault = .typeMismatch id (typeName kind) name := by
  unfold Rebuild.Session.checkTypeName
  cases hv : limits.verifyTypeNames with
  | false => simp [opened, hv]
  | true =>
    cases hn : container.typeName? index with
    | none => simp [opened, hv, hn]
    | some name =>
      by_cases hsame : name = typeName kind <;> simp [opened, hv, hn, hsame, eq_comm]

theorem explain_typeMismatch {id : RecordId} {index : Nat} (hi : id.index? = some index)
    (expected found : String) :
    (opened container limits).explain (.typeMismatch id expected found) =
      .typeMismatch id expected ((container.typeName? index).getD found) := by
  simp [Rebuild.Session.explain, Rebuild.Session.typeName?, hi, opened]

theorem map_id_eq (seen : List (Ref × Nat)) :
    seen.map (fun q => q.1.1) = (seen.map Prod.fst).map Prod.fst := by
  rw [List.map_map]
  rfl

/-- What the session objects to violates a rule. -/
theorem violates_of_objection
    (h : objection e container limits seen (ref, depth) = some fault) :
    Violates e container limits (seen.map Prod.fst) depth ref fault := by
  obtain ⟨id, kind⟩ := ref
  unfold objection at h
  rw [map_id_eq] at h
  dsimp only at h
  split at h
  · next hi =>
    cases h
    refine .absent ?_
    by_contra hn
    simp [RecordId.index?, RecordId.isNil, hn] at hi
  · next index hi =>
    split at h
    · next taken =>
      cases h
      rw [explain_typeMismatch hi]
      exact .mistyped hi taken
    · next new =>
      have fresh : Fresh (seen.map Prod.fst) id index := ⟨hi, new⟩
      split at h
      · next hb =>
        cases h
        exact .unknown fresh (List.getElem?_eq_none_iff.1 hb)
      · next bytes known =>
        split at h
        · next hn =>
          cases h
          obtain ⟨verify, name, found, hne, rfl⟩ := (checkTypeName_eq_error id).1 hn
          exact .misnamed fresh (List.getElem?_eq_some_iff.1 known).1 verify found hne
        · next hn =>
          have named := (checkTypeName_eq_ok _).1 hn
          split at h
          · next hd =>
            cases h
            exact .undecodable fresh known named hd
          · next decodes =>
            split at h
            · next hdeep =>
              cases h
              exact .tooDeep fresh known named decodes hdeep
            · cases h

/-- The session objects to what violates a rule. -/
theorem objection_of_violates
    (h : Violates e container limits (seen.map Prod.fst) depth ref fault) :
    objection e container limits seen (ref, depth) = some fault := by
  unfold objection
  rw [map_id_eq]
  cases h with
  | absent h =>
    subst h
    rfl
  | mistyped position taken =>
    simp only [position, if_pos taken, explain_typeMismatch position]
  | unknown fresh h =>
    simp only [fresh.position, if_neg fresh.new, List.getElem?_eq_none_iff.2 h]
  | @misnamed id _ _ _ fresh known verify found h =>
    have hcheck := (checkTypeName_eq_error id).2 ⟨verify, _, found, h, rfl⟩
    simp only [fresh.position, if_neg fresh.new, List.getElem?_eq_getElem known, hcheck]
  | @undecodable id _ _ _ _ fresh known named h =>
    have hcheck := (checkTypeName_eq_ok id).2 named
    simp only [fresh.position, if_neg fresh.new, known, hcheck, h]
  | @tooDeep id _ _ _ _ fresh known named decodes h =>
    have hcheck := (checkTypeName_eq_ok id).2 named
    simp only [fresh.position, if_neg fresh.new, known, hcheck, decodes, if_pos h]

/-- A new request that the session does not object to opens a record. -/
theorem opens_of_objection (h : objection e container limits seen (ref, depth) = none) :
    ∃ record, Opens e container limits (seen.map Prod.fst) depth ref record := by
  obtain ⟨index, bytes, record, hi, hid, known, hn, decodes, hdepth⟩ :=
    (objection_eq_none e container limits).1 h
  rw [map_id_eq] at hid
  exact ⟨record, .intro ⟨hi, hid⟩ known ((checkTypeName_eq_ok _).1 hn) decodes hdepth⟩

theorem Opens.objection (h : Opens e container limits (seen.map Prod.fst) depth ref record) :
    objection e container limits seen (ref, depth) = none := by
  cases h with
  | intro fresh known named decodes h =>
    refine (objection_eq_none e container limits).2 ⟨_, _, _, fresh.position, ?_, known,
      (checkTypeName_eq_ok _).2 named, decodes, h⟩
    rw [map_id_eq]
    exact fresh.new

theorem Opens.linksAt {seen : List Ref} (h : Opens e container limits seen depth ref record) :
    linksAt e container ref = record.links := by
  cases h with
  | intro fresh known named decodes h =>
    simp [Catalog.linksAt, recordAt?, fresh.position, known, decodes, Except.toOption]

theorem Opens.new {seen : List Ref} (h : Opens e container limits seen depth ref record) :
    ref ∉ seen := by
  cases h with
  | intro fresh known named decodes h => exact fun hm => fresh.new (List.mem_map_of_mem hm)

variable (e container limits) in
/-- How the walk through requests ends that are to discover `found`. -/
def verdict (seen found : List (Ref × Nat)) : Except Graph.Error (List Ref) :=
  match firstFault (objection e container limits) seen found with
  | some fault => .error fault
  | none => .ok ((seen ++ found).map Prod.fst)

variable {requests : List Ref} {inner found : List (Ref × Nat)}

theorem verdict_nil : verdict e container limits seen [] = .ok (seen.map Prod.fst) := by
  rw [verdict, List.append_nil]
  rfl

theorem verdict_of_objection (h : objection e container limits seen (ref, depth) = some fault) :
    verdict e container limits seen ((ref, depth) :: found) = .error fault := by
  simp only [verdict, firstFault, h, Option.some_or]

/-- Behind a request without an objection come its links, and then the requests behind it. -/
theorem verdict_of_clear (h : objection e container limits seen (ref, depth) = none) :
    verdict e container limits seen ((ref, depth) :: (inner ++ found)) =
      match verdict e container limits (seen ++ [(ref, depth)]) inner with
      | .error fault => .error fault
      | .ok _ => verdict e container limits (seen ++ (ref, depth) :: inner) found := by
  have hsplit := Graph.firstFault_append (objection e container limits)
    (seen ++ [(ref, depth)]) inner found
  rw [List.append_assoc, List.singleton_append] at hsplit
  simp only [verdict, firstFault, h, Option.none_or, hsplit]
  cases firstFault (objection e container limits) (seen ++ [(ref, depth)]) inner with
  | some fault => rfl
  | none => simp only [Option.none_or, List.append_assoc, List.cons_append]

theorem verdict_eq_ok {all : List Ref} (h : verdict e container limits seen found = .ok all) :
    all = (seen ++ found).map Prod.fst := by
  unfold verdict at h
  split at h <;> cases h
  rfl

/-- The walk follows the search up to the first objection. -/
theorem walks_verdict (h : Search (linksAt e container) depth requests seen found) :
    Walks e container limits depth requests (seen.map Prod.fst)
      (verdict e container limits seen found) := by
  induction h with
  | done =>
    rw [verdict_nil]
    exact .done
  | met known _ ih => exact .met known ih
  | @new depth ref requests seen inner found fresh _ _ ihInner ihRest =>
    cases hc : objection e container limits seen (ref, depth) with
    | some fault =>
      rw [verdict_of_objection hc]
      exact .violated fresh (violates_of_objection hc)
    | none =>
      obtain ⟨record, opens⟩ := opens_of_objection hc
      rw [opens.linksAt, List.map_append] at ihInner
      rw [verdict_of_clear hc]
      cases hi : verdict e container limits (seen ++ [(ref, depth)]) inner with
      | error fault => exact .fails opens (hi ▸ ihInner)
      | ok all =>
        obtain rfl := verdict_eq_ok hi
        rw [hi, List.append_assoc, List.singleton_append] at ihInner
        exact .new opens ihInner ihRest

/-- The walk has no other end. -/
theorem Walks.eq_verdict {known : List Ref} {outcome : Except Graph.Error (List Ref)}
    (h : Walks e container limits depth requests known outcome)
    (hk : known = seen.map Prod.fst)
    (hf : Search (Catalog.linksAt e container) depth requests seen found) :
    outcome = verdict e container limits seen found := by
  induction h generalizing seen found with
  | done =>
    cases hf
    rw [verdict_nil, hk]
  | met hm _ ih =>
    cases hf with
    | met _ rest => exact ih hk rest
    | new fresh _ _ => exact absurd (hk ▸ hm) fresh
  | violated unknown hv =>
    subst hk
    cases hf with
    | met hm _ => exact absurd hm unknown
    | new _ _ _ => rw [verdict_of_objection (objection_of_violates hv)]
  | fails opens _ ih =>
    subst hk
    cases hf with
    | met hm _ => exact absurd hm opens.new
    | new _ below _ =>
      rw [opens.linksAt] at below
      rw [verdict_of_clear opens.objection, ← ih (by simp) below]
  | new opens _ _ ihInner ihRest =>
    subst hk
    cases hf with
    | met hm _ => exact absurd hm opens.new
    | new _ below rest =>
      rw [opens.linksAt] at below
      have hinner := ihInner (by simp) below
      have hall := verdict_eq_ok hinner.symm
      rw [verdict_of_clear opens.objection, ← hinner]
      exact ihRest (by rw [hall]; simp) rest

end Walks

section Root

variable {e : Encoding} {container : Container} {limits : Limits} {whole : List (Ref × Nat)}
  {kind : Kind} {s : Rebuilding}

variable (limits) in
/-- A request for the root is granted where the session objects to no reference that it leads to,
and has made the nodes of all of them then; otherwise the first objection is its fault. -/
theorem request_root_ends (hf : Search (linksAt e container) 0 [(.root, kind)] [] whole)
    (hc : container.isEmpty = false) (hk : kind ≠ .lenient) (start : Built) :
    match firstFault (objection e container limits) [] whole with
    | some fault => ∃ t, (opened container limits).request rebuildSchema (codec e)
        (.root kind start) = (.error fault, t)
    | none => ∃ t, (opened container limits).request rebuildSchema (codec e) (.root kind start) =
        (.ok (place whole .root), t) ∧ Materialized e container limits whole whole [] t := by
  have hends := Graph.Walk.run rebuilding_lawful hf
    (rebuilding_obeys (fun _ => start) limits.maxDepth.toNat) rfl rfl
    (fun ref hr => by
      obtain rfl := List.mem_singleton.1 hr
      exact hk)
    List.prefix_rfl List.prefix_rfl (.opened e container limits whole)
    (.of_visitAll _ (Graph.Walk.keeps_refl _ _ _) _ _)
  have hrequest := request_root_eq e (s := opened container limits) hc kind start
  rw [show (opened container limits).limits = limits from rfl] at hrequest
  rw [Graph.visitAll_singleton] at hends
  rcases hv : visitRef e (fun _ => start) limits.maxDepth.toNat (.root, kind)
    (opened container limits) with ⟨fault | node, t⟩ <;> rw [hv] at hends hrequest
  · have hfault : firstFault (objection e container limits) [] whole = some fault := hends
    rw [hfault]
    exact ⟨_, hrequest⟩
  · obtain ⟨hclear, hnode, hm⟩ := hends
    have hclear : firstFault (objection e container limits) [] whole = none := hclear
    obtain rfl : node = place whole .root := (List.cons.inj hnode).1
    rw [hclear]
    exact ⟨t, hrequest, hm⟩

/-- A request for the root of a container is granted exactly where the walk from it ends without a
violation, and otherwise refused with the first violation. -/
theorem request_root_iff_walks (ho : Rebuild.Session.start container limits = .ok s)
    (hc : container.isEmpty = false) (hk : kind ≠ .lenient) (start : Built) :
    ((∃ node, (s.request rebuildSchema (codec e) (.root kind start)).1 = .ok node) ↔
      ∃ seen, Walks e container limits 0 [(.root, kind)] [] (.ok seen)) ∧
    ∀ fault, (s.request rebuildSchema (codec e) (.root kind start)).1 = .error fault ↔
      Walks e container limits 0 [(.root, kind)] [] (.error fault) := by
  obtain rfl := start_eq ho
  obtain ⟨whole, hf⟩ := exists_search_refs e container [(.root, kind)]
  have hwalks : ∀ outcome, Walks e container limits 0 [(.root, kind)] [] outcome ↔
      outcome = verdict e container limits [] whole := fun outcome =>
    ⟨fun h => h.eq_verdict rfl hf, fun h => h ▸ walks_verdict hf⟩
  have hends := request_root_ends limits hf hc hk start
  simp only [hwalks, verdict]
  cases hfault : firstFault (objection e container limits) [] whole with
  | some fault =>
    rw [hfault] at hends
    obtain ⟨t, hrequest⟩ := hends
    rw [hrequest]
    refine ⟨by simp, fun fault' => ?_⟩
    simp only [Except.error.injEq]
    exact eq_comm
  | none =>
    rw [hfault] at hends
    obtain ⟨t, hrequest, -⟩ := hends
    rw [hrequest]
    simp

/-- A vertex that refers to another and then to none, where only the first is admitted. -/
def nilEdge : Container where
  records := ["\x7b\"tag\":0,\"edges\":[1,4294967295]\x7d",
    "\x7b\"tag\":1,\"edges\":[0]\x7d"].map Utf8.ofString

theorem walks_nilEdge : ∃ s, Rebuild.Session.start nilEdge {} = .ok s ∧
    (s.request rebuildSchema (codec .json) (.root .vertex (.empty .vertex))).1 =
      .error (.nilReference (typeName Kind.vertex)) ∧
    Walks .json nilEdge {} 0 [(.root, .vertex)] [] (.error (.nilReference (typeName Kind.vertex))) ∧
    ¬ ∃ seen, Walks .json nilEdge {} 0 [(.root, .vertex)] [] (.ok seen) := by
  have hvalid : nilEdge.validate {} = .ok () := by decide +kernel
  have hopens : Rebuild.Session.start nilEdge {} = .ok (opened nilEdge {}) := by
    simp [Rebuild.Session.start, hvalid, opened]
  have hrequest : ((opened nilEdge {}).request rebuildSchema (codec .json)
      (.root .vertex (.empty .vertex))).1 = .error (.nilReference (typeName Kind.vertex)) := by
    decide +kernel
  have hstrict : Kind.vertex ≠ .lenient := by decide
  have hwalks := request_root_iff_walks (e := .json) hopens rfl hstrict (.empty .vertex)
  refine ⟨_, hopens, hrequest, (hwalks.2 _).1 hrequest, fun hok => ?_⟩
  obtain ⟨node, hnode⟩ := hwalks.1.2 hok
  rw [hrequest] at hnode
  cases hnode

end Root

end ObjectGraph.Catalog
