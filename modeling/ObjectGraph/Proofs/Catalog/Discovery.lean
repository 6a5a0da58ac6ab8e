import ObjectGraph.Proofs.Catalog.Filling

/-! A session that rebuilds catalog nodes walks the records depth first, along the numbers embedded
in them. Each record becomes the node at its position in the order of discovery, and the first
record in that order that cannot become one fails the session (`rebuilding_lawful`). -/
namespace ObjectGraph.Catalog

open ObjectGraph.Graph (Runs Walk visitAll)
open Rebuild (Address Call Event Hook Session)
open Rebuild.Session (find materialize resolve)

def opened (container : Container) (limits : Limits) : Rebuilding :=
  { limits, container, table := .withCapacity container.size }

theorem start_eq {container : Container} {limits : Limits} {s : Rebuilding}
    (h : Session.start container limits = .ok s) : s = opened container limits := by
  unfold Session.start at h
  split at h <;> cases h
  rfl

theorem validate_of_start {container : Container} {limits : Limits} {s : Rebuilding}
    (h : Session.start container limits = .ok s) : container.validate limits = .ok () := by
  unfold Session.start at h
  split at h
  · cases h
  · assumption

section References

variable (e : Encoding) (container : Container) (limits : Limits) (whole : List (Ref × Nat))

def recordAt? (ref : Ref) : Option Record := do
  let index ← ref.1.index?
  let bytes ← container.records[index]?
  ((codec e).decode 0 ref.2 bytes).toOption

def linksAt (ref : Ref) : List Ref := ((recordAt? e container ref).map Record.links).getD []

/-- The node of a number: its position in the order of discovery. -/
def place (id : RecordId) : Address := (whole.map fun p => p.1.1).idxOf id

/-- What the node of a reference holds, once its record has been read. -/
def builtAt (ref : Ref) : Built :=
  match recordAt? e container ref with
  | some r => ⟨r.toContent (place whole), []⟩
  | none => .empty ref.2

/-- Why a session refuses a new reference at its depth, after those in `seen`. -/
def objection (seen : List (Ref × Nat)) (p : Ref × Nat) : Option Graph.Error :=
  match p.1.1.index? with
  | none => some (.nilReference (typeName p.1.2))
  | some index =>
      if p.1.1 ∈ seen.map (fun q => q.1.1) then
        some ((opened container limits).explain
          (.typeMismatch p.1.1 (typeName p.1.2) "a node of another type"))
      else match container.records[index]? with
        | none => some (.unknownId p.1.1 container.size)
        | some bytes =>
            match (opened container limits).checkTypeName p.1.2 p.1.1 index with
            | .error fault => some fault
            | .ok () =>
                match (codec e).decode 0 p.1.2 bytes with
                | .error source => some (.decode p.1.1 (typeName p.1.2) source)
                | .ok _ =>
                    if limits.maxDepth.toNat ≤ p.2 then some (.depthLimit limits.maxDepth)
                    else none

/-- What a session accepts has a number of its own and a record of its kind. -/
theorem objection_eq_none {seen : List (Ref × Nat)} {p : Ref × Nat} :
    objection e container limits seen p = none ↔ ∃ index bytes r,
      p.1.1.index? = some index ∧ p.1.1 ∉ seen.map (fun q => q.1.1) ∧
      container.records[index]? = some bytes ∧
      (opened container limits).checkTypeName p.1.2 p.1.1 index = .ok () ∧
      (codec e).decode 0 p.1.2 bytes = .ok r ∧ p.2 < limits.maxDepth.toNat := by
  constructor
  · intro h
    unfold objection at h
    split at h
    · cases h
    · next index hi =>
      split at h
      · cases h
      · next hid =>
        split at h
        · cases h
        · next bytes hb =>
          split at h
          · cases h
          · next hn =>
            split at h
            · cases h
            · next r hr =>
              split at h
              · cases h
              · next hd => exact ⟨index, bytes, r, hi, hid, hb, hn, hr, by omega⟩
  · rintro ⟨index, bytes, r, hi, hid, hb, hn, hr, hd⟩
    simp [objection, hi, hid, hb, hn, hr, hd]

theorem kind_recordAt? {ref : Ref} {r : Record} (h : recordAt? e container ref = some r) :
    r.kind = ref.2 := by
  simp only [recordAt?, Option.bind_eq_bind, Option.bind_eq_some_iff] at h
  obtain ⟨index, -, bytes, -, hr⟩ := h
  rcases hd : (codec e).decode 0 ref.2 bytes with _ | r' <;> rw [hd] at hr <;> cases hr
  simp only [codec] at hd
  rcases hx : e.decode (.fields (Record.layout ref.2)) bytes with _ | x <;> rw [hx] at hd <;>
    cases hd
  exact Record.kind_ofFields ref.2 x

/-- References that do not lead to lenient nodes lead to others of their like. -/
theorem strict_linksAt {ref : Ref} (h : ref.2 ≠ .lenient) :
    ∀ link ∈ linksAt e container ref, link.2 ≠ .lenient := by
  intro link hl
  unfold linksAt at hl
  cases hr : recordAt? e container ref with
  | none =>
    rw [hr] at hl
    cases hl
  | some r =>
    rw [hr] at hl
    exact Record.strict_of_mem_links ((kind_recordAt? e container hr).symm ▸ h) hl

end References

section Stages

variable (e : Encoding) (container : Container) (limits : Limits) (whole : List (Ref × Nat))

/-- A session that has made a node for each of `seen`, in order. Those of `opened` are being filled,
the others hold what their records denote, whether the nodes they refer to are filled or not. -/
structure Materialized (seen : List (Ref × Nat)) (opened : List Ref) (s : Rebuilding) : Prop where
  limits : s.limits = limits
  source : s.container = container
  failed : s.failed = false
  depth : s.depth = opened.length
  discovered : seen <+: whole
  underway : ∀ ref ∈ opened, ref ∈ seen.map Prod.fst
  capacity : s.table.capacity = container.size
  filled : s.table.filled = seen.length
  entries : ∀ id kind (node : Address), s.table.entry? id = some (kind, node) ↔
    ∃ depth, seen[node]? = some ((id, kind), depth)
  size : s.nodes.size = seen.length
  nodes : ∀ (k : Nat) (p : Ref × Nat), seen[k]? = some p → ∃ n, s.nodes[k]? = some n ∧
    n.kind = p.1.2 ∧ n.busy = decide (p.1 ∈ opened) ∧
      (p.1 ∉ opened → n.content = builtAt e container whole p.1)
  resolved : ∀ id answer, .resolved id answer ∈ s.trace → id = .nil ∧ answer = none ∨
    ∃ kind node, s.table.entry? id = some (kind, node) ∧ answer = some node

variable {e container limits whole} {seen more : List (Ref × Nat)} {under : List Ref}
  {s : Rebuilding} {ref : Ref} {node : Address}

/-- The nodes while the hook of a new one starts. -/
theorem getElem?_started (s : Rebuilding) (kind : Kind) (id : RecordId) (content : Built)
    (k : Nat) :
    (((s.construct kind id content).2.enter id).setBusy s.nodes.size true).nodes[k]? =
      if s.nodes.size = k then some ⟨kind, content, true⟩ else s.nodes[k]? := by
  simp only [Session.construct, Session.enter, Session.setBusy, Session.note,
    Array.getElem?_modify, Array.getElem?_push]
  by_cases hkn : s.nodes.size = k
  · simp [hkn]
  · simp [hkn, Ne.symm hkn]

/-- The nodes once the hook of one is done. -/
theorem getElem?_finished (s : Rebuilding) (node : Address) (id : RecordId) (content : Built)
    {k : Nat} {n : Rebuild.Node Kind Built} (hn : s.nodes[k]? = some n) :
    (((s.assign node content).setBusy node false).leave id).nodes[k]? =
      some (if node = k then ⟨n.kind, content, false⟩ else n) := by
  simp only [Session.leave, Session.setBusy, Session.assign, Session.note, Array.getElem?_modify,
    hn]
  by_cases hkn : node = k <;> simp [hkn]

namespace Materialized

variable (e container limits whole) in
/-- Before any request nothing is discovered. -/
theorem opened : Materialized e container limits whole [] [] (Catalog.opened container limits) where
  limits := rfl
  source := rfl
  failed := rfl
  depth := rfl
  discovered := List.nil_prefix
  underway _ := nofun
  capacity := by simp [Catalog.opened, NodeTable.capacity, NodeTable.withCapacity]
  filled := rfl
  entries id kind node := by simp [Catalog.opened]
  size := rfl
  nodes _ _ := nofun
  resolved _ _ := nofun

theorem ids_nodup (h : Materialized e container limits whole seen under s) :
    (seen.map fun p => p.1.1).Nodup := by
  rw [List.nodup_iff_getElem?_ne_getElem?]
  intro i j hij hj he
  rw [List.length_map] at hj
  obtain ⟨p, hp⟩ : ∃ p, seen[i]? = some p := ⟨_, List.getElem?_eq_getElem (hij.trans hj)⟩
  obtain ⟨q, hq⟩ : ∃ q, seen[j]? = some q := ⟨_, List.getElem?_eq_getElem hj⟩
  rw [List.getElem?_map, List.getElem?_map, hp, hq] at he
  have hid : p.1.1 = q.1.1 := Option.some.inj he
  have hentry := (h.entries p.1.1 p.1.2 i).2 ⟨p.2, hp⟩
  have hentry' := (h.entries p.1.1 q.1.2 j).2 ⟨q.2, by rw [hq, hid]⟩
  rw [hentry, Option.some.injEq, Prod.mk.injEq] at hentry'
  exact absurd hentry'.2 hij.ne

theorem place_eq (h : Materialized e container limits whole seen under s) {k : Nat} {p : Ref × Nat}
    (hk : seen[k]? = some p) : place whole p.1.1 = k :=
  Graph.idxOf_of_prefix h.ids_nodup (h.discovered.map _) (by rw [List.getElem?_map, hk]; rfl)

theorem exists_entry (h : Materialized e container limits whole seen under s)
    (hr : ref ∈ seen.map Prod.fst) :
    s.table.entry? ref.1 = some (ref.2, place whole ref.1) := by
  obtain ⟨k, p, hk, rfl⟩ := Graph.exists_getElem?_of_mem hr
  rw [h.place_eq hk]
  exact (h.entries _ _ _).2 ⟨p.2, hk⟩

theorem entry_eq_none (h : Materialized e container limits whole seen under s) {id : RecordId}
    (hid : id ∉ seen.map fun p => p.1.1) : s.table.entry? id = none := by
  by_contra hn
  obtain ⟨⟨kind, node⟩, he⟩ := Option.ne_none_iff_exists'.1 hn
  obtain ⟨depth, hk⟩ := (h.entries id kind node).1 he
  exact hid (List.mem_map.2 ⟨_, List.mem_of_getElem? hk, rfl⟩)

/-- A step is noted. A resolution must answer with the node in the table. -/
theorem note (h : Materialized e container limits whole seen under s) {event : Event}
    (he : ∀ id answer, event = .resolved id answer → id = .nil ∧ answer = none ∨
      ∃ kind node, s.table.entry? id = some (kind, node) ∧ answer = some node) :
    Materialized e container limits whole seen under (s.note event) :=
  { h with
    resolved := fun id answer hm => by
      rcases List.mem_cons.1 hm with hm | hm
      · exact he id answer hm.symm
      · exact h.resolved id answer hm }

/-- What a node that is being filled holds does not matter. -/
theorem assign (h : Materialized e container limits whole seen under s) {depth : Nat}
    (hk : seen[node]? = some (ref, depth)) (hr : ref ∈ under) (content : Built) :
    Materialized e container limits whole seen under (s.assign node content) :=
  { h with
    size := by simp [Session.assign, h.size]
    nodes := fun k p hp => by
      obtain ⟨n, hn, hkind, hbusy, hcontent⟩ := h.nodes k p hp
      simp only [Session.assign, Array.getElem?_modify]
      by_cases hkn : node = k
      · subst hkn
        obtain rfl : (ref, depth) = p := Option.some.inj (hk.symm.trans hp)
        exact ⟨{ n with content }, by rw [if_pos rfl, hn]; rfl, hkind, hbusy,
          fun hnot => absurd hr hnot⟩
      · exact ⟨n, by rw [if_neg hkn, hn], hkind, hbusy, hcontent⟩ }

/-- The entries behind a new one. -/
theorem entry_snoc (h : Materialized e container limits whole seen under s)
    (hid : ref.1 ∉ seen.map fun p => p.1.1) (depth : Nat) (id : RecordId) (kind : Kind) :
    (if id = ref.1 then some (ref.2, s.nodes.size) else s.table.entry? id) = some (kind, node) ↔
      ∃ depth', (seen ++ [(ref, depth)])[node]? = some ((id, kind), depth') := by
  simp only [Graph.getElem?_snoc, exists_or, ← h.entries]
  by_cases hsame : id = ref.1
  · subst hsame
    simp only [if_true, h.entry_eq_none hid, h.size, Option.some.injEq, Prod.mk.injEq]
    constructor
    · rintro ⟨rfl, rfl⟩
      exact .inr ⟨depth, rfl, rfl, rfl⟩
    · rintro (he | ⟨_, rfl, hr, -⟩)
      · cases he
      · rw [hr]
        exact ⟨rfl, rfl⟩
  · simp only [if_neg hsame, Prod.mk.injEq]
    constructor
    · exact .inl
    · rintro (he | ⟨_, -, rfl, -⟩)
      · exact he
      · exact absurd rfl hsame

/-- A node is made for a new reference, and its hook starts. -/
theorem start (h : Materialized e container limits whole seen under s) {index depth : Nat}
    (hi : ref.1.index? = some index) (hsize : index < container.size)
    (hid : ref.1 ∉ seen.map fun p => p.1.1) (hp : seen ++ [(ref, depth)] <+: whole)
    (content : Built) :
    Materialized e container limits whole (seen ++ [(ref, depth)]) (ref :: under)
      (((s.construct ref.2 ref.1 content).2.enter ref.1).setBusy s.nodes.size true) := by
  have hnone := h.entry_eq_none hid
  have hcap : index < s.table.capacity := by rwa [h.capacity]
  have hentry := NodeTable.entry?_insert hi hnone hcap ref.2 s.nodes.size
  have hnodes := h.size
  refine ⟨h.limits, h.source, h.failed, ?_, hp, ?_, ?_, ?_, ?_, ?_, ?_, ?_⟩
  · exact congrArg (· + 1) h.depth
  · intro a ha
    rw [List.map_append]
    rcases List.mem_cons.1 ha with rfl | ha
    · simp
    · exact List.mem_append_left _ (h.underway a ha)
  · exact (NodeTable.capacity_insert ..).trans h.capacity
  · have hfilled := NodeTable.filled_insert hi hnone hcap ref.2 s.nodes.size
    rw [h.filled] at hfilled
    rw [List.length_append]
    exact hfilled
  · intro id kind node
    rw [← h.entry_snoc hid depth id kind, ← hentry id]
    rfl
  · simp [Session.construct, Session.enter, Session.setBusy, Session.note, hnodes]
  · intro k p hk
    rw [getElem?_started]
    rcases Graph.getElem?_snoc.1 hk with hk | ⟨rfl, rfl⟩
    · obtain ⟨n, hn, hkind, hbusy, hcontent⟩ := h.nodes k p hk
      have hne : p.1 ≠ ref := by
        intro he
        exact hid (List.mem_map.2 ⟨p, List.mem_of_getElem? hk, congrArg Prod.fst he⟩)
      have hkn : s.nodes.size ≠ k := by
        obtain ⟨hlt, -⟩ := List.getElem?_eq_some_iff.1 hk
        omega
      refine ⟨n, by rw [if_neg hkn, hn], hkind, ?_, ?_⟩
      · rw [hbusy]
        simp [hne]
      · intro hnot
        exact hcontent fun hm => hnot (List.mem_cons_of_mem _ hm)
    · exact ⟨⟨ref.2, content, true⟩, by rw [if_pos hnodes], rfl, by simp,
        fun hnot => absurd List.mem_cons_self hnot⟩
  · intro id answer hm
    have hold : .resolved id answer ∈ s.trace := by
      simpa [Session.construct, Session.enter, Session.setBusy, Session.note] using hm
    rcases h.resolved id answer hold with hnil | ⟨kind, node, he, ha⟩
    · exact .inl hnil
    · refine .inr ⟨kind, node, (hentry id).trans ?_, ha⟩
      rw [if_neg, he]
      rintro rfl
      rw [hnone] at he
      cases he

/-- The hook of a node is done, and has filled it. -/
theorem finish {depth : Nat}
    (h : Materialized e container limits whole (seen ++ (ref, depth) :: more) (ref :: under) s)
    (hr : ref ∉ under) :
    Materialized e container limits whole (seen ++ (ref, depth) :: more) under
      (((s.assign seen.length (builtAt e container whole ref)).setBusy seen.length false).leave
        ref.1) := by
  have hmid : (seen ++ (ref, depth) :: more)[seen.length]? = some (ref, depth) := by simp
  refine ⟨h.limits, h.source, h.failed, ?_, h.discovered, ?_, h.capacity, h.filled, h.entries, ?_,
    ?_, ?_⟩
  · have hdepth := h.depth
    simp [Session.leave, Session.setBusy, Session.assign, Session.note, hdepth]
  · intro a ha
    exact h.underway a (List.mem_cons_of_mem _ ha)
  · simp [Session.leave, Session.setBusy, Session.assign, Session.note, h.size]
  · intro k p hk
    obtain ⟨n, hn, hkind, hbusy, hcontent⟩ := h.nodes k p hk
    refine ⟨_, getElem?_finished s _ _ _ hn, ?_⟩
    by_cases hkn : seen.length = k
    · subst hkn
      obtain rfl : (ref, depth) = p := Option.some.inj (hmid.symm.trans hk)
      rw [if_pos rfl]
      exact ⟨hkind, by simp [hr], fun _ => rfl⟩
    · have hne : p.1 ≠ ref := by
        intro he
        have hplace := h.place_eq hk
        rw [he, h.place_eq hmid] at hplace
        exact hkn hplace
      rw [if_neg hkn]
      refine ⟨hkind, ?_, ?_⟩
      · rw [hbusy]
        simp [hne]
      · intro hnot
        apply hcontent
        simp [hne, hnot]
  · intro id answer hm
    apply h.resolved id answer
    simpa [Session.leave, Session.setBusy, Session.assign, Session.note] using hm

end Materialized

end Stages

section Visits

variable (e : Encoding) (container : Container) (limits : Limits) (whole : List (Ref × Nat))

/-- A session on a container, as a walk along the references in its records. -/
def rebuilding : Walk Ref Address Graph.Error Rebuilding where
  targets := linksAt e container
  Admits ref := ref.2 ≠ .lenient
  limit := limits.maxDepth.toNat
  visit := visitRef e .empty
  check := objection e container limits
  answer ref := place whole ref.1
  whole := whole
  Stage := Materialized e container limits whole

def freshAt (e : Encoding) : (levels : Nat) → Session.Fresh Kind Built Record
  | 0 => Session.tooDeep
  | levels+1 => materialize rebuildSchema (resolve rebuildSchema (codec e) levels)

variable {e container limits whole} {seen more : List (Ref × Nat)} {under : List Ref}
  {s t : Rebuilding} {ref : Ref} {start : Kind → Built} {levels : Nat} {fault : Graph.Error}

theorem resolve_eq (kind : Kind) (id : RecordId) (start : Built) :
    resolve rebuildSchema (codec e) levels kind id start s =
      Session.guard (find (codec e) (freshAt e levels)) kind id start s := by
  cases levels <;> rfl

variable (start) in
/-- A refused look-up is a refused visit. -/
theorem visitRef_error (hs : s.failed = false)
    (hf : find (codec e) (freshAt e levels) ref.2 ref.1 (start ref.2) s = (.error fault, t)) :
    ∃ s', visitRef e start levels ref s = (.error fault, s') := by
  refine ⟨{ t with failed := true }, ?_⟩
  unfold visitRef
  rw [resolve_eq, Session.guard, hs, hf]
  rfl

variable (start) in
theorem visitRef_ok {node : Address} (hs : s.failed = false)
    (hf : find (codec e) (freshAt e levels) ref.2 ref.1 (start ref.2) s = (.ok (some node), t))
    (ht : t.failed = false) :
    visitRef e start levels ref s = (.ok node, t.note (.resolved ref.1 (some node))) := by
  unfold visitRef
  rw [resolve_eq, Session.guard, hs, hf]
  simp [ht]

theorem find_nil {fresh : Session.Fresh Kind Built Record} {id : RecordId} (hi : id.index? = none)
    (kind : Kind) (start : Built) (s : Rebuilding) :
    find (codec e) fresh kind id start s = (.ok none, s) := by
  unfold find
  rw [hi]

variable (e) in
theorem find_met {kind : Kind} {id : RecordId} {node : Address}
    (he : s.table.entry? id = some (kind, node)) (fresh : Session.Fresh Kind Built Record)
    (start : Built) :
    find (codec e) fresh kind id start s = (.ok (some node), s) := by
  cases hi : id.index? with
  | none =>
    simp only [NodeTable.entry?, hi] at he
    cases he
  | some index =>
    have hget : s.table.get kind id = .ok (some node) := by simp [NodeTable.get, he]
    unfold find
    rw [hi]
    dsimp only
    rw [hget]

/-- A new reference is looked up in the container, if its number is not taken. -/
theorem find_new (h : Materialized e container limits whole seen under s)
    (hr : ref ∉ seen.map Prod.fst) {index : Nat} (hi : ref.1.index? = some index)
    (fresh : Session.Fresh Kind Built Record) (start : Built) :
    find (codec e) fresh ref.2 ref.1 start s =
      if ref.1 ∈ seen.map (fun q => q.1.1) then
        (.error ((opened container limits).explain
          (.typeMismatch ref.1 (typeName ref.2) "a node of another type")), s)
      else match container.records[index]? with
        | none => (.error (.unknownId ref.1 container.size), s)
        | some bytes =>
            match (opened container limits).checkTypeName ref.2 ref.1 index with
            | .error fault => (.error fault, s)
            | .ok () =>
                match (codec e).decode 0 ref.2 bytes with
                | .error source => (.error (.decode ref.1 (typeName ref.2) source),
                    s.note (.decoded ref.1))
                | .ok record => fresh ref.2 ref.1 start record (s.note (.decoded ref.1)) := by
  have hexplain : s.explain = (opened container limits).explain := by
    funext fault
    simp only [Session.explain, Session.typeName?, h.source, opened]
  have hcheck : s.checkTypeName = (opened container limits).checkTypeName := by
    funext kind id index
    simp only [Session.checkTypeName, h.limits, h.source, opened]
  unfold find
  rw [hi]
  dsimp only
  by_cases hid : ref.1 ∈ seen.map fun q => q.1.1
  · rw [if_pos hid]
    obtain ⟨p, hp, he⟩ := List.mem_map.1 hid
    have hentry := h.exists_entry (List.mem_map_of_mem hp)
    have hkind : p.1.2 ≠ ref.2 := fun hk => hr (List.mem_map.2 ⟨p, hp, Prod.ext he hk⟩)
    rw [he] at hentry
    have hget : s.table.get ref.2 ref.1 =
        .error (.typeMismatch ref.1 (typeName ref.2) "a node of another type") := by
      simp [NodeTable.get, hentry, hkind]
    rw [hget, hexplain]
  · rw [if_neg hid]
    have hget : s.table.get ref.2 ref.1 = .ok none := by
      simp [NodeTable.get, h.entry_eq_none hid]
    rw [hget, h.source]
    dsimp only
    cases container.records[index]? with
    | none => rfl
    | some bytes =>
      dsimp only
      rw [hcheck]
      cases (opened container limits).checkTypeName ref.2 ref.1 index with
      | error fault => rfl
      | ok u =>
        have hdecode : (codec e).decode s.decodes ref.2 bytes =
            (codec e).decode 0 ref.2 bytes := rfl
        dsimp only
        rw [hdecode]
        cases (codec e).decode 0 ref.2 bytes <;> rfl

/-- The look-up of a new number fails where the session objects to it. -/
theorem find_objected (h : Materialized e container limits whole seen under s)
    (hr : ref ∉ seen.map Prod.fst) {index : Nat} (hi : ref.1.index? = some index)
    (hl : levels + under.length = limits.maxDepth.toNat)
    (hc : objection e container limits seen (ref, under.length) = some fault) (start : Built) :
    ∃ t, find (codec e) (freshAt e levels) ref.2 ref.1 start s = (.error fault, t) := by
  have hfind := find_new h hr hi (freshAt e levels) start
  unfold objection at hc
  rw [hi] at hc
  dsimp only at hc
  split at hc
  · next hid =>
    rw [if_pos hid] at hfind
    obtain rfl := Option.some.inj hc
    exact ⟨_, hfind⟩
  · next hid =>
    rw [if_neg hid] at hfind
    cases hb : container.records[index]? with
    | none =>
      rw [hb] at hc hfind
      obtain rfl := Option.some.inj hc
      exact ⟨_, hfind⟩
    | some bytes =>
      rw [hb] at hc hfind
      dsimp only at hc hfind
      cases hn : (opened container limits).checkTypeName ref.2 ref.1 index with
      | error fault' =>
        rw [hn] at hc hfind
        obtain rfl := Option.some.inj hc
        exact ⟨_, hfind⟩
      | ok u =>
        rw [hn] at hc hfind
        dsimp only at hc hfind
        cases hd : (codec e).decode 0 ref.2 bytes with
        | error source =>
          rw [hd] at hc hfind
          obtain rfl := Option.some.inj hc
          exact ⟨_, hfind⟩
        | ok record =>
          rw [hd] at hc hfind
          dsimp only at hc hfind
          split at hc
          · obtain rfl := Option.some.inj hc
            obtain rfl : levels = 0 := by omega
            rw [freshAt, Session.tooDeep, show (s.note (.decoded ref.1)).limits = limits from
              h.limits] at hfind
            exact ⟨_, hfind⟩
          · cases hc

theorem visitRef_objected (h : Materialized e container limits whole seen under s)
    (hr : ref ∉ seen.map Prod.fst) (hl : levels + under.length = limits.maxDepth.toNat)
    (hc : objection e container limits seen (ref, under.length) = some fault) :
    ∃ s', visitRef e start levels ref s = (.error fault, s') := by
  cases hi : ref.1.index? with
  | none =>
    -- An absent target is looked up without a fault, and the visit reports it.
    unfold objection at hc
    rw [hi] at hc
    obtain rfl := Option.some.inj hc
    use s.note (.resolved ref.1 none)
    unfold visitRef
    rw [resolve_eq, Session.guard, h.failed, find_nil hi]
    simp [h.failed]
  | some index =>
    obtain ⟨t, hfind⟩ := find_objected h hr hi hl hc (start ref.2)
    exact visitRef_error start h.failed hfind

/-- A new number to which the session does not object leads to a record. -/
theorem find_admitted (h : Materialized e container limits whole seen under s)
    (hr : ref ∉ seen.map Prod.fst)
    (hc : objection e container limits seen (ref, under.length) = none) :
    ∃ index record, ref.1.index? = some index ∧ index < container.size ∧
      ref.1 ∉ seen.map (fun p => p.1.1) ∧ under.length < limits.maxDepth.toNat ∧
      recordAt? e container ref = some record ∧
      ∀ fresh start, find (codec e) fresh ref.2 ref.1 start s =
        fresh ref.2 ref.1 start record (s.note (.decoded ref.1)) := by
  obtain ⟨index, bytes, record, hi, hid, hb, hn, hd, hdepth⟩ :=
    (objection_eq_none e container limits).1 hc
  refine ⟨index, record, hi, (List.getElem?_eq_some_iff.1 hb).1, hid, hdepth, ?_, ?_⟩
  · simp [recordAt?, hi, hb, hd, Except.toOption]
  · intro fresh start
    have hfind := find_new h hr hi fresh start
    simpa only [if_neg hid, hb, hn, hd] using hfind

/-- A visit is over once the hook of its node is done. -/
theorem visitRef_closed {depth : Nat} (h : Materialized e container limits whole seen under s)
    (hr : ref ∉ seen.map Prod.fst)
    (hend : Materialized e container limits whole (seen ++ (ref, depth) :: more) (ref :: under) t)
    (hf : find (codec e) (freshAt e levels) ref.2 ref.1 (start ref.2) s =
      (.ok (some seen.length), ((t.assign seen.length (builtAt e container whole ref)).setBusy
        seen.length false).leave ref.1)) :
    ∃ s', visitRef e start levels ref s = (.ok (place whole ref.1), s') ∧
      Materialized e container limits whole (seen ++ (ref, depth) :: more) under s' := by
  have hidle : ref ∉ under := fun hm => hr (h.underway ref hm)
  have hdone := hend.finish hidle
  have hplace : place whole ref.1 = seen.length :=
    hdone.place_eq (p := (ref, depth))
      (by rw [List.getElem?_append_right le_rfl, Nat.sub_self]; rfl)
  have hentry := hdone.exists_entry (show ref ∈ _ by simp)
  have hvisit := visitRef_ok start h.failed hf hdone.failed
  rw [hplace]
  refine ⟨_, hvisit, hdone.note ?_⟩
  intro id answer he
  cases he
  exact .inr ⟨_, _, hentry, congrArg some hplace.symm⟩

theorem rebuilding_obeys (start : Kind → Built) (levels : Nat) :
    (rebuilding e container limits whole).Obeys levels (visitRef e start levels) where
  met {seen under s ref} h _ hr := by
    have hentry := h.exists_entry hr
    have hvisit := visitRef_ok start h.failed
      (find_met e hentry (freshAt e levels) (start ref.2)) h.failed
    refine ⟨_, hvisit, h.note ?_⟩
    intro id answer he
    cases he
    exact .inr ⟨_, _, hentry, rfl⟩
  refused h _ hl hr hc := visitRef_objected h hr hl hc
  opens {seen under s ref} h hadmits hl hr hc hp := by
    obtain ⟨index, record, hi, hsize, hid, hdepth, hrecord, hfind⟩ := find_admitted h hr hc
    replace hl : levels + under.length = limits.maxDepth.toNat := hl
    obtain ⟨inner, rfl⟩ : ∃ inner, levels = inner + 1 := ⟨levels - 1, by omega⟩
    replace hfind := hfind (freshAt e (inner + 1)) (start ref.2)
    have hdecoded : Materialized e container limits whole seen under (s.note (.decoded ref.1)) :=
      h.note fun id answer he => by cases he
    have hstage := hdecoded.start hi hsize hid hp (start ref.2)
    have hnode : (s.note (.decoded ref.1)).nodes.size = seen.length := hdecoded.size
    have hat : ∀ more, (seen ++ [(ref, under.length)] ++ more)[seen.length]? =
        some (ref, under.length) := by
      intro more
      rw [List.append_assoc, List.singleton_append]
      simp
    have hstrict : record.kind ≠ .lenient := by
      rw [kind_recordAt? e container hrecord]
      exact hadmits
    have hlinks : record.links = (rebuilding e container limits whole).targets ref := by
      simp [rebuilding, linksAt, hrecord]
    have hbuilt : builtAt e container whole ref = ⟨record.toContent (place whole), []⟩ := by
      simp [builtAt, hrecord]
    -- Between its links the hook only fills the new node and notes absent references.
    obtain ⟨outcome, hruns, hfills⟩ := fills_record e inner
      ((rebuilding e container limits whole).keeps_refl _ _)
      ((rebuilding e container limits whole).keeps_trans _ _)
      (fun s content more hs => Materialized.assign hs (hat more) List.mem_cons_self content)
      (fun s more hs => Materialized.note hs fun id answer he => by
        cases he
        exact .inl ⟨rfl, rfl⟩)
      hstage.failed hstrict
    rw [hnode] at hstage hfills hruns
    rw [hlinks] at hruns
    have hmaterialize := Session.materialize_eq rebuildSchema
      (resolve rebuildSchema (codec e) inner) ref.2 ref.1 (start ref.2) record
      (s.note (.decoded ref.1))
    rw [hnode, show rebuildSchema.hook (start ref.2) record = record.fill from rfl] at hmaterialize
    refine ⟨inner, _, outcome, rfl, hstage, hruns, ?_⟩
    obtain ⟨fault | nodes, t⟩ := outcome
    · obtain ⟨t', hhook⟩ := hfills
      rw [hhook] at hmaterialize
      exact visitRef_error start h.failed (hfind.trans hmaterialize)
    · intro hnodes more _ hend
      have hhook := hfills (place whole) (by rw [hnodes, hlinks]; rfl)
      rw [hhook, ← hbuilt] at hmaterialize
      exact visitRef_closed h hr hend (hfind.trans hmaterialize)

/-- The session is the search along the references, cut at its first fault. -/
theorem rebuilding_lawful : (rebuilding e container limits whole).Lawful where
  obeys levels := rebuilding_obeys .empty levels
  closed h := strict_linksAt e container h

end Visits

end ObjectGraph.Catalog
