import ObjectGraph.Proofs.Rebuild.Faults

/-! What a session provides for and never meets: a table that refuses a new node, and a new node
that is being filled already (`perform_resolveOr`). Every node that was made went into the table,
and is the one that its record's number is resolved to (`Placed.of_constructed`). -/
namespace ObjectGraph.Rebuild.Session

variable {κ ν ρ : Type} {s t : Session κ ν}

/-- How a session goes on where it never comes. -/
structure Strays (κ ν : Type) where
  /-- The table has refused a new node. -/
  refused : RecordId → Session κ ν → Except Graph.Error (Option Address) × Session κ ν
  /-- A new node is being filled already. -/
  busy : RecordId → Session κ ν → Except Graph.Error (Option Address) × Session κ ν

section Strays

variable [NodeType κ]

/-- Makes a node and fills it, but goes astray if the table refuses it or it is being filled. -/
def materializeOr (strays : Strays κ ν) (schema : Schema κ ν ρ) (resolve : Resolve κ ν) :
    Fresh κ ν ρ := fun kind id start record s =>
  let (node, made) := s.construct kind id start
  if (s.table.insert id kind node).1 = false then strays.refused id made
  else if (made.nodes[node]?).any Node.busy then strays.busy id made
  else materialize schema resolve kind id start record s

/-- Where the table takes a new node, nothing goes astray. -/
theorem materializeOr_of_taken (strays : Strays κ ν) (schema : Schema κ ν ρ)
    (resolve : Resolve κ ν) {kind : κ} {id : RecordId}
    (h : (s.table.insert id kind s.nodes.size).1 = true) (start : ν) (record : ρ) :
    materializeOr strays schema resolve kind id start record s =
      materialize schema resolve kind id start record s := by
  have hnode : (s.construct kind id start).1 = s.nodes.size := rfl
  unfold materializeOr
  dsimp only
  rw [hnode, if_neg (by simp [h]), idle_construct, if_neg (by decide)]

variable [DecidableEq κ]

/-- Resolves a number, with `strays` in place of what a session never meets. -/
def resolveOr (strays : Strays κ ν) (schema : Schema κ ν ρ) (codec : Codec κ ρ) :
    (levels : Nat) → Resolve κ ν
  | 0, kind, id, start, s =>
      guard (find codec tooDeep) kind id start s
  | levels+1, kind, id, start, s =>
      guard (find codec (materializeOr strays schema (resolveOr strays schema codec levels)))
        kind id start s

end Strays

variable {container : Container} {limits : Limits} {hooks : List RecordId}

/-- A record that has no node yet has room for one in the table. -/
theorem Booked.insert_taken {id : RecordId} (h : Booked container limits hooks [id] s) {index : Nat}
    (hi : id.index? = some index) (hindex : index < container.size)
    (hnew : s.table.entry? id = none) (kind : κ) (node : Address) :
    (s.table.insert id kind node).1 = true :=
  NodeTable.insert_taken hi hnew (h.capacity ▸ hindex) kind node

section Alike

variable [NodeType κ] [DecidableEq κ] (strays : Strays κ ν) (schema : Schema κ ν ρ)
  (codec : Codec κ ρ)

/-- No session goes astray, at whatever depth. -/
theorem alike_resolveOr {levels : Nat} (hl : hooks.length + levels ≤ limits.maxDepth.toNat) :
    Alike (Balanced container limits hooks) (resolve schema codec levels)
      (resolveOr strays schema codec levels) := by
  induction levels generalizing hooks with
  | zero => exact fun _ _ _ _ _ => rfl
  | succ levels ih =>
    intro kind id start s hs
    refine alike_guard codec (P := fun _ => True) (fun kind id index start record s _ hi hindex hnew
      hdecoded => ?_) kind id start s ⟨hs, trivial⟩
    have hinner : (id :: hooks).length + levels ≤ limits.maxDepth.toNat := by
      rw [List.length_cons]
      omega
    have hstarted := (hdecoded.hook hi hindex hnew (by omega) kind start
      (s.note (.decoded id)).nodes.size).balanced
    rw [materializeOr_of_taken _ _ _ (hdecoded.insert_taken hi hindex hnew kind _), materialize_eq,
      materialize_eq, runHook_congr schema (ih hinner) (keeps_resolve schema codec hinner)
        steady_balanced _ _ hstarted]

end Alike

/-- A number has been resolved to the node of its record, or to none if it is absent. -/
def Found (s : Session κ ν) (id : RecordId) (answer : Option Address) : Prop :=
  id = .nil ∧ answer = none ∨
    ∃ kind node, s.table.entry? id = some (kind, node) ∧ answer = some node

/-- Every node that was made went into the table, and is found there. -/
structure Placed (s : Session κ ν) : Prop where
  inserted : ∀ {id inserted}, .constructed id inserted ∈ s.trace → inserted = true
  found : ∀ {id answer}, .resolved id answer ∈ s.trace → Found s id answer

namespace Placed

/-- The node that was made for a record is found by whatever leads back to the record. -/
theorem of_constructed {ahead : List RecordId} (h : Placed s)
    (hb : Booked container limits hooks ahead s) {id : RecordId} {inserted : Bool}
    (he : .constructed id inserted ∈ s.trace) :
    inserted = true ∧ ∃ kind node, s.table.entry? id = some (kind, node) ∧
      ∀ answer, .resolved id answer ∈ s.trace → answer = some node := by
  have hmade : id ∈ s.made := List.mem_filterMap.2 ⟨_, he, rfl⟩
  obtain ⟨⟨kind, node⟩, hentry⟩ := Option.isSome_iff_exists.1 (hb.mem_made.1 hmade)
  refine ⟨h.inserted he, kind, node, hentry, fun answer hanswer => ?_⟩
  obtain ⟨rfl, -⟩ | ⟨kind', node', hentry', rfl⟩ := h.found hanswer
  · cases hentry
  · rw [hentry, Option.some.injEq, Prod.mk.injEq] at hentry'
    rw [hentry'.2]

theorem of_start [DecidableEq κ] [NodeType κ] (hs : start container limits = .ok s) : Placed s := by
  unfold start at hs
  split at hs <;> cases hs
  exact ⟨nofun, nofun⟩

/-- A further step that makes no node, and answers with none but the one in the table. -/
theorem step (h : Placed s) {event : Event} (htable : t.table = s.table)
    (htrace : t.trace = event :: s.trace) (hc : event.constructed? = none)
    (hr : ∀ id answer, event = .resolved id answer → Found s id answer) : Placed t where
  inserted he := by
    rw [htrace] at he
    rcases List.mem_cons.1 he with rfl | he
    · cases hc
    · exact h.inserted he
  found he := by
    rw [htrace] at he
    rw [Found, htable]
    rcases List.mem_cons.1 he with he | he
    · exact hr _ _ he.symm
    · exact h.found he

/-- A new node takes its place, and no other one's. -/
theorem construct {id : RecordId} (h : Placed s) {kind : κ}
    (htaken : (s.table.insert id kind s.nodes.size).1 = true) (start : ν) :
    Placed (s.construct kind id start).2 where
  inserted he := by
    rcases List.mem_cons.1 he with he | he
    · cases he
      exact htaken
    · exact h.inserted he
  found he := by
    rcases List.mem_cons.1 he with he | he
    · cases he
    · obtain hnil | ⟨kind', node, hentry, hanswer⟩ := h.found he
      · exact .inl hnil
      · exact .inr ⟨kind', node, NodeTable.entry?_insert_of_some hentry .., hanswer⟩

/-- The hook of a new node starts. -/
theorem started {id : RecordId} (h : Placed s) {kind : κ}
    (htaken : (s.table.insert id kind s.nodes.size).1 = true) (start : ν) (node : Address) :
    Placed (((s.construct kind id start).2.enter id).setBusy node true) :=
  (h.construct htaken start).step rfl rfl rfl nofun

/-- The hook of a node is done. -/
theorem finished (h : Placed s) (node : Address) (id : RecordId) :
    Placed ((s.setBusy node false).leave id) :=
  h.step rfl rfl rfl nofun

theorem decoded (h : Placed s) (id : RecordId) : Placed (s.note (.decoded id)) :=
  h.step rfl rfl rfl nofun

theorem steady : Steady (Placed : Session κ ν → Prop) where
  refused _ h := h.step rfl rfl rfl nofun
  assign _ _ h := ⟨h.inserted, h.found⟩

end Placed

/-- What becomes of the places of nodes as a number is resolved. -/
def Places (id : RecordId) : Except Graph.Error (Option Address) × Session κ ν → Prop
  | (.error _, s) => Placed s
  | (.ok answer, s) => Placed s ∧ Found s id answer

theorem Steady.and {P Q : Session κ ν → Prop} (hP : Steady P) (hQ : Steady Q) :
    Steady fun s => P s ∧ Q s where
  refused e h := ⟨hP.refused e h.1, hQ.refused e h.2⟩
  assign node content h := ⟨hP.assign node content h.1, hQ.assign node content h.2⟩

section Runs

variable [NodeType κ] (schema : Schema κ ν ρ) {resolve : Resolve κ ν}

variable (container limits hooks) in
/-- A record without a node is dealt with so that every node keeps its place. -/
def PlacesFresh (fresh : Fresh κ ν ρ) : Prop :=
  ∀ kind id index start record s, id.index? = some index → index < container.size →
    Booked container limits hooks [id] s → s.table.entry? id = none → Placed s →
    Places id (fresh kind id start record s)

omit [NodeType κ] in
theorem placesFresh_tooDeep : PlacesFresh container limits hooks (tooDeep : Fresh κ ν ρ) :=
  fun _ _ _ _ _ _ _ _ _ _ hp => hp

theorem placesFresh_materialize (hroom : hooks.length < limits.maxDepth.toNat)
    (hr : ∀ id, Keeps (fun s => Balanced container limits (id :: hooks) s ∧ Placed s) resolve)
    (hg : ∀ s, Keeps (Grows s) resolve) :
    PlacesFresh container limits hooks (materialize schema resolve) := by
  intro kind id index start record s hi hindex h hnew hp
  have htaken := h.insert_taken hi hindex hnew kind s.nodes.size
  have hran := (kept_runHook schema (hr id) (steady_balanced.and Placed.steady) s.nodes.size
    (schema.hook start record)
    ⟨(h.hook hi hindex hnew hroom kind start s.nodes.size).balanced, hp.started htaken start _⟩).2
  have hgrown := kept_runHook schema (hg _) Grows.steady s.nodes.size (schema.hook start record)
    (Grows.refl (((s.construct kind id start).2.enter id).setBusy s.nodes.size true))
  have hentry : (s.construct kind id start).2.table.entry? id = some (kind, s.nodes.size) :=
    (NodeTable.entry?_insert hi hnew (h.capacity ▸ hindex) kind s.nodes.size id).trans (if_pos rfl)
  rw [materialize_eq]
  rcases hv : runHook schema resolve s.nodes.size (schema.hook start record)
    (((s.construct kind id start).2.enter id).setBusy s.nodes.size true) with ⟨e | x, t⟩ <;>
    rw [hv] at hran hgrown
  · exact hran.finished s.nodes.size id
  · exact ⟨hran.finished s.nodes.size id, .inr ⟨kind, _, hgrown.entry hentry, rfl⟩⟩

variable [DecidableEq κ] (codec : Codec κ ρ)

/-- A number that needs no decoding is answered from the table, if at all. -/
theorem found_of_lookUp {kind : κ} {id : RecordId} {answer : Option Address}
    (h : s.lookUp kind id = .inl (.ok answer)) : Found s id answer := by
  unfold lookUp at h
  split at h
  · next hi =>
    cases h
    refine .inl ⟨?_, rfl⟩
    by_contra hn
    rw [RecordId.index?_eq_some.2 ⟨hn, rfl⟩] at hi
    cases hi
  · split at h
    · cases h
    · next node hget =>
      cases h
      unfold NodeTable.get at hget
      split at hget
      · cases hget
      · next found _ hentry =>
        split at hget <;> cases hget
        exact .inr ⟨found, node, hentry, rfl⟩
    · split at h
      · cases h
      · split at h <;> cases h

theorem places_find {fresh : Fresh κ ν ρ} (hfresh : PlacesFresh container limits hooks fresh)
    (kind : κ) (id : RecordId) (start : ν) (h : Booked container limits hooks [] s)
    (hp : Placed s) : Places id (find codec fresh kind id start s) := by
  rw [find_eq]
  rcases hv : s.lookUp kind id with (e | answer) | bytes
  · exact hp
  · exact ⟨hp, found_of_lookUp hv⟩
  · obtain ⟨index, hi, hindex, hnew, -⟩ := of_lookUp hv
    rw [h.container_eq] at hindex
    have hdecoded : Booked container limits hooks [id] (s.note (.decoded id)) :=
      h.decode (by simp [h.mem_made, hnew])
    dsimp only
    split
    · exact hp.decoded id
    · exact hfresh _ _ index _ _ _ hi hindex hdecoded hnew (hp.decoded id)

theorem placed_guard {fresh : Fresh κ ν ρ} (hfresh : PlacesFresh container limits hooks fresh)
    (kind : κ) (id : RecordId) (start : ν) (h : Balanced container limits hooks s)
    (hp : Placed s) : Placed (guard (find codec fresh) kind id start s).2 := by
  unfold guard
  split
  · exact hp
  next hunfailed =>
  have hplaces := places_find codec hfresh kind id start (h.booked (by simpa using hunfailed)) hp
  rcases hv : find codec fresh kind id start s with ⟨e | answer, t⟩ <;> rw [hv] at hplaces
  · exact ⟨hplaces.inserted, hplaces.found⟩
  · obtain ⟨ht, hfound⟩ := hplaces
    dsimp only
    split
    · exact ht
    · refine ht.step rfl rfl rfl fun id answer he => ?_
      cases he
      exact hfound

theorem keeps_placed {levels : Nat} (hl : hooks.length + levels ≤ limits.maxDepth.toNat) :
    Keeps (fun s => Balanced container limits hooks s ∧ Placed s)
      (Session.resolve schema codec levels) := by
  induction levels generalizing hooks with
  | zero =>
    rintro kind id start s ⟨hs, hp⟩
    refine ⟨keeps_resolve schema codec hl kind id start s hs, ?_⟩
    exact placed_guard codec placesFresh_tooDeep kind id start hs hp
  | succ levels ih =>
    rintro kind id start s ⟨hs, hp⟩
    refine ⟨keeps_resolve schema codec hl kind id start s hs, ?_⟩
    refine placed_guard codec (placesFresh_materialize schema (by omega) (fun id => ih ?_)
      fun s => Grows.keeps_resolve codec levels) kind id start hs hp
    rw [List.length_cons]
    omega

theorem placed_after {s : Session κ ν} (hs : start container limits = .ok s)
    (calls : List (Call κ ν)) :
    Balanced container limits [] (s.after schema codec calls) ∧
      Placed (s.after schema codec calls) := by
  refine kept_after (P := fun s => Balanced container limits [] s ∧ Placed s) (fun s c h => ?_)
    ⟨(Booked.of_start hs).balanced, .of_start hs⟩ calls
  exact kept_perform schema (keeps_placed schema codec h.1.levels_le)
    (steady_balanced.and Placed.steady) h c

/-- The requests of a caller are answered as they would be by a session that goes astray. -/
theorem perform_resolveOr (strays : Strays κ ν) (hs : Balanced container limits [] s)
    (c : Call κ ν) :
    s.perform schema (resolveOr strays schema codec s.limits.maxDepth.toNat) c =
      s.request schema codec c :=
  (perform_congr schema (alike_resolveOr strays schema codec hs.levels_le)
    (keeps_resolve schema codec hs.levels_le) hs c).symm

/-- A root that is resolved is resolved to a node. -/
theorem resolve_root_ne_none (levels : Nat) (kind : κ) (start : ν) (s : Session κ ν) :
    (Session.resolve schema codec levels kind .root start s).1 ≠ .ok none := by
  intro h
  have habsent := (poisons_resolve schema codec levels).absent (Prod.ext h rfl)
  exact absurd habsent (by decide)

end Runs

end ObjectGraph.Rebuild.Session
