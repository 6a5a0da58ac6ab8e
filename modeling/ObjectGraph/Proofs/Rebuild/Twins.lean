import ObjectGraph.Proofs.Rebuild.Poison

/-! Two sessions on the same records that know other type names, or check them in other ways. While
neither refuses a look-up for the name of a type, and no hook acts on names, they go through the
same steps (`Pairing.lockstep_request`) and are told apart by what they say of names alone. -/
namespace ObjectGraph.Rebuild

variable {κ ν ρ α : Type}

/-- What two sessions have in common, and the type names that each of them knows. -/
structure Pairing (κ ν : Type) where
  records : List Bytes
  names : RecordId → Option String
  names' : RecordId → Option String
  /-- The look-ups that neither session refuses for a name. -/
  Admits : κ → RecordId → Prop
  /-- Contents that differ in what they say of names at most. -/
  Same : ν → ν → Prop
  same_refl : ∀ content, Same content content

/-- Whether every record that a request is for is admitted. -/
def Call.Asks (Admits : κ → RecordId → Prop) : Call κ ν → Prop
  | .root kind _ => Admits kind .root
  | .resolve kind id _ | .required kind id => Admits kind id
  | .all kind ids => ∀ id ∈ ids, Admits kind id

theorem Call.asks_of_all {Admits : κ → RecordId → Prop} (h : ∀ kind id, Admits kind id)
    (call : Call κ ν) : call.Asks Admits := by
  cases call with
  | all kind ids => exact fun id _ => h kind id
  | _ => exact h _ _

namespace Pairing

/-- One refusal, told with the names of either session. -/
inductive Retold (P : Pairing κ ν) : Graph.Error → Graph.Error → Prop
  | same (e : Graph.Error) : Retold P e e
  | mismatch (id : RecordId) (expected text : String) :
      Retold P (.typeMismatch id expected ((P.names id).getD text))
        (.typeMismatch id expected ((P.names' id).getD text))

/-- The same answer, or one refusal. -/
inductive Agrees (P : Pairing κ ν) : Except Graph.Error α → Except Graph.Error α → Prop
  | ok (x : α) : Agrees P (.ok x) (.ok x)
  | error {e e' : Graph.Error} : P.Retold e e' → Agrees P (.error e) (.error e')

/-- Hooks that do the same with answers and names of either session. -/
inductive Tracks (P : Pairing κ ν) : Hook κ ν → Hook κ ν → Prop
  | done : Tracks P .done .done
  | fail {e e' : Graph.Error} : P.Retold e e' → Tracks P (.fail e) (.fail e')
  | assign {content content' : ν} {next next' : Hook κ ν} : P.Same content content' →
      Tracks P next next' → Tracks P (.assign content next) (.assign content' next')
  | call {c : Call κ ν} {next next' : Except Graph.Error c.Answer → Hook κ ν} :
      c.Asks P.Admits → (∀ a a', P.Agrees a a' → Tracks P (next a) (next' a')) →
      Tracks P (.call c next) (.call c next')
  | look {next next' : Glance → Hook κ ν} :
      (∀ g : Glance, Tracks P (next { g with typeName? := P.names })
        (next' { g with typeName? := P.names' })) → Tracks P (.look next) (.look next')

/-- A step, or one refusal that is noted. -/
inductive Noted (P : Pairing κ ν) : Event → Event → Prop
  | same (e : Event) : Noted P e e
  | refused {e e' : Graph.Error} (failed : Bool) : P.Retold e e' →
      Noted P (.refused e failed) (.refused e' failed)

structure NodeLike (P : Pairing κ ν) (n n' : Node κ ν) : Prop where
  kind : n.kind = n'.kind
  content : P.Same n.content n'.content
  busy : n.busy = n'.busy

/-- Two sessions after the same steps. -/
structure Twins (P : Pairing κ ν) [NodeType κ] (s s' : Session κ ν) : Prop where
  records : s.container.records = P.records ∧ s'.container.records = P.records
  names : s.typeName? = P.names ∧ s'.typeName? = P.names'
  admits : ∀ {kind id index}, P.Admits kind id → id.index? = some index →
    s.checkTypeName kind id index = .ok () ∧ s'.checkTypeName kind id index = .ok ()
  maxDepth : s.limits.maxDepth = s'.limits.maxDepth
  table : s.table = s'.table
  size : s.nodes.size = s'.nodes.size
  nodes : ∀ node : Address, Option.Rel P.NodeLike s.nodes[node]? s'.nodes[node]?
  depth : s.depth = s'.depth
  failed : s.failed = s'.failed
  trace : List.Forall₂ P.Noted s.trace s'.trace

/-- Outcomes that agree, of sessions after the same steps. -/
inductive Lockstep (P : Pairing κ ν) [NodeType κ] :
    Except Graph.Error α × Session κ ν → Except Graph.Error α × Session κ ν → Prop
  | ok (x : α) {s s' : Session κ ν} : P.Twins s s' → Lockstep P (.ok x, s) (.ok x, s')
  | error {e e' : Graph.Error} {s s' : Session κ ν} : P.Retold e e' → P.Twins s s' →
      Lockstep P (.error e, s) (.error e', s')

variable {P : Pairing κ ν}

theorem NodeLike.refl (n : Node κ ν) : P.NodeLike n n := ⟨rfl, P.same_refl _, rfl⟩

section Steps

open Session

variable [NodeType κ] {s s' : Session κ ν}

namespace Twins

theorem decodes (h : P.Twins s s') : s.decodes = s'.decodes := by
  have htrace := h.trace
  unfold Session.decodes
  generalize s.trace = events at htrace
  generalize s'.trace = events' at htrace
  induction htrace with
  | nil => rfl
  | cons he _ ih =>
    simp only [List.countP_cons, ih]
    cases he <;> rfl

/-- What a hook sees of its session, but for the names. -/
theorem glance (h : P.Twins s s') : ∃ g : Glance,
    s.glance = { g with typeName? := P.names } ∧ s'.glance = { g with typeName? := P.names' } := by
  refine ⟨s.glance, ?_, ?_⟩
  · rw [← h.names.1]
    rfl
  · have hrecords : s'.recordCount = s.recordCount := by
      simp only [recordCount, Container.size, h.records.1, h.records.2]
    have hmaterialized : s'.materializedCount = s.materializedCount := by
      rw [materializedCount, materializedCount, h.table]
    rw [← h.names.2]
    simp only [Session.glance, hrecords, hmaterialized, h.failed]

theorem note (h : P.Twins s s') {e e' : Event} (he : P.Noted e e') :
    P.Twins (s.note e) (s'.note e') :=
  { h with trace := .cons he h.trace }

/-- One change of a node that keeps it alike. -/
theorem modify (h : P.Twins s s') (node : Address) {f f' : Node κ ν → Node κ ν}
    (hf : ∀ {n n'}, P.NodeLike n n' → P.NodeLike (f n) (f' n')) :
    P.Twins { s with nodes := s.nodes.modify node f } { s' with nodes := s'.nodes.modify node f' } :=
  { h with
    size := by simpa using h.size
    nodes := fun k => by
      rw [Array.getElem?_modify, Array.getElem?_modify]
      have hk := h.nodes k
      split
      · cases hn : s.nodes[k]? <;> cases hn' : s'.nodes[k]? <;> rw [hn, hn'] at hk <;> cases hk
        · exact .none
        · exact .some (hf ‹_›)
      · exact hk }

theorem construct (h : P.Twins s s') (kind : κ) (id : RecordId) (content : ν) :
    (s.construct kind id content).1 = (s'.construct kind id content).1 ∧
      P.Twins (s.construct kind id content).2 (s'.construct kind id content).2 := by
  have hinsert : s.table.insert id kind s.nodes.size = s'.table.insert id kind s'.nodes.size := by
    rw [h.table, h.size]
  refine ⟨h.size, { h with table := congrArg Prod.snd hinsert, size := ?_, nodes := ?_, trace := ?_ }⟩
  · simpa [Session.construct, Session.note] using h.size
  · intro k
    simp only [Session.construct, Session.note, Array.getElem?_push, ← h.size]
    split
    · exact .some (.refl _)
    · exact h.nodes k
  · simp only [Session.construct, Session.note, hinsert]
    exact .cons (.same _) h.trace

theorem enter (h : P.Twins s s') (id : RecordId) : P.Twins (s.enter id) (s'.enter id) := by
  have hdepth := h.depth
  refine { h with depth := congrArg (· + 1) hdepth, trace := ?_ }
  simp only [Session.enter, Session.note, hdepth]
  exact .cons (.same _) h.trace

theorem leave (h : P.Twins s s') (id : RecordId) : P.Twins (s.leave id) (s'.leave id) :=
  { h with depth := congrArg (· - 1) h.depth, trace := .cons (.same _) h.trace }

theorem setBusy (h : P.Twins s s') (node : Address) (busy : Bool) :
    P.Twins (s.setBusy node busy) (s'.setBusy node busy) :=
  h.modify node fun hn => ⟨hn.kind, hn.content, rfl⟩

theorem assign (h : P.Twins s s') (node : Address) {content content' : ν}
    (hc : P.Same content content') :
    P.Twins (s.assign node content) (s'.assign node content') :=
  h.modify node fun hn => ⟨hn.kind, hc, hn.busy⟩

theorem fail (h : P.Twins s s') :
    P.Twins { s with failed := true } { s' with failed := true } :=
  { h with failed := rfl }

theorem busy (h : P.Twins s s') (node : Address) :
    (s.nodes[node]?).any Node.busy = (s'.nodes[node]?).any Node.busy := by
  have hn := h.nodes node
  generalize s.nodes[node]? = x at hn ⊢
  generalize s'.nodes[node]? = y at hn ⊢
  cases hn with
  | none => rfl
  | some hn => exact hn.busy

theorem explain (h : P.Twins s s') (e : Graph.Error) : P.Retold (s.explain e) (s'.explain e) := by
  cases e with
  | typeMismatch id expected found =>
    simp only [Session.explain, h.names.1, h.names.2]
    exact .mismatch id expected found
  | _ => exact .same _

end Twins

variable (P) in
/-- A resolution that takes twins to twins, for the records that both admit. -/
def Guides (resolve : Resolve κ ν) : Prop :=
  ∀ kind id start s s', P.Admits kind id → P.Twins s s' →
    P.Lockstep (resolve kind id start s) (resolve kind id start s')

theorem Lockstep.agrees {r r' : Except Graph.Error α × Session κ ν} (h : P.Lockstep r r') :
    P.Agrees r.1 r'.1 := by
  cases h with
  | ok x => exact .ok x
  | error he => exact .error he

theorem Lockstep.twins {r r' : Except Graph.Error α × Session κ ν} (h : P.Lockstep r r') :
    P.Twins r.2 r'.2 := by
  cases h <;> assumption

section Requests

variable (schema : Schema κ ν ρ) {resolve : Resolve κ ν}

theorem lockstep_require (hr : P.Guides resolve) {kind : κ} {id : RecordId}
    (ha : P.Admits kind id) (h : P.Twins s s') :
    P.Lockstep (require schema resolve kind id s) (require schema resolve kind id s') := by
  have hstep := hr kind id (schema.empty kind) s s' ha h
  unfold require
  generalize resolve kind id (schema.empty kind) s = r at hstep ⊢
  generalize resolve kind id (schema.empty kind) s' = r' at hstep ⊢
  cases hstep with
  | error he ht => exact .error he ht
  | ok x ht => cases x with
    | none => exact .error (.same _) ht
    | some node => exact .ok node ht

theorem lockstep_requireAll (hr : P.Guides resolve) {kind : κ} {ids : List RecordId}
    (ha : ∀ id ∈ ids, P.Admits kind id) (done : List Address) (h : P.Twins s s') :
    P.Lockstep (requireAll (require schema resolve kind) ids done s)
      (requireAll (require schema resolve kind) ids done s') := by
  induction ids generalizing done s s' with
  | nil => exact .ok _ h
  | cons id ids ih =>
    obtain ⟨hid, hids⟩ := List.forall_mem_cons.1 ha
    have hstep := lockstep_require schema hr hid h
    unfold requireAll
    generalize require schema resolve kind id s = r at hstep ⊢
    generalize require schema resolve kind id s' = r' at hstep ⊢
    cases hstep with
    | error he ht => exact .error he ht
    | ok node ht => exact ih hids (node :: done) ht

theorem lockstep_answer (hr : P.Guides resolve) {c : Call κ ν} (ha : c.Asks P.Admits)
    (h : P.Twins s s') :
    P.Lockstep (s.answer schema resolve c) (s'.answer schema resolve c) := by
  cases c with
  | root kind start =>
    have hstep := hr kind .root start s s' ha h
    have hempty : s.container.isEmpty = s'.container.isEmpty := by
      simp only [Container.isEmpty, h.records.1, h.records.2]
    simp only [answer, hempty]
    split
    · exact .error (.same _) h
    generalize resolve kind .root start s = r at hstep ⊢
    generalize resolve kind .root start s' = r' at hstep ⊢
    cases hstep with
    | error he ht => exact .error he ht
    | ok x ht => cases x with
      | none => exact .error (.same _) ht
      | some node => exact .ok node ht
  | resolve kind id start => exact hr kind id start s s' ha h
  | required kind id => exact lockstep_require schema hr ha h
  | all kind ids => exact lockstep_requireAll schema hr ha [] h

theorem lockstep_perform (hr : P.Guides resolve) {c : Call κ ν} (ha : c.Asks P.Admits)
    (h : P.Twins s s') :
    P.Lockstep (s.perform schema resolve c) (s'.perform schema resolve c) := by
  have hstep := lockstep_answer schema hr ha h
  unfold perform
  generalize s.answer schema resolve c = r at hstep ⊢
  generalize s'.answer schema resolve c = r' at hstep ⊢
  cases hstep with
  | ok x ht => exact .ok x ht
  | @error e e' t t' he ht =>
    refine .error he (ht.note ?_)
    rw [ht.failed]
    exact .refused _ he

/-- Hooks that track each other keep their sessions twins. -/
theorem lockstep_runHook (hr : P.Guides resolve) (node : Address) {hook hook' : Hook κ ν}
    (hh : P.Tracks hook hook') (h : P.Twins s s') :
    P.Lockstep (runHook schema resolve node hook s) (runHook schema resolve node hook' s') := by
  induction hh generalizing s s' with
  | done => exact .ok () h
  | fail he => exact .error he h
  | assign hc _ ih => exact ih (h.assign node hc)
  | call ha _ ih =>
    have hstep := lockstep_perform schema hr ha h
    exact ih _ _ hstep.agrees hstep.twins
  | look _ ih =>
    obtain ⟨g, hg, hg'⟩ := h.glance
    unfold runHook
    rw [hg, hg']
    exact ih g h

end Requests

section Levels

variable {schema : Schema κ ν ρ} {codec : Codec κ ρ}

variable (schema) in
theorem lockstep_fill {resolve : Resolve κ ν} (hr : P.Guides resolve) (id : RecordId)
    (node : Address) {start : ν} {record : ρ}
    (hh : P.Tracks (schema.hook start record) (schema.hook start record)) (h : P.Twins s s') :
    P.Lockstep (s.fill schema resolve id node start record)
      (s'.fill schema resolve id node start record) := by
  unfold fill
  rw [h.busy node]
  split
  · exact .error (.same _) h
  · have hstep := lockstep_runHook schema hr node hh ((h.enter id).setBusy node true)
    dsimp only
    generalize runHook schema resolve node (schema.hook start record)
      ((s.enter id).setBusy node true) = r at hstep ⊢
    generalize runHook schema resolve node (schema.hook start record)
      ((s'.enter id).setBusy node true) = r' at hstep ⊢
    cases hstep with
    | ok x ht => exact .ok x ((ht.setBusy node false).leave id)
    | error he ht => exact .error he ((ht.setBusy node false).leave id)

variable (P) in
/-- A treatment of new records that takes twins to twins, for records whose hooks do. -/
def Treats (schema : Schema κ ν ρ) (fresh : Fresh κ ν ρ) : Prop :=
  ∀ kind id start record s s', P.Tracks (schema.hook start record) (schema.hook start record) →
    P.Twins s s' → P.Lockstep (fresh kind id start record s) (fresh kind id start record s')

theorem treats_tooDeep : P.Treats schema tooDeep := by
  intro kind id start record s s' _ h
  unfold tooDeep
  rw [h.maxDepth]
  exact .error (.same _) h

theorem treats_materialize {resolve : Resolve κ ν} (hr : P.Guides resolve) :
    P.Treats schema (materialize schema resolve) := by
  intro kind id start record s s' hh h
  obtain ⟨hnode, htwins⟩ := h.construct kind id start
  unfold materialize
  generalize s.construct kind id start = r at hnode htwins ⊢
  generalize s'.construct kind id start = r' at hnode htwins ⊢
  obtain ⟨node, t⟩ := r
  obtain ⟨node', t'⟩ := r'
  subst hnode
  have hstep := lockstep_fill schema hr id node hh htwins
  dsimp only at hstep ⊢
  generalize t.fill schema resolve id node start record = q at hstep ⊢
  generalize t'.fill schema resolve id node start record = q' at hstep ⊢
  cases hstep with
  | ok _ ht => exact .ok _ ht
  | error he ht => exact .error he ht

variable [DecidableEq κ]

variable (P) in
/-- The hooks of all records that can be come by keep to what is admitted. -/
def Tracked (schema : Schema κ ν ρ) (codec : Codec κ ρ) : Prop :=
  ∀ kind id index bytes calls start record, P.Admits kind id → id.index? = some index →
    P.records[index]? = some bytes → codec.decode calls kind bytes = .ok record →
      P.Tracks (schema.hook start record) (schema.hook start record)

theorem guides_find {fresh : Fresh κ ν ρ} (hf : P.Tracked schema codec)
    (hm : P.Treats schema fresh) : P.Guides (find codec fresh) := by
  intro kind id start s s' ha h
  unfold find
  cases hi : id.index? with
  | none => exact .ok none h
  | some index =>
    dsimp only
    rw [← h.table]
    cases s.table.get kind id with
    | error e => exact .error (h.explain e) h
    | ok found => cases found with
      | some node => exact .ok _ h
      | none =>
        obtain ⟨hcheck, hcheck'⟩ := h.admits ha hi
        simp only [Container.size, h.records.1, h.records.2, hcheck, hcheck']
        cases hb : P.records[index]? with
        | none => exact .error (.same _) h
        | some bytes =>
          have hnoted := h.note (.same (.decoded id))
          dsimp only
          rw [← h.decodes]
          cases hd : codec.decode s.decodes kind bytes with
          | error source => exact .error (.same _) hnoted
          | ok record =>
            exact hm kind id start record _ _ (hf _ _ _ _ _ start _ ha hi hb hd) hnoted

omit [DecidableEq κ] in
theorem guides_guard {resolve : Resolve κ ν} (hr : P.Guides resolve) :
    P.Guides (Session.guard resolve) := by
  intro kind id start s s' ha h
  have hstep := hr kind id start s s' ha h
  unfold Session.guard
  rw [h.failed]
  split
  · exact .error (.same _) h
  generalize resolve kind id start s = r at hstep ⊢
  generalize resolve kind id start s' = r' at hstep ⊢
  cases hstep with
  | error he ht => exact .error he ht.fail
  | ok node ht =>
    dsimp only
    rw [ht.failed, ht.depth]
    split
    · exact .error (.same _) ht
    · exact .ok node (ht.note (.same _))

theorem guides_resolve (hf : P.Tracked schema codec) (levels : Nat) :
    P.Guides (resolve schema codec levels) := by
  induction levels with
  | zero => exact guides_guard (guides_find hf treats_tooDeep)
  | succ levels ih => exact guides_guard (guides_find hf (treats_materialize ih))

/-- A request that both sessions admit is answered alike. -/
theorem lockstep_request (hf : P.Tracked schema codec) {c : Call κ ν} (ha : c.Asks P.Admits)
    (h : P.Twins s s') :
    P.Lockstep (s.request schema codec c) (s'.request schema codec c) := by
  unfold request
  rw [h.maxDepth]
  exact lockstep_perform schema (guides_resolve hf _) ha h

theorem twins_after (hf : P.Tracked schema codec) (calls : List (Call κ ν))
    (ha : ∀ c ∈ calls, c.Asks P.Admits) (h : P.Twins s s') :
    P.Twins (s.after schema codec calls) (s'.after schema codec calls) := by
  induction calls generalizing s s' with
  | nil => exact h
  | cons c calls ih =>
    obtain ⟨hc, hcalls⟩ := List.forall_mem_cons.1 ha
    exact ih hcalls (lockstep_request hf hc h).twins

omit [DecidableEq κ] in
/-- New sessions on the same records are twins. -/
theorem twins_of_start {c c' : Container} {limits limits' : Limits}
    (hs : start c limits = .ok s) (hs' : start c' limits' = .ok s')
    (hrecords : c.records = P.records ∧ c'.records = P.records)
    (hnames : s.typeName? = P.names ∧ s'.typeName? = P.names')
    (hdepth : limits.maxDepth = limits'.maxDepth)
    (ha : ∀ {kind id index}, P.Admits kind id → id.index? = some index →
      s.checkTypeName kind id index = .ok () ∧ s'.checkTypeName kind id index = .ok ()) :
    P.Twins s s' := by
  unfold start at hs hs'
  split at hs <;> cases hs
  split at hs' <;> cases hs'
  exact {
    records := hrecords
    names := hnames
    admits := ha
    maxDepth := hdepth
    table := by simp only [Container.size, hrecords.1, hrecords.2]
    size := rfl
    nodes := fun node => by simp
    depth := rfl
    failed := rfl
    trace := .nil }

end Levels

end Steps
end Pairing
end ObjectGraph.Rebuild
