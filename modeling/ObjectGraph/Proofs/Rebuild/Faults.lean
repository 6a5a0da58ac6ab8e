import ObjectGraph.Proofs.Rebuild.Bookkeeping

/-! Two runs of one request, under a codec and under one that fails at a decoding after so many
others. They are one run up to that record. There the second one ends, with a fault that names the
record which the first one has decoded in its turn (`request_faulty`). -/
namespace ObjectGraph

/-- A codec, and another that is the same but for one decoding, which it refuses. -/
structure Codec.DecodeFault {κ ρ : Type} (codec codec' : Codec κ ρ) (n : Nat) (fault : Encoding.Error) :
    Prop where
  same : ∀ {calls : Nat} (kind : κ) (bytes : Bytes), calls ≠ n →
    codec'.decode calls kind bytes = codec.decode calls kind bytes
  refuses : ∀ (kind : κ) (bytes : Bytes), codec'.decode n kind bytes = .error fault

theorem Codec.decodeFault_failing {κ ρ : Type} (codec : Codec κ ρ) (encodeAt : Option Nat) (n : Nat) :
    codec.DecodeFault (codec.failing encodeAt (some n)) n
      (.other s!"injected decode failure #{n}") where
  same _ _ hne := if_neg fun h => hne (Option.some.inj h).symm
  refuses _ _ := if_pos rfl

namespace Rebuild

variable {κ ν ρ β γ : Type}

/-- A program that requests nodes of admitted types alone, and gives up at the first refusal. -/
def Hook.Strict (Admits : κ → Prop) : Hook κ ν → Prop
  | .done | .fail _ => True
  | .assign _ next => next.Strict Admits
  | .call c next =>
      Admits c.kind ∧ (∀ e, next (.error e) = .fail e) ∧ ∀ x, (next (.ok x)).Strict Admits
  | .look next => ∀ glance, (next glance).Strict Admits

namespace Session

variable {s t u : Session κ ν}

/-- A session further on: what was traced is, and what was entered into the table is there. -/
structure Grows (s t : Session κ ν) : Prop where
  trace : s.trace <:+ t.trace
  entry : ∀ {id entry}, s.table.entry? id = some entry → t.table.entry? id = some entry

namespace Grows

theorem refl (s : Session κ ν) : Grows s s := ⟨List.suffix_refl _, id⟩

theorem note (h : Grows s t) (event : Event) : Grows s (t.note event) :=
  ⟨h.trace.trans (List.suffix_cons ..), h.entry⟩

theorem fail (h : Grows s t) : Grows s { t with failed := true } := ⟨h.trace, h.entry⟩

theorem steady : Steady (Grows s) where
  refused _ h := h.note _
  assign _ _ h := ⟨h.trace, h.entry⟩

/-- The hook of a new node starts. -/
theorem started (h : Grows s t) (kind : κ) (id : RecordId) (start : ν) (node : Address) :
    Grows s (((t.construct kind id start).2.enter id).setBusy node true) :=
  ⟨h.trace.trans ((List.suffix_cons ..).trans (List.suffix_cons ..)),
    fun he => NodeTable.entry?_insert_of_some (h.entry he) ..⟩

/-- The hook of a node is done. -/
theorem finished (h : Grows s t) (node : Address) (id : RecordId) :
    Grows s ((t.setBusy node false).leave id) :=
  ⟨h.trace.trans (List.suffix_cons ..), h.entry⟩

variable [NodeType κ] {schema : Schema κ ν ρ} {resolve : Resolve κ ν}

theorem materialize (hr : Keeps (Grows s) resolve) (h : Grows s t) (kind : κ) (id : RecordId)
    (start : ν) (record : ρ) :
    Grows s (Session.materialize schema resolve kind id start record t).2 := by
  have hran := kept_runHook schema hr steady t.nodes.size (schema.hook start record)
    (h.started kind id start t.nodes.size)
  rw [materialize_eq]
  rcases hv : runHook schema resolve t.nodes.size (schema.hook start record)
    (((t.construct kind id start).2.enter id).setBusy t.nodes.size true) with ⟨e | x, u⟩ <;>
    rw [hv] at hran <;> exact hran.finished t.nodes.size id

variable [DecidableEq κ] (codec : Codec κ ρ)

theorem keeps_guard {fresh : Fresh κ ν ρ}
    (hf : ∀ kind id start record t, Grows s t → Grows s (fresh kind id start record t).2) :
    Keeps (Grows s) (guard (find codec fresh)) := by
  intro kind id start t h
  have hfind : Grows s (find codec fresh kind id start t).2 := by
    rw [find_eq]
    rcases t.lookUp kind id with outcome | bytes
    · exact h
    · dsimp only
      split
      · exact h.note _
      · exact hf kind id start _ _ (h.note _)
  unfold guard
  split
  · exact h
  · rcases hv : find codec fresh kind id start t with ⟨e | node, u⟩ <;> rw [hv] at hfind
    · exact hfind.fail
    · dsimp only
      split
      · exact hfind
      · exact hfind.note _

theorem keeps_resolve (levels : Nat) :
    Keeps (Grows s) (Session.resolve schema codec levels) := by
  induction levels with
  | zero => exact keeps_guard codec fun _ _ _ _ _ h => h
  | succ levels ih =>
    exact keeps_guard codec fun kind id start record t h => materialize ih h kind id start record

end Grows

/-- The record that was decoded after `n` others has a node of a type. -/
structure Decoded (n : Nat) (id : RecordId) (kind : κ) (s : Session κ ν) : Prop where
  turn : (s.trace.filterMap Event.decoded?).reverse[n]? = some id
  node : ∃ node, s.table.entry? id = some (kind, node)

theorem Grows.turn {n : Nat} {id : RecordId} (hg : Grows s t)
    (h : (s.trace.filterMap Event.decoded?).reverse[n]? = some id) :
    (t.trace.filterMap Event.decoded?).reverse[n]? = some id := by
  obtain ⟨more, hmore⟩ := hg.trace
  rw [← hmore, List.filterMap_append, List.reverse_append]
  rw [List.getElem?_append_left (List.getElem?_eq_some_iff.1 h).1, h]

theorem Decoded.grows {n : Nat} {id : RecordId} {kind : κ} (h : Decoded n id kind s)
    (hg : Grows s t) : Decoded n id kind t :=
  ⟨hg.turn h.turn, h.node.imp fun _ => hg.entry⟩

theorem Decoded.lt_decodes {n : Nat} {id : RecordId} {kind : κ} (h : Decoded n id kind s) :
    n < s.decodes := by
  have hlt := (List.getElem?_eq_some_iff.1 h.turn).1
  rwa [List.length_reverse, ← decodes_eq] at hlt

/-- The outcomes of two runs from one session: the same one before the record is decoded that is
refused in the second run, or its refusal, while the first run goes on from the record. -/
inductive Tracks (n : Nat) (fault : Encoding.Error) [NodeType κ] :
    Except Graph.Error β × Session κ ν → Except Graph.Error β × Session κ ν → Prop
  | same {outcome : Except Graph.Error β} {t : Session κ ν} (before : t.decodes ≤ n) :
      Tracks n fault (outcome, t) (outcome, t)
  | cut {outcome : Except Graph.Error β} {t t' : Session κ ν} {id : RecordId} {kind : κ}
      (count : t'.materializedCount = n)
      (decoded : ∀ x, outcome = .ok x → Decoded n id kind t) :
      Tracks n fault (outcome, t) (.error (.decode id (typeName kind) fault), t')

variable [NodeType κ] {n : Nat} {fault : Encoding.Error}

/-- The first run may end with a refusal of its own. -/
theorem Tracks.refused {e : Graph.Error} {t t' : Session κ ν} {id : RecordId} {kind : κ}
    (count : t'.materializedCount = n) :
    Tracks n fault ((.error e : Except Graph.Error β), t)
      (.error (.decode id (typeName kind) fault), t') := by
  refine .cut count fun x hx => ?_
  cases hx

/-- Where the second run was cut, the first one goes on. -/
theorem Tracks.rest {r : Except Graph.Error β × Session κ ν} {t' : Session κ ν} {id : RecordId}
    {kind : κ} (count : t'.materializedCount = n) (decoded : Decoded n id kind t)
    (hg : Grows t r.2) : Tracks n fault r (.error (.decode id (typeName kind) fault), t') :=
  .cut count fun _ _ => decoded.grows hg

theorem Tracks.guard {first second : Resolve κ ν} {kind : κ} {id : RecordId} {start : ν}
    (hf : s.failed = false)
    (h : Tracks n fault (first kind id start s) (second kind id start s)) :
    Tracks n fault (guard first kind id start s) (guard second kind id start s) := by
  unfold Session.guard
  rw [if_neg (by simp [hf]), if_neg (by simp [hf])]
  generalize first kind id start s = r at h
  generalize second kind id start s = r' at h
  cases h with
  | @same outcome t before =>
    rcases outcome with e | node
    · exact .same before
    · dsimp only
      split
      · exact .same before
      · exact .same before
  | @cut outcome t t' id kind count decoded =>
    rcases outcome with e | node
    · exact .refused count
    · dsimp only
      split
      · exact .refused count
      · exact .rest count (decoded node rfl) ((Grows.refl t).note _)

section Requests

variable (container : Container) (limits : Limits) (Admits : κ → Prop) (n fault) in
/-- Two ways to resolve numbers of admitted types that keep two runs together. -/
def TracksResolve (hooks : List RecordId) (resolve resolve' : Resolve κ ν) : Prop :=
  ∀ kind id start s, Admits kind → Balanced container limits hooks s → s.decodes ≤ n →
    Tracks n fault (resolve kind id start s) (resolve' kind id start s)

variable (schema : Schema κ ν ρ) {container : Container} {limits : Limits} {hooks : List RecordId}
  {Admits : κ → Prop} {resolve resolve' : Resolve κ ν}
  (ht : TracksResolve n fault container limits Admits hooks resolve resolve')

include ht

theorem tracks_require {kind : κ} (hk : Admits kind) (id : RecordId)
    (hs : Balanced container limits hooks s) (hn : s.decodes ≤ n) :
    Tracks n fault (require schema resolve kind id s) (require schema resolve' kind id s) := by
  have h := ht kind id (schema.empty kind) s hk hs hn
  unfold require
  generalize resolve kind id (schema.empty kind) s = r at h
  generalize resolve' kind id (schema.empty kind) s = r' at h
  cases h with
  | @same outcome t before => rcases outcome with e | node | node <;> exact .same before
  | @cut outcome t t' id kind count decoded =>
    rcases outcome with e | node | node
    · exact .refused count
    · exact .refused count
    · exact .rest count (decoded _ rfl) (.refl t)

variable (hb : Keeps (Balanced container limits hooks) resolve) (hg : ∀ s, Keeps (Grows s) resolve)

include hb hg

theorem tracks_requireAll {kind : κ} (hk : Admits kind) (ids : List RecordId)
    (done : List Address) (hs : Balanced container limits hooks s) (hn : s.decodes ≤ n) :
    Tracks n fault (requireAll (require schema resolve kind) ids done s)
      (requireAll (require schema resolve' kind) ids done s) := by
  induction ids generalizing s done with
  | nil => exact .same hn
  | cons id ids ih =>
    have h := tracks_require schema ht hk id hs hn
    have hkept := kept_require schema hb kind id hs
    unfold requireAll
    generalize require schema resolve kind id s = r at h hkept
    generalize require schema resolve' kind id s = r' at h
    cases h with
    | @same outcome t before =>
      rcases outcome with e | node
      · exact .same before
      · exact ih (node :: done) hkept before
    | @cut outcome t t' id kind' count decoded =>
      rcases outcome with e | node
      · exact .refused count
      · exact .rest count (decoded _ rfl)
          (kept_requireAll schema (hg t) kind ids (node :: done) (.refl t))

theorem tracks_answer {c : Call κ ν} (hk : Admits c.kind)
    (hs : Balanced container limits hooks s) (hn : s.decodes ≤ n) :
    Tracks n fault (s.answer schema resolve c) (s.answer schema resolve' c) := by
  cases c with
  | root kind start =>
    have h := ht kind .root start s hk hs hn
    simp only [answer]
    split
    · exact .same hn
    generalize resolve kind .root start s = r at h
    generalize resolve' kind .root start s = r' at h
    cases h with
    | @same outcome t before => rcases outcome with e | node | node <;> exact .same before
    | @cut outcome t t' id kind count decoded =>
      rcases outcome with e | node | node
      · exact .refused count
      · exact .refused count
      · exact .rest count (decoded _ rfl) (.refl t)
  | resolve kind id start => exact ht kind id start s hk hs hn
  | required kind id => exact tracks_require schema ht hk id hs hn
  | all kind ids => exact tracks_requireAll schema ht hb hg hk ids [] hs hn

theorem tracks_perform {c : Call κ ν} (hk : Admits c.kind)
    (hs : Balanced container limits hooks s) (hn : s.decodes ≤ n) :
    Tracks n fault (s.perform schema resolve c) (s.perform schema resolve' c) := by
  have h := tracks_answer schema ht hb hg hk hs hn
  unfold perform
  generalize s.answer schema resolve c = r at h
  generalize s.answer schema resolve' c = r' at h
  cases h with
  | @same outcome t before => rcases outcome with e | x <;> exact .same before
  | @cut outcome t t' id kind count decoded =>
    rcases outcome with e | x
    · exact .refused count
    · exact .rest count (decoded _ rfl) (.refl t)

/-- A hook that gives up at the first refusal ends where the second run is cut. -/
theorem tracks_runHook (node : Address) {hook : Hook κ ν} (hh : hook.Strict Admits)
    (hs : Balanced container limits hooks s) (hn : s.decodes ≤ n) :
    Tracks n fault (runHook schema resolve node hook s) (runHook schema resolve' node hook s) := by
  induction hook generalizing s with
  | done | fail => exact .same hn
  | assign content next ih => exact ih hh (steady_balanced.assign node content hs) hn
  | look next ih => exact ih s.glance (hh s.glance) hs hn
  | call c next ih =>
    obtain ⟨hk, hfail, hnext⟩ := hh
    have h := tracks_perform schema ht hb hg hk hs hn
    have hkept := kept_perform schema hb steady_balanced hs c
    unfold runHook
    generalize s.perform schema resolve c = r at h hkept
    generalize s.perform schema resolve' c = r' at h
    cases h with
    | @same outcome t before =>
      rcases outcome with e | x
      · dsimp only
        rw [hfail]
        exact .same before
      · exact ih (.ok x) (hnext x) hkept before
    | @cut outcome t t' id kind count decoded =>
      -- The second hook gives up here, and the first one if it is refused something itself.
      dsimp only
      rw [hfail]
      rcases outcome with e | x
      · rw [hfail]
        exact .refused count
      · exact .rest count (decoded x rfl)
          (kept_runHook schema (hg t) Grows.steady node (next (.ok x)) (.refl t))

end Requests

section Records

variable (container : Container) (limits : Limits) (n fault) in
/-- Two ways to go on from a record that was decoded that keep two runs together. -/
def TracksFresh (hooks : List RecordId) (fresh fresh' : Fresh κ ν ρ) (kind : κ) (record : ρ) :
    Prop :=
  ∀ id index start s, id.index? = some index → index < container.size →
    Booked container limits hooks [id] s → s.table.entry? id = none → s.decodes ≤ n →
    Tracks n fault (fresh kind id start record s) (fresh' kind id start record s)

variable {schema : Schema κ ν ρ} {container : Container} {limits : Limits}
  {hooks : List RecordId} {Admits : κ → Prop} {resolve resolve' : Resolve κ ν} {kind : κ}
  {record : ρ}

theorem tracks_materialize (hroom : hooks.length < limits.maxDepth.toNat)
    (hh : ∀ start, (schema.hook start record).Strict Admits)
    (ht : ∀ id, TracksResolve n fault container limits Admits (id :: hooks) resolve resolve')
    (hb : ∀ id, Keeps (Balanced container limits (id :: hooks)) resolve)
    (hg : ∀ s, Keeps (Grows s) resolve) :
    TracksFresh n fault container limits hooks (materialize schema resolve)
      (materialize schema resolve') kind record := by
  intro id index start s hi hindex h hnew hn
  have hstarted := (h.hook hi hindex hnew hroom kind start s.nodes.size).balanced
  have hran := tracks_runHook schema (ht id) (hb id) hg s.nodes.size (hh start) hstarted hn
  rw [materialize_eq, materialize_eq]
  generalize runHook schema resolve s.nodes.size (schema.hook start record)
    (((s.construct kind id start).2.enter id).setBusy s.nodes.size true) = r at hran
  generalize runHook schema resolve' s.nodes.size (schema.hook start record)
    (((s.construct kind id start).2.enter id).setBusy s.nodes.size true) = r' at hran
  cases hran with
  | @same outcome t before => rcases outcome with e | x <;> exact .same before
  | @cut outcome t t' id' kind' count decoded =>
    rcases outcome with e | x
    · exact .refused count
    · exact .rest count (decoded x rfl) ((Grows.refl t).finished _ _)

omit [NodeType κ] in
theorem filterMap_note_decoded (s : Session κ ν) (id : RecordId) :
    (s.note (.decoded id)).trace.filterMap Event.decoded? =
      id :: s.trace.filterMap Event.decoded? := rfl

/-- A new record has a node, also if its hook is refused something. -/
theorem decoded_materialize {id : RecordId} {index : Nat} {start : ν}
    (hi : id.index? = some index) (hindex : index < container.size)
    (h : Booked container limits hooks [id] s) (hnew : s.table.entry? id = none)
    (hturn : (s.trace.filterMap Event.decoded?).reverse[n]? = some id)
    (hg : ∀ s, Keeps (Grows s) resolve) :
    Decoded n id kind (materialize schema resolve kind id start record s).2 := by
  have hcap : index < s.table.capacity := by rwa [h.capacity]
  have hstarted : Decoded n id kind
      (((s.construct kind id start).2.enter id).setBusy s.nodes.size true) := by
    refine ⟨((Grows.refl s).started kind id start _).turn hturn, s.nodes.size, ?_⟩
    exact (NodeTable.entry?_insert hi hnew hcap kind s.nodes.size id).trans (if_pos rfl)
  have hran := kept_runHook schema (hg _) Grows.steady s.nodes.size (schema.hook start record)
    (Grows.refl (((s.construct kind id start).2.enter id).setBusy s.nodes.size true))
  rw [materialize_eq]
  rcases hv : runHook schema resolve s.nodes.size (schema.hook start record)
    (((s.construct kind id start).2.enter id).setBusy s.nodes.size true) with ⟨e | x, t⟩ <;>
    rw [hv] at hran <;> exact hstarted.grows (hran.finished _ _)

/-- Only mild refusals leave a session as it was. -/
theorem failed_of_perform {resolve : Resolve κ ν} (hr : Poisons resolve) {c : Call κ ν}
    {e : Graph.Error} (he : ¬ e.Mild) (h : s.perform schema resolve c = (.error e, t)) :
    t.failed = true := by
  unfold perform at h
  rcases hv : s.answer schema resolve c with ⟨e' | x, u⟩ <;> rw [hv] at h <;> cases h
  exact (Bool.eq_false_or_eq_true _).resolve_right fun hu => he ((answer_refused hr hv).2 hu)

variable [DecidableEq κ] {codec codec' : Codec κ ρ}

theorem decoded_freshAt {levels : Nat} {id : RecordId} {index : Nat} {start : ν}
    (hi : id.index? = some index) (hindex : index < container.size)
    (h : Booked container limits hooks [id] s) (hnew : s.table.entry? id = none)
    (hturn : (s.trace.filterMap Event.decoded?).reverse[n]? = some id) (x : Option Address)
    (hx : (freshAt schema codec levels kind id start record s).1 = .ok x) :
    Decoded n id kind (freshAt schema codec levels kind id start record s).2 := by
  cases levels with
  | zero => cases hx
  | succ levels =>
    exact decoded_materialize hi hindex h hnew hturn fun s => Grows.keeps_resolve codec levels

/-- The two runs part at the record whose decoding is refused. -/
theorem tracks_find (hc : codec.DecodeFault codec' n fault) {levels : Nat}
    (hf : ∀ calls bytes record, codec.decode calls kind bytes = .ok record →
      TracksFresh n fault container limits hooks (freshAt schema codec levels)
        (freshAt schema codec' levels) kind record)
    (id : RecordId) (start : ν) (h : Booked container limits hooks [] s) (hn : s.decodes ≤ n) :
    Tracks n fault (find codec (freshAt schema codec levels) kind id start s)
      (find codec' (freshAt schema codec' levels) kind id start s) := by
  rw [find_eq, find_eq]
  rcases hv : s.lookUp kind id with outcome | bytes
  · exact .same hn
  obtain ⟨index, hi, hindex, hnew, -⟩ := of_lookUp hv
  rw [h.container_eq] at hindex
  have hdecoded : Booked container limits hooks [id] (s.note (.decoded id)) :=
    h.decode (by simp [h.mem_made, hnew])
  have hcount : (s.note (.decoded id)).decodes = s.decodes + 1 := by
    rw [decodes_eq, decodes_eq, filterMap_note_decoded, List.length_cons]
  dsimp only
  rcases hn.eq_or_lt with rfl | hlt
  -- In a session that has not failed, as many records were decoded as have nodes.
  · rw [hc.refuses]
    refine .cut (h.filled.trans ?_) ?_
    · rw [decodes_eq, h.decoded, List.nil_append]
    have hturn : ((s.note (.decoded id)).trace.filterMap Event.decoded?).reverse[s.decodes]? =
        some id := by
      rw [filterMap_note_decoded, List.reverse_cons, Graph.getElem?_snoc, List.length_reverse,
        ← decodes_eq]
      exact .inr ⟨rfl, rfl⟩
    intro x hx
    rcases hd : codec.decode s.decodes kind bytes with source | record <;> rw [hd] at hx
    · cases hx
    · exact decoded_freshAt hi hindex hdecoded hnew hturn x hx
  · rw [hc.same kind bytes hlt.ne]
    rcases hd : codec.decode s.decodes kind bytes with source | record
    · exact .same (by omega)
    · exact hf _ _ _ hd id index start _ hi hindex hdecoded hnew (by omega)

theorem tracks_guard (hc : codec.DecodeFault codec' n fault) {levels : Nat}
    (hf : ∀ kind calls bytes record, Admits kind → codec.decode calls kind bytes = .ok record →
      TracksFresh n fault container limits hooks (freshAt schema codec levels)
        (freshAt schema codec' levels) kind record) :
    TracksResolve n fault container limits Admits hooks (Session.resolve schema codec levels)
      (Session.resolve schema codec' levels) := by
  intro kind id start s hk hs hn
  rw [resolve_eq_guard, resolve_eq_guard]
  cases hfailed : s.failed with
  | true =>
    rw [Session.guard, Session.guard, if_pos hfailed, if_pos hfailed]
    exact .same hn
  | false =>
    exact .guard hfailed (tracks_find hc (fun calls bytes record => hf kind calls bytes record hk)
      id start (hs.booked hfailed) hn)

/-- At every level that fits into the limit with the hooks under way, two runs are kept together if
the hooks of admitted types give up at the first refusal. -/
theorem tracks_resolve (hc : codec.DecodeFault codec' n fault)
    (hh : ∀ kind calls bytes record start, Admits kind → codec.decode calls kind bytes = .ok record →
      (schema.hook start record).Strict Admits)
    {levels : Nat} (hroom : hooks.length + levels ≤ limits.maxDepth.toNat) :
    TracksResolve n fault container limits Admits hooks (Session.resolve schema codec levels)
      (Session.resolve schema codec' levels) := by
  induction levels generalizing hooks with
  | zero =>
    refine tracks_guard hc fun kind calls bytes record hk hd => ?_
    intro id index start s _ _ _ _ hn
    exact .same hn
  | succ levels ih =>
    have hinner (id : RecordId) : (id :: hooks).length + levels ≤ limits.maxDepth.toNat := by
      rw [List.length_cons]
      omega
    refine tracks_guard hc fun kind calls bytes record hk hd => ?_
    exact tracks_materialize (by omega) (fun start => hh kind calls bytes record start hk hd)
      (fun id => ih (hinner id)) (fun id => keeps_resolve schema codec (hinner id))
      fun s => Grows.keeps_resolve codec levels

/-- A granted request, answered again under a codec that refuses the decoding after `n` others: if
the request takes no more than those, all is as before. Otherwise the fault names the record that
was decoded after `n` others and the type of its node, and no more than these have nodes. -/
theorem request_faulty (hc : codec.DecodeFault codec' n fault)
    (hh : ∀ kind calls bytes record start, Admits kind → codec.decode calls kind bytes = .ok record →
      (schema.hook start record).Strict Admits)
    (hs : Balanced container limits [] s) (hn : s.decodes ≤ n) {c : Call κ ν} {x : c.Answer}
    (hx : s.request schema codec c = (.ok x, t)) (hk : Admits c.kind) :
    (t.decodes ≤ n → s.request schema codec' c = (.ok x, t)) ∧
    (n < t.decodes → ∃ id kind t', Decoded n id kind t ∧ t'.materializedCount = n ∧
      t'.failed = true ∧
      s.request schema codec' c = (.error (.decode id (typeName kind) fault), t')) := by
  have hroom : ([] : List RecordId).length + s.limits.maxDepth.toNat ≤ limits.maxDepth.toNat := by
    obtain ⟨_, h, -⟩ := hs
    rw [h.limits_eq, List.length_nil, Nat.zero_add]
  have htracks : Tracks n fault (s.request schema codec c) (s.request schema codec' c) :=
    tracks_perform schema (tracks_resolve hc hh hroom) (keeps_resolve schema codec hroom)
      (fun s => Grows.keeps_resolve codec _) hk hs hn
  rw [hx] at htracks
  generalize hx' : s.request schema codec' c = r' at htracks
  cases htracks with
  | same before => exact ⟨fun _ => rfl, fun hlt => absurd before hlt.not_ge⟩
  | cut count decoded =>
    have hdecoded := decoded x rfl
    refine ⟨fun hle => absurd hdecoded.lt_decodes hle.not_gt, fun _ => ?_⟩
    exact ⟨_, _, _, hdecoded, count,
      failed_of_perform (poisons_resolve schema codec' _) (by simp [Graph.Error.Mild]) hx', rfl⟩

end Records

end Session
end Rebuild
end ObjectGraph
