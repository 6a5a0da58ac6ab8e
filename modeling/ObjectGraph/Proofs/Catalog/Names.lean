import ObjectGraph.Catalog.Fixtures
import ObjectGraph.Catalog.Rebuilding
import ObjectGraph.Proofs.Catalog.Codec
import ObjectGraph.Proofs.Catalog.Discovery
import ObjectGraph.Proofs.Catalog.Sources
import ObjectGraph.Proofs.Rebuild.Names

/-! What the type names in a container decide: nothing while they are not checked, and nothing at
all for the root of a container that a pass has named, if its codec reads records as they were
written (`names_decide_nothing`). A codec that writes records as those of another type is found out
by the names, and by nothing else (`not_every_codec_ignores_names`). -/
namespace ObjectGraph.Catalog

open Rebuild (Session Pairing Address)
open Rebuild.Session (start perform_follows poisons_resolve)

section Hooks

variable {P : Pairing Kind Built}

/-- One outcome of an edge, told with the names of either session. -/
inductive Retold (P : Pairing Kind Built) : Outcome → Outcome → Prop
  | same (o : Outcome) : Retold P o o
  | refused {e e' : Graph.Error} : P.Retold e e' → Retold P (.refused e) (.refused e')

/-- Names in the log of a node do not count. -/
def Tolerates (P : Pairing Kind Built) : Prop :=
  ∀ item log log', List.Forall₂ (Retold P) log log' → P.Same ⟨item, log⟩ ⟨item, log'⟩

theorem tracks_orFail {β : Type} {next : β → Rebuild.Hook Kind Built}
    (hn : ∀ x, P.Tracks (next x) (next x)) {a a' : Except Graph.Error β} (h : P.Agrees a a') :
    P.Tracks (.orFail next a) (.orFail next a') := by
  cases h with
  | ok x => exact hn x
  | error he => exact .fail he

theorem tracks_finish (item : Content Address) : P.Tracks (finish item) (finish item) :=
  .assign (P.same_refl _) .done

theorem tracks_fillOption {kind : Kind} {id : RecordId} (ha : P.Admits kind id)
    (item : Option Address → Content Address) :
    P.Tracks (fillOption kind id item) (fillOption kind id item) :=
  .assign (P.same_refl _) (.call ha fun _ _ h => tracks_orFail (fun _ => tracks_finish _) h)

theorem tracks_fillAll {kind : Kind} {ids : List RecordId} (ha : ∀ id ∈ ids, P.Admits kind id)
    (item : List Address → Content Address) :
    P.Tracks (fillAll kind ids item) (fillAll kind ids item) :=
  .assign (P.same_refl _) (.call ha fun _ _ h => tracks_orFail (fun _ => tracks_finish _) h)

theorem tracks_fillLenient (ht : Tolerates P) (label : String) {ids : List RecordId}
    (ha : ∀ id ∈ ids, P.Admits .lenient id) (edges : List Address) {log log' : List Outcome}
    (hlog : List.Forall₂ (Retold P) log log') :
    P.Tracks (fillLenient label ids edges log) (fillLenient label ids edges log') := by
  induction ids generalizing edges log log' with
  | nil => exact .assign (ht _ _ _ (List.rel_reverse hlog)) .done
  | cons id ids ih =>
    obtain ⟨hid, hids⟩ := List.forall_mem_cons.1 ha
    refine .call hid fun a a' h => ?_
    cases h with
    | error he => exact ih hids edges (.cons (.refused he) hlog)
    | ok x => cases x with
      | none => exact ih hids edges (.cons (.same _) hlog)
      | some node => exact ih hids (node :: edges) (.cons (.same _) hlog)

theorem admits_of_optional (hnil : ∀ kind, P.Admits kind .nil) {kind : Kind} {id : RecordId}
    (ha : ∀ link ∈ Record.optional kind id, P.Admits link.2 link.1) : P.Admits kind id := by
  by_cases hid : id = .nil
  · exact hid ▸ hnil kind
  · rw [Record.optional_of_ne_nil hid] at ha
    exact ha _ List.mem_cons_self

theorem admits_of_list {kind : Kind} {ids : List RecordId}
    (ha : ∀ link ∈ ids.map (·, kind), P.Admits link.2 link.1) : ∀ id ∈ ids, P.Admits kind id :=
  fun id hid => ha (id, kind) (List.mem_map_of_mem hid)

/-- A node is filled alike in both sessions, if both admit what its record links to. -/
theorem tracks_fill (ht : Tolerates P) (hnil : ∀ kind, P.Admits kind .nil) {r : Record}
    (ha : ∀ link ∈ r.links, P.Admits link.2 link.1) : P.Tracks r.fill r.fill := by
  cases r with
  | peer | player | deck => exact tracks_fillOption (admits_of_optional hnil ha) _
  | vertex | card => exact tracks_fillAll (admits_of_list ha) _
  | ability => exact tracks_finish _
  | cardList =>
    obtain ⟨habilities, hcards⟩ := List.forall_mem_append.1 ha
    refine .call (admits_of_list habilities) fun _ _ h => ?_
    exact tracks_orFail (fun _ => tracks_fillAll (admits_of_list hcards) _) h
  | lenient label edges =>
    refine tracks_fillLenient ht label (fun id hid => admits_of_optional hnil ?_) [] .nil
    exact fun link hl => ha link (List.mem_flatMap.2 ⟨id, hid, hl⟩)

/-- Outcomes that differ in the name found for a record at most. -/
inductive Outcome.Alike : Outcome → Outcome → Prop
  | same (o : Outcome) : Alike o o
  | mismatch (id : RecordId) (expected found found' : String) :
      Alike (.refused (.typeMismatch id expected found)) (.refused (.typeMismatch id expected found'))

/-- The same node, but for the names in its log. -/
structure Built.Alike (b b' : Built) : Prop where
  item : b.item = b'.item
  log : List.Forall₂ Outcome.Alike b.log b'.log

theorem Retold.alike {o o' : Outcome} (h : Retold P o o') : o.Alike o' := by
  cases h with
  | same => exact .same o
  | refused he => cases he with
    | same => exact .same _
    | mismatch => exact .mismatch ..

/-- No node of the catalog acts on names: a lenient one at most logs them. -/
theorem blind_rebuildSchema : rebuildSchema.Blind Built.Alike where
  refl b := ⟨rfl, List.forall₂_same.2 fun o _ => .same o⟩
  tracks P hsame hall _ record := by
    refine tracks_fill (fun item log log' h => ?_) (fun kind => hall kind .nil)
      fun link _ => hall link.2 link.1
    rw [hsame]
    exact ⟨rfl, h.imp fun _ _ => Retold.alike⟩

end Hooks

/-- Every reference in the heap leads to a node of the kind that its field admits. -/
def Heap.WellTyped (h : Heap) : Prop :=
  ∀ node, ∀ d ∈ (h.cell node).content.demands, (h.cell d.1).content.kind = d.2

section Codecs

variable {writer reader : Codec Kind Record}

/-- A record that is read back from its bytes as its own type is what it was. -/
def Recovers (writer reader : Codec Kind Record) : Prop :=
  ∀ m n r r' bs, writer.encode m r = .ok bs → bs.length < 2 ^ 64 →
    reader.decode n r.kind bs = .ok r' → r' = r

theorem recovers_codec (e : Encoding) : Recovers (codec e) (codec e) := by
  intro m n r r' bs hencode hlength hdecode
  rw [decode_of_encode hencode hlength] at hdecode
  exact (Except.ok.inj hdecode).symm

/-- Failures that are put into a codec keep it from reading a record, not from reading it right. -/
theorem Recovers.failing (h : Recovers writer reader) (encodeAt decodeAt : Option Nat) :
    Recovers (writer.failing encodeAt decodeAt) (reader.failing encodeAt decodeAt) := by
  intro m n r r' bs hencode hlength hdecode
  simp only [Codec.failing] at hencode hdecode
  split at hencode
  · cases hencode
  split at hdecode
  · cases hdecode
  exact h m n r r' bs hencode hlength hdecode

end Codecs

section Passes

open Flatten.Session (serialize intoContainer titled_serialize sourced_serialize
  packed_of_intoContainer root_of_first)

abbrev Heap.pass (h : Heap) (limits : Limits) (root : Nat) : Flatten.Session Nat Record :=
  (serialize flattenSchema h.cell root { limits }).2

variable {h : Heap} {writer reader : Codec Kind Record} {limits : Limits} {root : Nat}
  {c : Container} {s : Rebuilding}

/-- The name at a position is that of the kind of the node there. -/
theorem typeName?_of_pass (hc : (h.pass limits root).intoContainer writer true = .ok c) (k : Nat) :
    c.typeName? k =
      ((h.pass limits root).numbering.nodes[k]?).map fun a => typeName (h.cell a).content.kind := by
  have htitles := (titled_serialize flattenSchema h.cell limits root).typeNames hc
  simp only [Container.typeName?, htitles, if_true, Flatten.Session.titles, List.getElem?_map,
    Option.bind_eq_bind, Option.bind_some]
  rfl

theorem typeName?_session (hs : s.container = c) {id : RecordId} {name : String}
    (h : s.typeName? id = some name) : ∃ k, id.index? = some k ∧ c.typeName? k = some name := by
  subst hs
  exact Option.bind_eq_some_iff.1 h

/-- A node is looked up by its number under its name. -/
theorem admits_of_numbered (hc : (h.pass limits root).intoContainer writer true = .ok c)
    (hs : s.container = c) {a : Nat} {id : RecordId}
    (ha : (h.pass limits root).Numbered a id) :
    (Pairing.named s).Admits (h.cell a).content.kind id := by
  intro name hname
  obtain ⟨k, hk, hname⟩ := typeName?_session hs hname
  have hsequential := (titled_serialize flattenSchema h.cell limits root).sequential a k
  have hnode := hsequential.1 (by rw [Numbering.index?, ha, Option.bind_some, hk])
  rw [typeName?_of_pass hc, hnode] at hname
  exact (Option.some.inj hname).symm

/-- So is the root by the first number. -/
theorem admits_root (hc : (h.pass limits root).intoContainer writer true = .ok c)
    (hs : s.container = c) : (Pairing.named s).Admits (h.cell root).content.kind .root := by
  intro name hname
  obtain ⟨k, hk, hname⟩ := typeName?_session hs hname
  cases hk
  rw [typeName?_of_pass hc] at hname
  obtain ⟨a, hnode, rfl⟩ := Option.map_eq_some_iff.1 hname
  rw [root_of_first flattenSchema h.cell hnode]

/-- The record of a node that was looked up under its name refers to nodes that can be looked up
under theirs. -/
theorem tracked_of_pass (ht : h.WellTyped) (hr : Recovers writer reader)
    (hc : (h.pass limits root).intoContainer writer true = .ok c) (hs : s.container = c) :
    (Pairing.named s).Tracked rebuildSchema reader := by
  intro kind id index bytes calls start record ha hi hb hd
  obtain ⟨hpacked, -⟩ := packed_of_intoContainer hc
  obtain ⟨p, hp, hencode, hlength⟩ := hpacked.records index bytes (hs ▸ hb)
  have htitled := titled_serialize flattenSchema h.cell limits root
  have hlt : index < (h.pass limits root).numbering.nodes.length := by
    have hfilled := (Array.getElem?_eq_some_iff.1 hp).1
    rwa [Numbering.length_nodes, ← Flatten.Session.objectCount, htitled.aligned.size]
  have hnode := List.getElem?_eq_getElem hlt
  generalize (h.pass limits root).numbering.nodes[index] = a at hnode
  have hkind : (h.cell a).content.kind = kind := by
    refine Kind.typeName_injective (ha _ ?_)
    show (id.index?).bind _ = _
    rw [hi, Option.bind_some, hs, typeName?_of_pass hc, hnode]
    rfl
  obtain ⟨hrecord, hlinks⟩ := Content.links_of_yields
    (sourced_serialize flattenSchema h.cell limits root index a p hnode hp)
  have hmax := (h.pass limits root).limits.maxRecordLen.toNat_lt
  obtain rfl : record = p.record := by
    rw [← hkind, ← hrecord] at hd
    exact hr _ _ _ _ _ hencode (by omega) hd
  refine tracks_fill (fun item log log' hlog => ?_) (fun kind name hname => by cases hname)
    fun link hl => ?_
  · have heq : log = log' := by
      refine List.forall₂_eq_eq_eq ▸ hlog.imp fun o o' ho => ?_
      cases ho with
      | same => rfl
      | refused he => cases he <;> rfl
    show (⟨item, log⟩ : Built) = ⟨item, log'⟩
    rw [heq]
  · obtain ⟨b, hb, hnumber⟩ := hlinks link hl
    rw [← ht a (b, link.2) hb]
    exact admits_of_numbered hc hs hnumber

/-- Two sessions on a container that a pass has named rebuild its root alike, whether they check
names or not. -/
theorem request_root_named (ht : h.WellTyped) (hr : Recovers writer reader)
    (hc : (h.pass limits root).intoContainer writer true = .ok c) {config config' : Limits}
    {s' : Rebuilding} (hs : start c config = .ok s) (hs' : start c config' = .ok s')
    (hdepth : config.maxDepth = config'.maxDepth) (content : Built) :
    let call := .root (h.cell root).content.kind content
    let r := s.request rebuildSchema reader call
    let r' := s'.request rebuildSchema reader call
    r'.1 = r.1 ∧ r'.2 = { r.2 with limits := r'.2.limits } := by
  intro call r r'
  have hcontainer := (Pairing.eq_of_start hs).1
  have hcontainer' := (Pairing.eq_of_start hs').1
  have hnames : s'.typeName? = s.typeName? := by
    funext id
    rw [Session.typeName?, Session.typeName?, hcontainer, hcontainer']
  have htwins : (Pairing.named s).Twins s s' := by
    refine Pairing.twins_of_start hs hs' ⟨?_, ?_⟩ ⟨rfl, hnames⟩ hdepth fun ha hi => ⟨?_, ?_⟩
    · exact hcontainer ▸ rfl
    · exact hcontainer ▸ rfl
    · exact Pairing.checkTypeName_of_named hi ha
    · exact Pairing.checkTypeName_of_named hi (hnames ▸ ha)
  have hstep := Pairing.lockstep_request (tracked_of_pass ht hr hc hcontainer) (c := call)
    (admits_root hc hcontainer) htwins
  have hafter (s : Rebuilding) :
      (s.request rebuildSchema reader call).2.container = s.container :=
    (perform_follows rebuildSchema (poisons_resolve rebuildSchema reader _) s call).container
  exact hstep.eq rfl rfl (by rw [hafter, hafter, hcontainer, hcontainer'])

end Passes

/-- Names of types decide nothing for hooks that do not act on them, and no node of the catalog
does. Two sessions on the same records that do not check names answer every sequence of requests
alike, whatever names each container has, and show the same nodes. A container that a pass has named
opens whether names are to be checked or not. Its root is then rebuilt alike, if every record that
is read back is the one that was written; what else was asked for in the pass does not matter. -/
theorem names_decide_nothing :
    (∀ (κ ν ρ : Type) [DecidableEq κ] [NodeType κ] (schema : Rebuild.Schema κ ν ρ)
      (Same : ν → ν → Prop) (hblind : schema.Blind Same) (codec : Codec κ ρ) (limits : Limits)
      (c c' : Container) (s s' : Session κ ν), limits.verifyTypeNames = false →
      c.records = c'.records → start c limits = .ok s → start c' limits = .ok s' →
      ∀ calls, let t := s.after schema codec calls
        let t' := s'.after schema codec calls
        Pairing.LooksLike Same t t' ∧ ∀ call, (Pairing.between hblind.refl s s').Agrees
          (t.request schema codec call).1 (t'.request schema codec call).1) ∧
    rebuildSchema.Blind Built.Alike ∧
    ∀ (h : Heap) (writer reader : Codec Kind Record) (limits config : Limits) (root : Nat)
      (turns : List (Flatten.Turn Nat (Content Nat))) (c : Container), h.WellTyped →
      Recovers writer reader → Flatten.firstRoot? turns = some (h.cell, root) →
      (Flatten.Session.after flattenSchema { limits } turns).intoContainer writer true = .ok c →
      c.validate config = .ok () →
      ∃ s s' : Rebuilding, start c { config with verifyTypeNames := false } = .ok s ∧
        start c { config with verifyTypeNames := true } = .ok s' ∧
        ∀ content : Built, let call := .root (h.cell root).content.kind content
          let r := s.request rebuildSchema reader call
          let r' := s'.request rebuildSchema reader call
          r'.1 = r.1 ∧ r'.2 = { r.2 with limits := r'.2.limits } := by
  refine ⟨?_, blind_rebuildSchema, ?_⟩
  · intro κ ν ρ _ _ schema Same hblind codec limits c c' s s' hv hrecords hs hs' calls t t'
    obtain ⟨htwins, hstep⟩ := hblind.lockstep codec hv hrecords hs hs' calls
    exact ⟨htwins.looksLike, fun call => (hstep call).agrees⟩
  · intro h writer reader limits config root turns c ht hr hroot hc hvalid
    rw [Flatten.Session.after_eq_pass, hroot] at hc
    have opens (verify : Bool) : ∃ s : Rebuilding,
        start c { config with verifyTypeNames := verify } = .ok s := by
      have hopen : c.validate { config with verifyTypeNames := verify } = .ok () := hvalid
      rw [start, hopen]
      exact ⟨_, rfl⟩
    obtain ⟨s, hs⟩ := opens false
    obtain ⟨s', hs'⟩ := opens true
    exact ⟨s, s', hs, hs', request_root_named ht hr hc hs hs' rfl⟩

def chainedPeers : Heap := .ofContents (Fixtures.chain ["a", "b"])

def namedPeers : Container where
  records := ["\x7b\"label\":\"a\",\"other\":1\x7d",
    "\x7b\"label\":\"b\",\"other\":4294967295\x7d"].map Utf8.ofString
  typeNames := some [typeName Kind.peer, typeName Kind.peer]

/-- With and without names the two peers are the same, and a request for a deck is refused for the
name that each session knows. If the second record cannot be decoded, so it is said whether names
are checked or not. -/
theorem names_decide_nothing_chainedPeers :
    let plain : Container := { namedPeers with typeNames := none }
    let rebuild (s : Rebuilding) : Rebuilding :=
      s.after rebuildSchema (codec .json) [.root .peer (.empty .peer)]
    let refusal (s : Rebuilding) :=
      ((rebuild s).request rebuildSchema (codec .json) (.required .deck .root)).1
    let broken := (codec .json).failing none (some 1)
    (∃ s s' : Rebuilding, start plain {} = .ok s ∧ start namedPeers {} = .ok s' ∧
      Pairing.LooksLike Built.Alike (rebuild s) (rebuild s') ∧
      refusal s = .error (.typeMismatch .root (typeName Kind.deck) "a node of another type") ∧
      refusal s' = .error (.typeMismatch .root (typeName Kind.deck) (typeName Kind.peer))) ∧
    ∃ s s' : Rebuilding, start namedPeers { verifyTypeNames := false } = .ok s ∧
      start namedPeers { verifyTypeNames := true } = .ok s' ∧
      (s'.request rebuildSchema broken (.root .peer (.empty .peer))).1 =
        (s.request rebuildSchema broken (.root .peer (.empty .peer))).1 := by
  intro plain rebuild refusal broken
  have hplain : start plain {} = .ok (opened plain {}) := by
    have hvalid : plain.validate {} = .ok () := by decide +kernel
    rw [start, hvalid]
    rfl
  have hnamed : start namedPeers {} = .ok (opened namedPeers {}) := by
    have hvalid : namedPeers.validate {} = .ok () := by decide +kernel
    rw [start, hvalid]
    rfl
  have hmade : (chainedPeers.pass {} 0).intoContainer broken true = .ok namedPeers := by
    decide +kernel
  have htyped : chainedPeers.WellTyped := (chainedPeers.typed (by decide +kernel)).typed
  constructor
  · refine ⟨_, _, hplain, hnamed, ?_, by decide +kernel, by decide +kernel⟩
    exact (names_decide_nothing.1 _ _ _ rebuildSchema _ names_decide_nothing.2.1 (codec .json) {}
      plain namedPeers _ _ rfl rfl hplain hnamed _).1
  · obtain ⟨s, s', hs, hs', hroot⟩ := names_decide_nothing.2.2 chainedPeers broken broken {} {} 0
      [⟨chainedPeers.cell, .one 0⟩] namedPeers htyped
      ((recovers_codec .json).failing none (some 1)) rfl hmade (by decide +kernel)
    exact ⟨s, s', hs, hs', (hroot _).1⟩

/-- A card as an ability of its name, and a list of cards with the cards among its abilities. -/
def Record.misfiled : Record → Record
  | .card name _ _ => .ability name ""
  | .cardList abilities cards => .cardList (abilities ++ cards) []
  | record => record

/-- The CBOR codec, except that cards are written as abilities. -/
def misfiling : Codec Kind Record :=
  { codec .cbor with encode := fun calls r => (codec .cbor).encode calls r.misfiled }

def cardAlone : Heap := .ofContents [.cardList [] [1], .card "Poizom" 3 []]

/-- A list of one ability, and the ability, under the names of a list of cards and of a card. -/
def misfiledCard : Container where
  records := [
    [0xa2, 0x65, 0x63, 0x61, 0x72, 0x64, 0x73, 0x80, 0x69, 0x61, 0x62, 0x69, 0x6c, 0x69, 0x74, 0x69,
      0x65, 0x73, 0x81, 0x01],
    [0xa2, 0x64, 0x6e, 0x61, 0x6d, 0x65, 0x66, 0x50, 0x6f, 0x69, 0x7a, 0x6f, 0x6d, 0x69, 0x61, 0x72,
      0x63, 0x68, 0x65, 0x74, 0x79, 0x70, 0x65, 0x60]]
  typeNames := some [typeName Kind.cardList, typeName Kind.card]

/-- It takes a codec that reads records as they were written: a card that was written as an ability
is rebuilt as one, unless names are checked. -/
theorem not_every_codec_ignores_names :
    (Flatten.Session.after flattenSchema { limits := {} }
      [⟨cardAlone.cell, .one 0⟩]).intoContainer misfiling true = .ok misfiledCard ∧
    (∃ s s' : Rebuilding, start misfiledCard { verifyTypeNames := false } = .ok s ∧
      start misfiledCard { verifyTypeNames := true } = .ok s' ∧
      (s.request rebuildSchema misfiling (.root .cardList (.empty .cardList))).1 = .ok 0 ∧
      (s'.request rebuildSchema misfiling (.root .cardList (.empty .cardList))).1 =
        .error (.typeMismatch ⟨1⟩ (typeName Kind.ability) (typeName Kind.card))) ∧
    ¬ ∀ (h : Heap) (codec : Codec Kind Record) (limits config : Limits) (root : Nat)
      (turns : List (Flatten.Turn Nat (Content Nat))) (c : Container) (s s' : Rebuilding),
      h.WellTyped → Flatten.firstRoot? turns = some (h.cell, root) →
      (Flatten.Session.after flattenSchema { limits } turns).intoContainer codec true = .ok c →
      start c { config with verifyTypeNames := false } = .ok s →
      start c { config with verifyTypeNames := true } = .ok s' → ∀ content : Built,
        (s'.request rebuildSchema codec (.root (h.cell root).content.kind content)).1 =
          (s.request rebuildSchema codec (.root (h.cell root).content.kind content)).1 := by
  have opens (verify : Bool) : start misfiledCard { verifyTypeNames := verify } =
      .ok (opened misfiledCard { verifyTypeNames := verify }) := by
    have hvalid : misfiledCard.validate { verifyTypeNames := verify } = .ok () := by
      cases verify <;> decide +kernel
    rw [start, hvalid]
    rfl
  have hmade : (Flatten.Session.after flattenSchema { limits := {} }
      [⟨cardAlone.cell, .one 0⟩]).intoContainer misfiling true = .ok misfiledCard := by
    decide +kernel
  have hgranted : ((opened misfiledCard { verifyTypeNames := false }).request rebuildSchema
      misfiling (.root .cardList (.empty .cardList))).1 = .ok 0 := by
    decide +kernel
  have hrefused : ((opened misfiledCard { verifyTypeNames := true }).request rebuildSchema
      misfiling (.root .cardList (.empty .cardList))).1 =
        .error (.typeMismatch ⟨1⟩ (typeName Kind.ability) (typeName Kind.card)) := by
    decide +kernel
  refine ⟨hmade, ⟨_, _, opens false, opens true, hgranted, hrefused⟩, fun hall => ?_⟩
  have htyped : cardAlone.WellTyped := (cardAlone.typed (by decide +kernel)).typed
  have halike := hall cardAlone misfiling {} {} 0 _ misfiledCard _ _ htyped rfl hmade (opens false)
    (opens true) (.empty .cardList)
  have hkind : (cardAlone.cell 0).content.kind = .cardList := rfl
  rw [hkind, hgranted, hrefused] at halike
  cases halike

end ObjectGraph.Catalog
