import ObjectGraph.Proofs.Catalog.Canonical
import ObjectGraph.Proofs.Flatten.Faults
import ObjectGraph.Proofs.Flatten.Opening
import ObjectGraph.Proofs.Rebuild.Faults

/-! A codec that fails once shows in which order records are encoded and decoded. Both orders are
that of the numbers, which the pass has given out in the order in which the session comes to the
records again (`faults_name_their_records`). -/
namespace ObjectGraph.Catalog

open ObjectGraph.Graph (Search)
open Rebuild (Address)
open Rebuild.Session (Balanced Decoded)

section Hooks

variable {Admits : Kind → Prop} {kind : Kind}

theorem strict_fillOption (hk : Admits kind) (id : RecordId)
    (item : Option Address → Content Address) : (fillOption kind id item).Strict Admits :=
  ⟨hk, fun _ => rfl, fun _ => trivial⟩

theorem strict_fillAll (hk : Admits kind) (ids : List RecordId)
    (item : List Address → Content Address) : (fillAll kind ids item).Strict Admits :=
  ⟨hk, fun _ => rfl, fun _ => trivial⟩

/-- A record gives up at the first number that is refused, unless its node is lenient. -/
theorem Record.strict_fill {r : Record} (hr : r.kind ≠ .lenient) :
    r.fill.Strict fun kind => kind ≠ .lenient := by
  cases r with
  | lenient => exact absurd rfl hr
  | ability => trivial
  | peer | player | deck => exact strict_fillOption nofun _ _
  | vertex | card => exact strict_fillAll nofun _ _
  | cardList => exact ⟨nofun, fun _ => rfl, fun _ => strict_fillAll nofun _ _⟩

end Hooks

section Rebuilding

variable {h : TypedHeap} {limits : Limits} {e : Encoding} {order : List (Nat × Nat)} {c : Container}
  {root n : Nat} {p : Nat × Nat} {t : Rebuilding}

/-- The request for the root of a container is granted, with its type names or without. -/
theorem request_root_of_intoContainer {id : RecordId} {s : Flatten.Session Nat Record}
    {names : Bool} (ho : Search h.targets 0 [root] [] order)
    (hs : Flatten.Session.serialize flattenSchema h.cell root { limits } = (.ok id, s))
    (hc : s.intoContainer (codec e) names = .ok c) (start : Built) :
    ∃ t, (opened c limits).request rebuildSchema (codec e)
        (.root (h.cell root).content.kind start) =
          (.ok (place (copied h.toHeap order) .root), t) ∧
      Materialized e c limits (copied h.toHeap order) (copied h.toHeap order) [] t := by
  obtain ⟨hnumbered, hf⟩ := flattened_of_intoContainer ho hs hc
  have hnamed : ∀ k p, order[k]? = some p → Named c limits k (h.cell p.1).content.kind := by
    rintro k p hk - name hname
    cases names with
    | true =>
      rw [typeName?_of_intoContainer hnumbered hc hk] at hname
      exact (Option.some.inj hname).symm
    | false =>
      simp [Container.typeName?, (Flatten.Session.packed_of_intoContainer hc).2 rfl] at hname
  exact hf.request_root_granted ho hnamed start

/-- The record that was decoded after `n` others is that of the node discovered after `n` others. -/
theorem getElem?_of_decoded {whole : List (Ref × Nat)} {id : RecordId} {kind : Kind}
    (hb : Balanced c limits [] t) (hm : Materialized e c limits whole whole [] t)
    (hd : Decoded n id kind t) : ∃ depth, whole[n]? = some ((id, kind), depth) := by
  have h := hb.booked hm.failed
  have hturn := hd.turn
  rw [h.decoded, List.nil_append] at hturn
  obtain ⟨kind', hentry⟩ := (h.entries id n).2 hturn
  obtain ⟨node, hnode⟩ := hd.node
  obtain ⟨rfl, -⟩ : kind' = kind ∧ n = node := by simpa [hentry] using hnode
  exact (hm.entries id kind' n).1 hentry

theorem decodes_of_materialized {whole : List (Ref × Nat)} (hb : Balanced c limits [] t)
    (hm : Materialized e c limits whole whole [] t) : t.decodes = whole.length := by
  have h := hb.booked hm.failed
  rw [Rebuild.Session.decodes_eq, h.decoded, List.nil_append, ← h.filled, hm.filled]

theorem decodeFault_failingCodec (n : Nat) :
    (codec .cbor).DecodeFault (failingCodec none (some n)) n
      (.other s!"injected decode failure #{n}") :=
  ⟨((codec .cbor).decodeFault_failing none n).same, ((codec .cbor).decodeFault_failing none n).refuses⟩

theorem encodeFault_failingCodec (n : Nat) :
    (codec .cbor).EncodeFault (failingCodec (some n) none) n
      (.other s!"injected encode failure #{n}") :=
  ⟨((codec .cbor).encodeFault_failing n none).same, ((codec .cbor).encodeFault_failing n none).refuses⟩

theorem strict_of_decode (kind : Kind) (calls : Nat) (bytes : Bytes) (record : Record)
    (start : Built) (hk : kind ≠ .lenient) (hd : (codec e).decode calls kind bytes = .ok record) :
    (rebuildSchema.hook start record).Strict fun kind => kind ≠ .lenient := by
  refine Record.strict_fill ?_
  obtain ⟨xs, -, rfl⟩ := map_eq_ok.1 hd
  rwa [Record.kind_ofFields]

/-- The encoding with a number fails for the node with that number. -/
theorem intoContainer_of_fault {id : RecordId} {s : Flatten.Session Nat Record} {names : Bool}
    (ho : Search h.targets 0 [root] [] order)
    (hs : Flatten.Session.serialize flattenSchema h.cell root { limits } = (.ok id, s))
    (hc : s.intoContainer (codec .cbor) names = .ok c) (hn : order[n]? = some p) :
    s.intoContainer (failingCodec (some n) none) names =
      .error (.encode (position order p.1) (typeName (h.cell p.1).content.kind)
        (.other s!"injected encode failure #{n}")) := by
  obtain ⟨hnumbered, hf⟩ := flattened_of_intoContainer ho hs hc
  have hsize : c.size = order.length := hf.size
  have hlt : n < c.size := hsize ▸ (List.getElem?_eq_some_iff.1 hn).1
  obtain ⟨pending, hp, hfinish⟩ := (Flatten.Session.finish_faulty (encodeFault_failingCodec n)
    (Prod.ext hc rfl)).2 hlt
  have hrecord := hnumbered.records n p hn
  rw [if_neg List.not_mem_nil, hp, Option.some.injEq, Option.some.injEq] at hrecord
  rw [hrecord, RecordId.ofIndex?_index? (hf.index?_position hn)] at hfinish
  exact congrArg Prod.fst hfinish

/-- The decoding with a number fails for the node with that number. A decoding behind the last one
does not. -/
theorem request_root_of_fault {id : RecordId} {s : Flatten.Session Nat Record} {names : Bool}
    (ho : Search h.targets 0 [root] [] order)
    (hs : Flatten.Session.serialize flattenSchema h.cell root { limits } = (.ok id, s))
    (hc : s.intoContainer (codec .cbor) names = .ok c) {d : Rebuilding}
    (hd : Rebuild.Session.start c limits = .ok d) (start : Built) (n : Nat) :
    ∃ node t, d.request rebuildSchema (codec .cbor) (.root (h.cell root).content.kind start) =
        (.ok node, t) ∧
      (order.length ≤ n → d.request rebuildSchema (failingCodec none (some n))
        (.root (h.cell root).content.kind start) = (.ok node, t)) ∧
      ∀ p, order[n]? = some p → ∃ t', d.request rebuildSchema (failingCodec none (some n))
          (.root (h.cell root).content.kind start) =
            (.error (.decode (position order p.1) (typeName (h.cell p.1).content.kind)
              (.other s!"injected decode failure #{n}")), t') ∧
        t'.materializedCount = n ∧ t'.failed = true := by
  obtain rfl := start_eq hd
  have hfirst : Balanced c limits [] (opened c limits) := (Rebuild.Session.Booked.of_start hd).balanced
  obtain ⟨t, hrequest, hm⟩ := request_root_of_intoContainer ho hs hc start
  have hbalanced := Rebuild.Session.balanced_request rebuildSchema (codec .cbor) hfirst
    (.root (h.cell root).content.kind start)
  rw [hrequest] at hbalanced
  have hdecodes : t.decodes = order.length := by
    rw [decodes_of_materialized hbalanced hm, copied, List.length_map]
  obtain ⟨hpast, hat⟩ := Rebuild.Session.request_faulty (decodeFault_failingCodec n)
    strict_of_decode hfirst (Nat.zero_le n) hrequest (h.strict root)
  rw [hdecodes] at hpast hat
  refine ⟨_, t, hrequest, hpast, fun p hp => ?_⟩
  obtain ⟨id', kind', t', hdecoded, hcount, hfailed, hrefused⟩ :=
    hat (List.getElem?_eq_some_iff.1 hp).1
  obtain ⟨depth, hwhole⟩ := getElem?_of_decoded hbalanced hm hdecoded
  rw [getElem?_copied h.toHeap hp, Option.some.injEq, Prod.mk.injEq] at hwhole
  obtain ⟨rfl, rfl⟩ := Prod.mk.inj hwhole.1
  exact ⟨t', hrefused, hcount, hfailed⟩

/-- Records are encoded and decoded in the order of their numbers. Under a codec that fails at its
encoding or decoding after `n` others, the fault names the node with number `n` and its type. It
leaves no container, or a failed session with `n` nodes. If there is no such node, all is as without
the fault. The session opens under the limits of the pass unless a type name in the container is
too long for them. -/
theorem faults_name_their_records (h : TypedHeap) (limits : Limits) (root : Nat) (names : Bool)
    {id : RecordId} {s : Flatten.Session Nat Record} {c : Container}
    (hs : Flatten.Session.serialize flattenSchema h.cell root { limits } = (.ok id, s))
    (hc : s.intoContainer (codec .cbor) names = .ok c) :
    let kind := (h.cell root).content.kind
    (∀ n < c.size, ∃ a id, s.numbering.lookup a = some id ∧ id.index? = some n ∧
      s.intoContainer (failingCodec (some n) none) names =
        .error (.encode id (typeName (h.cell a).content.kind)
          (.other s!"injected encode failure #{n}")) ∧
      ∀ d, Rebuild.Session.start c limits = .ok d → ∃ t,
        d.request rebuildSchema (failingCodec none (some n)) (.root kind (.empty kind)) =
          (.error (.decode id (typeName (h.cell a).content.kind)
            (.other s!"injected decode failure #{n}")), t) ∧
        t.materializedCount = n ∧ t.failed = true) ∧
    (∀ n, c.size ≤ n →
      s.intoContainer (failingCodec (some n) none) names = .ok c ∧
      ∀ d, Rebuild.Session.start c limits = .ok d → ∃ node t,
        d.request rebuildSchema (codec .cbor) (.root kind (.empty kind)) = (.ok node, t) ∧
        d.request rebuildSchema (failingCodec none (some n)) (.root kind (.empty kind)) =
          (.ok node, t)) ∧
    ((∃ d : Rebuilding, Rebuild.Session.start c limits = .ok d) ↔
      (names = true → ∀ name ∈ s.titles flattenSchema h.cell, Container.Fits limits name)) := by
  intro kind
  obtain ⟨order, ho⟩ := h.exists_search root
  obtain ⟨hnumbered, hf⟩ := flattened_of_intoContainer ho hs hc
  have hsize : c.size = order.length := hf.size
  refine ⟨fun n hn => ?_, fun n hn => ⟨?_, fun d hd => ?_⟩, ?_⟩
  · have hp := List.getElem?_eq_getElem (hsize ▸ hn)
    refine ⟨_, _, ?_, hf.index?_position hp, intoContainer_of_fault ho hs hc hp, fun d hd => ?_⟩
    · rw [hnumbered.numbering.lookup, if_pos (List.mem_map_of_mem (List.mem_of_getElem? hp))]
    · obtain ⟨-, -, -, -, hfault⟩ := request_root_of_fault ho hs hc hd (.empty kind) n
      exact hfault _ hp
  · exact congrArg Prod.fst ((Flatten.Session.finish_faulty (encodeFault_failingCodec n)
      (Prod.ext hc rfl)).1 hn)
  · obtain ⟨node, t, hplain, hpast, -⟩ := request_root_of_fault ho hs hc hd (.empty kind) n
    exact ⟨node, t, hplain, hpast (hsize ▸ hn)⟩
  · have htitled := Flatten.Session.titled_serialize flattenSchema h.cell limits root
    rw [hs] at htitled
    rw [Flatten.Session.exists_start_iff, ← hnumbered.limits]
    exact htitled.validate_iff hc

/-- The player and the deck that it refers to, of which the deck is decoded second. -/
theorem faults_ownedDeck : ∃ id s c d,
    Flatten.Session.serialize flattenSchema ownedDeck.cell 0 { limits := {} } = (.ok id, s) ∧
    s.intoContainer (codec .cbor) true = .ok c ∧ Rebuild.Session.start c {} = .ok d ∧
    (∃ a id t, s.numbering.lookup a = some id ∧ id.index? = some 1 ∧
      d.request rebuildSchema (failingCodec none (some 1)) (.root .player (.empty .player)) =
        (.error (.decode id (typeName (ownedDeck.cell a).content.kind)
          (.other s!"injected decode failure #{1}")), t) ∧
      t.materializedCount = 1 ∧ t.failed = true) ∧
    ∃ node t, d.request rebuildSchema (failingCodec none (some 2))
      (.root .player (.empty .player)) = (.ok node, t) := by
  have hid : (Flatten.Session.serialize flattenSchema ownedDeck.cell 0 { limits := {} }).1 =
      .ok .root := by decide +kernel
  have hok : ((Flatten.Session.serialize flattenSchema ownedDeck.cell 0
      { limits := {} }).2.intoContainer (codec .cbor) true).isOk = true := by decide +kernel
  have hcount : (Flatten.Session.serialize flattenSchema ownedDeck.cell 0
      { limits := {} }).2.objectCount = 2 := by decide +kernel
  have hfits : ∀ name ∈ (Flatten.Session.serialize flattenSchema ownedDeck.cell 0
      { limits := {} }).2.titles flattenSchema ownedDeck.cell,
      (Utf8.ofString name).length ≤ 1024 := by decide +kernel
  rcases hc : (Flatten.Session.serialize flattenSchema ownedDeck.cell 0
    { limits := {} }).2.intoContainer (codec .cbor) true with fault | c
  · rw [hc] at hok
    cases hok
  obtain ⟨hat, hpast, hopens⟩ :=
    faults_name_their_records ownedDeck {} 0 true (Prod.ext hid rfl) hc
  have hsize := (Flatten.Session.packed_of_intoContainer hc).1.size.trans hcount
  obtain ⟨d, hd⟩ := hopens.2 fun _ => hfits
  obtain ⟨a, id, hlookup, hindex, -, hfault⟩ := hat 1 (by omega)
  obtain ⟨t, hrefused, hmade, hfailed⟩ := hfault d hd
  obtain ⟨node, u, -, hgranted⟩ := (hpast 2 (by omega)).2 d hd
  exact ⟨_, _, c, d, Prod.ext hid rfl, hc, hd, ⟨a, id, t, hlookup, hindex, hrefused, hmade, hfailed⟩,
    node, u, hgranted⟩

/-- Not every graph can be rebuilt from the container of its pass, under the limits of the pass: the
name of its one node's type may be too long. -/
theorem not_every_pass_is_undone : ¬ ∀ (h : TypedHeap) (limits : Limits) (root : Nat) (names : Bool)
    id s c n, Flatten.Session.serialize flattenSchema h.cell root { limits } = (.ok id, s) →
      s.intoContainer (codec .cbor) names = .ok c → c.size ≤ n →
      ∃ d node t, Rebuild.Session.start c limits = .ok d ∧
        d.request rebuildSchema (failingCodec none (some n))
          (.root (h.cell root).content.kind (.empty (h.cell root).content.kind)) =
            (.ok node, t) := by
  intro h
  obtain ⟨d, node, t, hd, -⟩ := h (Heap.typed Flatten.Session.unnamedPeer (by decide +kernel))
    { maxTypeNameLen := 10 } 0 true .root _ _ 5 rfl rfl (by decide)
  cases hd

end Rebuilding
end ObjectGraph.Catalog
