import ObjectGraph.Proofs.Catalog.RoundTrip
import ObjectGraph.Proofs.Flatten.Renaming

/-! The container of a graph is the same for every copy of it, wherever its nodes are, and with type
names it belongs to no other graph (`container_iff_alike`). -/
namespace ObjectGraph.Catalog

open ObjectGraph.Graph (Reaches Search firstFault)
open Flatten (Hook Session)

variable {α β : Type}

namespace Content

@[simp] theorem kind_move (f : α → β) (c : Content α) : (c.move f).kind = c.kind :=
  Item.kind_map ..

@[simp] theorem move_id (c : Content α) : c.move id = c := by
  cases c <;> simp [move, Item.map]

/-- A node that refers elsewhere asks for other nodes in the same way. -/
theorem flatten_move (f : α → β) {c : Content α} (hc : c.kind ≠ .lenient) :
    (c.move f).flatten = c.flatten.map f := by
  cases c with
  | lenient => exact absurd rfl hc
  | ability => rfl
  | peer _ other | player _ _ other | deck _ other =>
    simp only [move, Item.map, flatten, Hook.map_serializeOption, Hook.map_orFail]
    rfl
  | vertex | card | cardList =>
    simp only [move, Item.map, flatten, Hook.map_serializeAll, Hook.map_orFail]
    rfl

/-- A node asks for its targets alone. -/
theorem within_flatten {world : Set α} {c : Content α} (hc : c.kind ≠ .lenient)
    (h : ∀ a ∈ c.targets, a ∈ world) : (c.flatten : Hook α Record).Within world := by
  cases c with
  | lenient => exact absurd rfl hc
  | ability => trivial
  | peer _ other | player _ _ other | deck _ other =>
    exact Hook.within_serializeOption (fun a ha => h a (Option.mem_toList.2 ha))
      (Hook.within_orFail fun _ => trivial)
  | vertex | card =>
    exact Hook.within_serializeAll h (Hook.within_orFail fun _ => trivial)
  | cardList abilities cards =>
    refine Hook.within_serializeAll (fun a ha => h a (List.mem_append_left _ ha))
      (Hook.within_orFail fun _ => ?_)
    exact Hook.within_serializeAll (fun a ha => h a (List.mem_append_right _ ha))
      (Hook.within_orFail fun _ => trivial)

end Content

/-- A map takes the part of a heap below a root to that of another: every node to one of its type,
with its scalars and the images of its targets, and being written to only if it is. -/
structure Alike (h : Heap) (root : Nat) (h' : Heap) (root' : Nat) (f : Nat → Nat) : Prop where
  bijective : Set.BijOn f {a | Reaches h.targets root a} {a | Reaches h'.targets root' a}
  top : f root = root'
  contents : ∀ a, Reaches h.targets root a → (h'.cell (f a)).content = (h.cell a).content.move f
  borrows : ∀ a, Reaches h.targets root a →
    (h'.cell (f a)).borrow.isExclusive = (h.cell a).borrow.isExclusive

variable {h h' : TypedHeap} {root root' : Nat} {limits : Limits} {e : Encoding}

theorem Alike.renames {h' : Heap} {f : Nat → Nat} (ha : Alike h.toHeap root h' root' f) :
    Session.Renames flattenSchema h.cell flattenSchema h'.cell f
      {a | Reaches h.targets root a} where
  injOn := ha.bijective.injOn
  within a hr := Content.within_flatten (h.strict a) fun _ hb => hr.tail hb
  hook a hr := by
    rw [ha.contents a hr]
    exact Content.flatten_move f (h.strict a)
  typeName a hr := by
    rw [ha.contents a hr]
    exact congrArg Kind.typeName (Content.kind_move f _)
  borrow := ha.borrows

/-- The pass over a copy gives the same answer, and leaves the same session but for the nodes. -/
theorem Alike.serialize_eq {h' : Heap} {f : Nat → Nat} (ha : Alike h.toHeap root h' root' f)
    (limits : Limits) :
    Session.serialize flattenSchema h'.cell root' { limits } =
      Prod.map id (Session.rename f) (Session.serialize flattenSchema h.cell root { limits }) := by
  have hroot : root ∈ {a | Reaches h.targets root a} := Relation.ReflTransGen.refl
  have hsame := Session.serialize_rename ha.renames (s := { limits }) hroot (fun _ => nofun)
  rwa [ha.top] at hsame

def nodeOf (order : List (Nat × Nat)) (id : RecordId) : Nat :=
  ((id.index?.bind fun index => order[index]?).map Prod.fst).getD 0

section Converse

variable {order order' : List (Nat × Nat)} {c : Container} {k : Nat} {p q : Nat × Nat}

theorem Flattened.nodeOf_position (hf : Flattened h.toHeap limits e order c)
    (hk : order[k]? = some p) (hq : order'[k]? = some q) :
    nodeOf order' (position order p.1) = q.1 := by
  simp [nodeOf, hf.index?_position hk, hq]

/-- Two graphs of one container correspond node by node. -/
theorem Flattened.exists_of_getElem? (hf : Flattened h.toHeap limits e order c)
    (hf' : Flattened h'.toHeap limits e order' c) (hk : order[k]? = some p) :
    ∃ q, order'[k]? = some q := by
  obtain ⟨hlt, -⟩ := List.getElem?_eq_some_iff.1 hk
  exact ⟨_, List.getElem?_eq_getElem (by rw [← hf'.size, hf.size]; exact hlt)⟩

/-- Nodes of one type with one record differ in the nodes that they refer to alone. -/
theorem Flattened.content_eq (hf : Flattened h.toHeap limits e order c)
    (ho : Search h.targets 0 [root] [] order) (hf' : Flattened h'.toHeap limits e order' c)
    (ho' : Search h'.targets 0 [root'] [] order') (hk : order[k]? = some p)
    (hq : order'[k]? = some q)
    (hkind : (h'.cell q.1).content.kind = (h.cell p.1).content.kind) :
    (h'.cell q.1).content =
      (h.cell p.1).content.move fun a => nodeOf order' (position order a) := by
  obtain ⟨bs, hb, hdecode⟩ := hf.decode_refOf hk
  obtain ⟨bs', hb', hdecode'⟩ := hf'.decode_refOf hq
  obtain rfl : bs = bs' := Option.some.inj (hb.symm.trans hb')
  simp only [refOf, hkind] at hdecode hdecode'
  have hrecord := Except.ok.inj (hdecode'.symm.trans hdecode)
  have hp : p.1 ∈ order.map Prod.fst := List.mem_map_of_mem (List.mem_of_getElem? hk)
  have hq' : q.1 ∈ order'.map Prod.fst := List.mem_map_of_mem (List.mem_of_getElem? hq)
  -- The records are equal, so the numbers of one node's targets are those of the other's.
  have hback : (h'.cell q.1).content.move (fun a => nodeOf order' (position order' a)) =
      (h'.cell q.1).content.move id := by
    apply Content.move_congr
    intro a ha
    obtain ⟨j, r, hj, rfl⟩ := Graph.exists_getElem?_of_mem (ho'.closed hq' ha)
    exact hf'.nodeOf_position hj hj
  rw [← Content.move_id (h'.cell q.1).content, ← hback,
    ← Record.toContent_toRecord (hf'.position_ne_nil ho' hq'), hrecord,
    Record.toContent_toRecord (hf.position_ne_nil ho hp)]

/-- Graphs of one container are alike if their nodes are of the same types. -/
theorem Flattened.alike (hf : Flattened h.toHeap limits e order c)
    (ho : Search h.targets 0 [root] [] order) (hf' : Flattened h'.toHeap limits e order' c)
    (ho' : Search h'.targets 0 [root'] [] order')
    (hkinds : ∀ (k : Nat) (p q : Nat × Nat), order[k]? = some p → order'[k]? = some q →
      (h'.cell q.1).content.kind = (h.cell p.1).content.kind) :
    Alike h.toHeap root h'.toHeap root' fun a => nodeOf order' (position order a) := by
  refine ⟨⟨?_, ?_, ?_⟩, ?_, ?_, ?_⟩
  · intro a ha
    obtain ⟨k, p, hk, rfl⟩ := exists_position ho ha
    obtain ⟨q, hq⟩ := hf.exists_of_getElem? hf' hk
    show Reaches h'.targets root' (nodeOf order' (position order p.1))
    rw [hf.nodeOf_position hk hq]
    simpa using ho'.reaches (List.mem_map_of_mem (List.mem_of_getElem? hq))
  · intro a ha b hb hab
    obtain ⟨i, p, hi, rfl⟩ := exists_position ho ha
    obtain ⟨j, r, hj, rfl⟩ := exists_position ho hb
    obtain ⟨p', hp'⟩ := hf.exists_of_getElem? hf' hi
    obtain ⟨r', hr'⟩ := hf.exists_of_getElem? hf' hj
    simp only [hf.nodeOf_position hi hp', hf.nodeOf_position hj hr'] at hab
    have hij : i = j := by rw [← hf'.idxOf_eq hp', hab, hf'.idxOf_eq hr']
    rw [hij, hj] at hi
    rw [Option.some.inj hi]
  · intro b hb
    obtain ⟨k, q, hq, rfl⟩ := exists_position ho' hb
    obtain ⟨p, hk⟩ := hf'.exists_of_getElem? hf hq
    refine ⟨p.1, ?_, hf.nodeOf_position hk hq⟩
    simpa using ho.reaches (List.mem_map_of_mem (List.mem_of_getElem? hk))
  · show nodeOf order' (position order root) = root'
    rw [position_root ho, ← position_root ho']
    obtain ⟨k, q, hq, hroot⟩ := exists_position ho' (a := root') .refl
    rw [← hroot]
    exact hf'.nodeOf_position hq hq
  · intro a ha
    obtain ⟨k, p, hk, rfl⟩ := exists_position ho ha
    obtain ⟨q, hq⟩ := hf.exists_of_getElem? hf' hk
    simp only [hf.nodeOf_position hk hq]
    exact hf.content_eq ho hf' ho' hk hq (hkinds k p q hk hq)
  · intro a ha
    obtain ⟨k, p, hk, rfl⟩ := exists_position ho ha
    obtain ⟨q, hq⟩ := hf.exists_of_getElem? hf' hk
    simp only [hf.nodeOf_position hk hq, (violation_eq_none.1 (hf.clear k p hk)).2.2,
      (violation_eq_none.1 (hf'.clear k q hq)).2.2]

/-- A successful pass as the container shows it, its type names left out. -/
theorem flattened_of_intoContainer {id : RecordId} {s : Session Nat Record} {names : Bool}
    (ho : Search h.targets 0 [root] [] order)
    (hs : Session.serialize flattenSchema h.cell root { limits } = (.ok id, s))
    (hc : s.intoContainer (codec e) names = .ok c) :
    Numbered h.cell limits order order [] s ∧
      Flattened h.toHeap limits e order { c with typeNames := none } := by
  obtain ⟨hclear, hnumbered⟩ := clear_of_serialize ho hs
  have hpacked := (Session.packed_of_intoContainer hc).1.unnamed
  exact ⟨hnumbered, flattened_of_packed ho hclear hnumbered hpacked rfl⟩

/-- A container without type names shows the whole pass. -/
theorem flattened_of_unnamed {id : RecordId} {s : Session Nat Record}
    (ho : Search h.targets 0 [root] [] order)
    (hs : Session.serialize flattenSchema h.cell root { limits } = (.ok id, s))
    (hc : s.intoContainer (codec e) false = .ok c) : Flattened h.toHeap limits e order c := by
  obtain ⟨-, hf⟩ := flattened_of_intoContainer ho hs hc
  have hnames := (Session.packed_of_intoContainer hc).2 rfl
  rwa [show ({ c with typeNames := none } : Container) = c by rw [← hnames]] at hf

/-- A container with type names has that of the node at a position. -/
theorem typeName?_of_intoContainer {s : Session Nat Record}
    (hs : Numbered h.cell limits order order [] s)
    (hc : s.intoContainer (codec e) true = .ok c) (hk : order[k]? = some p) :
    c.typeName? k = some (h.cell p.1).content.kind.typeName := by
  obtain ⟨hlt, -⟩ := List.getElem?_eq_some_iff.1 hk
  have hcount : k < s.objectCount := by
    unfold Session.objectCount
    rwa [hs.numbering.size, List.length_map]
  obtain ⟨name, hname, pending, hat, rfl⟩ := Session.labels_of_intoContainer hc hcount
  have hrecord := hs.records k p hk
  rw [if_neg List.not_mem_nil, hat, Option.some.injEq, Option.some.injEq] at hrecord
  rw [hname, hrecord]
  rfl

/-- Whether graphs are alike is told by their containers with type names: alike graphs have one
answer and one container, faults included, and graphs of one container are alike. -/
theorem container_iff_alike (h h' : TypedHeap) (root root' : Nat) (limits : Limits) (e : Encoding) :
    ((∃ f, Alike h.toHeap root h'.toHeap root' f) →
      (Session.serialize flattenSchema h'.cell root' { limits }).1 =
          (Session.serialize flattenSchema h.cell root { limits }).1 ∧
        (Session.serialize flattenSchema h'.cell root' { limits }).2.intoContainer (codec e) true =
          (Session.serialize flattenSchema h.cell root { limits }).2.intoContainer (codec e) true) ∧
    ∀ {id id' : RecordId} {s s' : Session Nat Record} {c : Container},
      Session.serialize flattenSchema h.cell root { limits } = (.ok id, s) →
      Session.serialize flattenSchema h'.cell root' { limits } = (.ok id', s') →
      s.intoContainer (codec e) true = .ok c → s'.intoContainer (codec e) true = .ok c →
      ∃ f, Alike h.toHeap root h'.toHeap root' f := by
  constructor
  · rintro ⟨f, ha⟩
    rw [ha.serialize_eq limits]
    exact ⟨rfl, Session.intoContainer_rename ..⟩
  · intro id id' s s' c hs hs' hc hc'
    obtain ⟨order, ho⟩ := h.exists_search root
    obtain ⟨order', ho'⟩ := h'.exists_search root'
    obtain ⟨hnumbered, hf⟩ := flattened_of_intoContainer ho hs hc
    obtain ⟨hnumbered', hf'⟩ := flattened_of_intoContainer ho' hs' hc'
    refine ⟨_, hf.alike ho hf' ho' fun k p q hk hq => Kind.typeName_injective ?_⟩
    have hname := typeName?_of_intoContainer hnumbered hc hk
    have hname' := typeName?_of_intoContainer hnumbered' hc' hq
    exact Option.some.inj (hname'.symm.trans hname)

def deckFirst : TypedHeap :=
  Heap.typed (.ofContents [.deck "b" (some 1), .player "a" 1 (some 0)]) (by decide +kernel)

theorem alike_ownedDeck_deckFirst : ∃ f, Alike ownedDeck.toHeap 0 deckFirst.toHeap 1 f ∧
    (Session.serialize flattenSchema deckFirst.cell 1 { limits := {} }).1 =
        (Session.serialize flattenSchema ownedDeck.cell 0 { limits := {} }).1 ∧
      (Session.serialize flattenSchema deckFirst.cell 1 { limits := {} }).2.intoContainer
          (codec .json) true =
        (Session.serialize flattenSchema ownedDeck.cell 0 { limits := {} }).2.intoContainer
          (codec .json) true := by
  have hid : (Session.serialize flattenSchema ownedDeck.cell 0 { limits := {} }).1 = .ok .root := by
    decide +kernel
  have hid' : (Session.serialize flattenSchema deckFirst.cell 1 { limits := {} }).1 =
      .ok .root := by decide +kernel
  have hok : ((Session.serialize flattenSchema ownedDeck.cell 0
      { limits := {} }).2.intoContainer (codec .json) true).isOk = true := by decide +kernel
  have hsame : (Session.serialize flattenSchema deckFirst.cell 1 { limits := {} }).2.intoContainer
      (codec .json) true = (Session.serialize flattenSchema ownedDeck.cell 0
        { limits := {} }).2.intoContainer (codec .json) true := by decide +kernel
  cases hc : (Session.serialize flattenSchema ownedDeck.cell 0
      { limits := {} }).2.intoContainer (codec .json) true with
  | error fault =>
    rw [hc] at hok
    cases hok
  | ok c =>
    obtain ⟨f, ha⟩ := (container_iff_alike ownedDeck deckFirst 0 1 {} .json).2
      (Prod.ext hid rfl) (Prod.ext hid' rfl) hc (hsame.trans hc)
    exact ⟨f, ha, hc ▸ (container_iff_alike ownedDeck deckFirst 0 1 {} .json).1 ⟨f, ha⟩⟩

end Converse
end ObjectGraph.Catalog
