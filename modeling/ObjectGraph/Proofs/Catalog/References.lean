import ObjectGraph.Catalog.Heap
import Mathlib.Tactic

/-! References of nodes and records: a node with its references renamed, as a record and back, and
the kinds of nodes that its references must lead to. -/
namespace ObjectGraph.Catalog

variable {α β ρ ρ' σ σ' : Type}

/-- No two node types share a name. -/
theorem Kind.typeName_injective : Function.Injective Kind.typeName := by
  intro k k' h
  cases k <;> cases k' <;> first | rfl | exact absurd h (by decide)

def Item.map (f : ρ → ρ') (g : σ → σ') : Item ρ σ → Item ρ' σ'
  | .peer label other => .peer label (g other)
  | .player name rating owned => .player name rating (g owned)
  | .deck title owner => .deck title (g owner)
  | .vertex tag edges => .vertex tag (edges.map f)
  | .ability name archetype => .ability name archetype
  | .card name cost abilities => .card name cost (abilities.map f)
  | .cardList abilities cards => .cardList (abilities.map f) (cards.map f)
  | .lenient label edges => .lenient label (edges.map f)

@[simp] theorem Item.kind_map (f : ρ → ρ') (g : σ → σ') (item : Item ρ σ) :
    (item.map f g).kind = item.kind := by
  cases item <;> rfl

namespace Content

def move (f : α → β) (c : Content α) : Content β := c.map f (Option.map f)

def toRecord (number : α → RecordId) (c : Content α) : Record :=
  c.map number fun target => target.elim .nil number

@[simp] theorem kind_toRecord (number : α → RecordId) (c : Content α) :
    (c.toRecord number).kind = c.kind :=
  Item.kind_map ..

/-- The targets of a node, each with the kind that its field admits. -/
def demands : Content α → List (α × Kind)
  | .peer _ other => other.toList.map (·, .peer)
  | .player _ _ deck => deck.toList.map (·, .deck)
  | .deck _ owner => owner.toList.map (·, .player)
  | .vertex _ edges => edges.map (·, .vertex)
  | .ability _ _ => []
  | .card _ _ abilities => abilities.map (·, .ability)
  | .cardList abilities cards => abilities.map (·, .ability) ++ cards.map (·, .card)
  | .lenient _ edges => edges.map (·, .lenient)

theorem map_fst_demands (c : Content α) : c.demands.map Prod.fst = c.targets := by
  cases c <;> simp [demands, targets, Function.comp_def]

/-- Only the targets of a node matter for where its references point. -/
theorem move_congr {f g : α → β} {c : Content α} (h : ∀ a ∈ c.targets, f a = g a) :
    c.move f = c.move g := by
  cases c with
  | peer _ other | player _ _ other | deck _ other =>
    cases other with
    | none => rfl
    | some a => simp [move, Item.map, h a (by simp [targets])]
  | ability => rfl
  | vertex | card | lenient => simpa [move, Item.map, targets] using h
  | cardList abilities cards =>
    simp only [targets, List.mem_append] at h
    simp only [move, Item.map, Item.cardList.injEq, List.map_inj_left]
    exact ⟨fun a ha => h a (.inl ha), fun a ha => h a (.inr ha)⟩

end Content

namespace Record

def toContent (place : RecordId → β) (r : Record) : Content β :=
  r.map place fun id => if id.isNil then none else some (place id)

def optional (kind : Kind) (id : RecordId) : List (RecordId × Kind) :=
  if id.isNil then [] else [(id, kind)]

/-- The records that a record refers to, each with the kind that its field admits. The absent
reference is among them where a field does not admit it. -/
def links : Record → List (RecordId × Kind)
  | .peer _ other => optional .peer other
  | .player _ _ deck => optional .deck deck
  | .deck _ owner => optional .player owner
  | .vertex _ edges => edges.map (·, .vertex)
  | .ability _ _ => []
  | .card _ _ abilities => abilities.map (·, .ability)
  | .cardList abilities cards => abilities.map (·, .ability) ++ cards.map (·, .card)
  | .lenient _ edges => edges.flatMap (optional .lenient)

theorem optional_of_ne_nil {id : RecordId} (h : id ≠ .nil) (kind : Kind) :
    optional kind id = [(id, kind)] := by
  simp [optional, RecordId.isNil, h]

/-- Only lenient records refer to lenient ones. -/
theorem strict_of_mem_links {r : Record} (hr : r.kind ≠ .lenient) {link : RecordId × Kind}
    (hl : link ∈ r.links) : link.2 ≠ .lenient := by
  cases r with
  | lenient => exact absurd rfl hr
  | ability => cases hl
  | peer _ id | player _ _ id | deck _ id =>
    simp only [links, optional] at hl
    split at hl
    · cases hl
    · obtain rfl := List.mem_singleton.1 hl
      simp
  | cardList =>
    simp only [links, List.mem_append, List.mem_map] at hl
    rcases hl with ⟨_, _, rfl⟩ | ⟨_, _, rfl⟩ <;> simp
  | vertex | card =>
    obtain ⟨_, _, rfl⟩ := List.mem_map.1 hl
    simp

/-- The links of a node's record are the node's references. -/
theorem links_toRecord {number : α → RecordId} {c : Content α}
    (h : ∀ a ∈ c.targets, number a ≠ .nil) :
    links (c.toRecord number) = c.demands.map fun d => (number d.1, d.2) := by
  cases c with
  | peer _ other | player _ _ other | deck _ other =>
    cases other with
    | none => rfl
    | some a => exact optional_of_ne_nil (h a (by simp [Content.targets])) _
  | ability => rfl
  | vertex | card | cardList =>
    simp [Content.toRecord, Item.map, links, Content.demands, Function.comp_def]
  | lenient label edges =>
    have hmap : ∀ a ∈ edges, optional .lenient (number a) = [(number a, .lenient)] := fun a ha =>
      optional_of_ne_nil (h a ha) _
    simp only [Content.toRecord, Item.map, links, Content.demands, List.flatMap_map]
    rw [List.flatMap_congr hmap, ← List.map_eq_flatMap, List.map_map]
    rfl

/-- From a node to its record and back, every reference is moved. -/
theorem toContent_toRecord {number : α → RecordId} {c : Content α}
    (h : ∀ a ∈ c.targets, number a ≠ .nil) (place : RecordId → β) :
    toContent place (c.toRecord number) = c.move fun a => place (number a) := by
  cases c with
  | peer _ other | player _ _ other | deck _ other =>
    cases other with
    | none => rfl
    | some a =>
      have ha := h a (by simp [Content.targets])
      simp [Content.toRecord, Item.map, toContent, Content.move, RecordId.isNil, ha]
  | ability => rfl
  | _ => simp [Content.toRecord, Item.map, toContent, Content.move, Function.comp_def]

@[simp] theorem kind_toContent (place : RecordId → β) (r : Record) :
    (r.toContent place).kind = r.kind :=
  Item.kind_map ..

/-- A node demands what its record links to. -/
theorem demands_toContent {r : Record} (hr : r.kind ≠ .lenient) (place : RecordId → β) :
    (r.toContent place).demands = r.links.map (Prod.map place id) := by
  cases r with
  | lenient => exact absurd rfl hr
  | ability => rfl
  | peer _ id | player _ _ id | deck _ id =>
    simp only [toContent, Item.map, Content.demands, links, optional]
    split <;> rfl
  | vertex | card | cardList =>
    simp [toContent, Item.map, Content.demands, links, Function.comp_def]

end Record

/-- A heap without lenient nodes in which every reference leads to a node of the kind that its field
admits. -/
structure TypedHeap extends Heap where
  strict : ∀ node, (toHeap.cell node).content.kind ≠ .lenient
  typed : ∀ node, ∀ d ∈ (toHeap.cell node).content.demands, (toHeap.cell d.1).content.kind = d.2

namespace Heap

def targets (h : Heap) (node : Nat) : List Nat := (h.cell node).content.targets

def isTyped (h : Heap) : Bool :=
  h.cells.all fun cell => cell.content.kind ≠ .lenient ∧
    ∀ d ∈ cell.content.demands, (h.cell d.1).content.kind = d.2

/-- Beyond the last address there are peers without references. -/
theorem cell_cases (h : Heap) (node : Nat) :
    h.cell node ∈ h.cells ∨ (h.cell node).content = .empty .peer := by
  unfold cell
  rw [Array.getD_eq_getD_getElem?]
  cases hc : h.cells[node]? with
  | none => exact .inr rfl
  | some c => exact .inl (Array.mem_of_getElem? hc)

def typed (h : Heap) (ht : h.isTyped = true) : TypedHeap where
  toHeap := h
  strict node := by
    rcases h.cell_cases node with hc | hc
    · exact (of_decide_eq_true (Array.all_eq_true'.1 ht _ hc)).1
    · simp [hc]
  typed node d hd := by
    rcases h.cell_cases node with hc | hc
    · exact (of_decide_eq_true (Array.all_eq_true'.1 ht _ hc)).2 d hd
    · rw [hc] at hd
      cases hd

end Heap
end ObjectGraph.Catalog
