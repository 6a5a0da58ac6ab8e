import ObjectGraph.Catalog.Kind
import ObjectGraph.Layout
import ObjectGraph.RecordId

/-! Nodes and records of the catalog. A node and its record differ in the references alone: a node
refers to nodes, its record to record numbers. -/
namespace ObjectGraph.Catalog

/-- A node or record with references in `ρ`, and in `σ` where one may be absent. -/
inductive Item (ρ σ : Type) where
  | peer (label : String) (other : σ)
  | player (name : String) (rating : Int32) (deck : σ)
  | deck (title : String) (owner : σ)
  | vertex (tag : UInt32) (edges : List ρ)
  | ability (name archetype : String)
  | card (name : String) (cost : UInt32) (abilities : List ρ)
  | cardList (abilities cards : List ρ)
  | lenient (label : String) (edges : List ρ)
  deriving DecidableEq, Repr

def Item.kind : Item ρ σ → Kind
  | .peer .. => .peer
  | .player .. => .player
  | .deck .. => .deck
  | .vertex .. => .vertex
  | .ability .. => .ability
  | .card .. => .card
  | .cardList .. => .cardList
  | .lenient .. => .lenient

/-- What a node holds, its references pointing into `α`. -/
abbrev Content (α : Type) := Item α (Option α)

abbrev Record := Item RecordId RecordId

/-- A node before anything is read into it. -/
def Content.empty : Kind → Content α
  | .peer => .peer "" none
  | .player => .player "" 0 none
  | .deck => .deck "" none
  | .vertex => .vertex 0 []
  | .ability => .ability "" ""
  | .card => .card "" 0 []
  | .cardList => .cardList [] []
  | .lenient => .lenient "" []

@[simp] theorem Content.kind_empty (k : Kind) : (Content.empty k : Content α).kind = k := by
  cases k <;> rfl

/-- The nodes a node refers to, in the order of its fields. -/
def Content.targets : Content α → List α
  | .peer _ other => other.toList
  | .player _ _ deck => deck.toList
  | .deck _ owner => owner.toList
  | .vertex _ edges => edges
  | .ability _ _ => []
  | .card _ _ abilities => abilities
  | .cardList abilities cards => abilities ++ cards
  | .lenient _ edges => edges

namespace Record

def idField (name : String) : Field := ⟨name, .word .u32, none⟩

def idsField (name : String) : Field := ⟨name, .list (.word .u32), none⟩

def textField (name : String) : Field := ⟨name, .text, none⟩

def fields : Kind → List Field
  | .peer => [textField "label", idField "other"]
  | .player => [textField "name", ⟨"rating", .word .i32, none⟩, idField "deck"]
  | .deck => [textField "title", idField "owner"]
  | .vertex => [⟨"tag", .word .u32, none⟩, idsField "edges"]
  | .ability => [textField "name", textField "archetype"]
  | .card => [textField "name", ⟨"cost", .word .u32, none⟩, idsField "abilities"]
  | .cardList => [idsField "abilities", idsField "cards"]
  | .lenient => [textField "label", idsField "edges"]

def layout (k : Kind) : Layout := ⟨k.recordName, fields k, false⟩

def raws (ids : List RecordId) : List UInt32 := ids.map RecordId.raw

def ids (raws : List UInt32) : List RecordId := raws.map RecordId.mk

def toFields : (r : Record) → (layout r.kind).Val
  | .peer label other => (label, other.raw, ())
  | .player name rating deck => (name, rating, deck.raw, ())
  | .deck title owner => (title, owner.raw, ())
  | .vertex tag edges => (tag, raws edges, ())
  | .ability name archetype => (name, archetype, ())
  | .card name cost abilities => (name, cost, raws abilities, ())
  | .cardList abilities cards => (raws abilities, raws cards, ())
  | .lenient label edges => (label, raws edges, ())

def ofFields : (k : Kind) → (layout k).Val → Record
  | .peer, (label, other, ()) => .peer label ⟨other⟩
  | .player, (name, rating, deck, ()) => .player name rating ⟨deck⟩
  | .deck, (title, owner, ()) => .deck title ⟨owner⟩
  | .vertex, (tag, edges, ()) => .vertex tag (ids edges)
  | .ability, (name, archetype, ()) => .ability name archetype
  | .card, (name, cost, abilities, ()) => .card name cost (ids abilities)
  | .cardList, (abilities, cards, ()) => .cardList (ids abilities) (ids cards)
  | .lenient, (label, edges, ()) => .lenient label (ids edges)

@[simp] theorem ids_raws (xs : List RecordId) : ids (raws xs) = xs := by
  simp [ids, raws, Function.comp_def]

@[simp] theorem ofFields_toFields (r : Record) : ofFields r.kind r.toFields = r := by
  cases r <;> simp [toFields, ofFields, Item.kind]

@[simp] theorem kind_ofFields (k : Kind) (x : (layout k).Val) : (ofFields k x).kind = k := by
  cases k <;> rfl

end Record
end ObjectGraph.Catalog
