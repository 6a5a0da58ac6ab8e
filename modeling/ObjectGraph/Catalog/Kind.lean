/-! The node types of the catalog, by name. -/
namespace ObjectGraph.Catalog

inductive Kind where
  /-- A label and one optional reference to a peer. -/
  | peer
  | player
  | deck
  /-- A tag and an ordered list of edges to vertices. -/
  | vertex
  | ability
  | card
  | cardList
  /-- A label and edges, of which those that cannot be followed are left out. -/
  | lenient
  deriving DecidableEq, Repr

/-- The full name of the node type, as containers carry it. -/
def Kind.typeName : Kind → String
  | .peer => "graphwire_dry_tests::peers::Peer"
  | .player => "graphwire_dry_tests::players::Player"
  | .deck => "graphwire_dry_tests::players::Deck"
  | .vertex => "graphwire_dry_tests::mesh::Vertex"
  | .ability => "graphwire_dry_tests::cards::Ability"
  | .card => "graphwire_dry_tests::cards::Card"
  | .cardList => "graphwire_dry_tests::cards::CardList"
  | .lenient => "oracle_driver::graph::Lenient"

def Kind.name : Kind → String
  | .peer => "Peer"
  | .player => "Player"
  | .deck => "Deck"
  | .vertex => "Vertex"
  | .ability => "Ability"
  | .card => "Card"
  | .cardList => "CardList"
  | .lenient => "Lenient"

def Kind.recordName (k : Kind) : String := k.name ++ "Record"

def Kind.all : List Kind := [.peer, .player, .deck, .vertex, .ability, .card, .cardList, .lenient]

theorem Kind.mem_all (k : Kind) : k ∈ Kind.all := by cases k <;> decide

def Kind.ofName? (name : String) : Option Kind := Kind.all.find? fun k => k.name = name

end ObjectGraph.Catalog
