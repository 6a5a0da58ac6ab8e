import ObjectGraph.Catalog.Item

/-! Graphs made to measure, as lists of nodes whose addresses are their positions. -/
namespace ObjectGraph.Catalog.Fixtures

abbrev Graph := List (Content Nat)

def sampleCardList : Graph :=
  [.cardList [1, 2] [3], .ability "Heal" "Walker", .ability "Rage" "Heavy", .card "Poizom" 3 [1]]

def lone (label : String) : Graph := [.peer label none]

def looped (label : String) : Graph := [.peer label (some 0)]

/-- Peers, each of which refers to the one after it, the first at `address`. -/
def chainFrom : (address : Nat) → (labels : List String) → Graph
  | _, [] => []
  | _, [label] => [.peer label none]
  | address, label :: labels => .peer label (some (address + 1)) :: chainFrom (address + 1) labels

def chain (labels : List String) : Graph := chainFrom 0 labels

def withDeck (name : String) (rating : Int32) (title : String) : Graph :=
  [.player name rating (some 1), .deck title (some 0)]

def addEdge (target : Nat) : Content Nat → Content Nat
  | .vertex tag edges => .vertex tag (edges ++ [target])
  | content => content

/-- Vertices with their positions as tags, and edges between them. Edges from or to anything else
are passed over. -/
def mesh (count : Nat) (edges : List (Nat × Nat)) : Graph :=
  edges.foldl (fun g (source, target) =>
      if source < count ∧ target < count then g.modify source (addEdge target) else g)
    ((List.range count).map fun i => .vertex (UInt32.ofNat (min i (0xffffffff))) [])

/-- The edges of a fan: from the first vertex to each other one and back, and from vertex `i` to
vertex `i / 2`. -/
def fanEdges (n : Nat) : List (Nat × Nat) :=
  (List.range' 1 (n - 1)).flatMap fun i => [(0, i), (i, 0), (i, i / 2)]

/-- A cyclic graph of any size in which no vertex is more than one edge from the first. -/
def fanMesh (n : Nat) : Graph := mesh n (fanEdges n)

end ObjectGraph.Catalog.Fixtures
