import ObjectGraph.Catalog.Rebuilding

/-! Nodes of a graph in a fixed order: roots as they are added, and breadth first behind each root
the nodes it leads to. -/
namespace ObjectGraph.Catalog

structure Listing where
  order : Array Nat := #[]

namespace Listing

def position? (l : Listing) (node : Nat) : Option Nat := l.order.idxOf? node

def insert (l : Listing) (node : Nat) : Listing :=
  if l.order.contains node then l else ⟨l.order.push node⟩

/-- Lists the targets of the nodes from a position on. The first argument bounds the nodes
listed. -/
def expand (targets : Nat → List Nat) : (fuel : Nat) → (next : Nat) → Listing → Listing
  | 0, _, l => l
  | fuel+1, next, l =>
      match l.order[next]? with
      | none => l
      | some node => expand targets fuel (next + 1) ((targets node).foldl insert l)

def addRoot (targets : Nat → List Nat) (size : Nat) (l : Listing) (root : Nat) : Listing :=
  expand targets size l.order.size (l.insert root)

def addReturned (s : Rebuilding) (l : Listing) (roots : List Nat) : Listing :=
  roots.foldl (addRoot (fun node => (s.built node).item.targets) s.nodes.size) l

end Listing
end ObjectGraph.Catalog
