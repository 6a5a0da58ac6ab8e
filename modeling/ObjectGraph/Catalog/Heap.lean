import ObjectGraph.Catalog.Item
import ObjectGraph.Flatten.Session

/-! A finite heap of catalog nodes that a caller holds, with the caller's borrows. -/
namespace ObjectGraph.Catalog

structure Heap where
  cells : Array (Flatten.Cell (Content Nat))

namespace Heap

def ofContents (contents : List (Content Nat)) : Heap :=
  ⟨(contents.map fun content => { content }).toArray⟩

/-- The node at an address. Beyond the last one there are peers without a name. -/
def cell (h : Heap) (node : Nat) : Flatten.Cell (Content Nat) :=
  h.cells.getD node { content := .empty .peer }

def setBorrow (h : Heap) (node : Nat) (borrow : Borrow) : Heap :=
  ⟨h.cells.modify node fun c => { c with borrow }⟩

def share? (h : Heap) (node : Nat) : Option Heap :=
  (h.cell node).borrow.share?.map (h.setBorrow node)

def own? (h : Heap) (node : Nat) : Option Heap :=
  (h.cell node).borrow.own?.map (h.setBorrow node)

def releaseAll (h : Heap) (node : Nat) : Heap := h.setBorrow node .free

def setLabel (h : Heap) (node : Nat) (label : String) : Heap :=
  ⟨h.cells.modify node fun c =>
    match c.content with
    | .peer _ other => { c with content := .peer label other }
    | _ => c⟩

end Heap
end ObjectGraph.Catalog
