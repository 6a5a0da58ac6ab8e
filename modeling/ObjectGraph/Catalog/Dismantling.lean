import ObjectGraph.Catalog.Heap

/-! Taking a mesh of vertices apart, so that its cycles do not keep it in memory. The targets of a
vertex wait on a stack while the vertex itself no longer refers to them. -/
namespace ObjectGraph.Catalog

def Content.edges : Content α → List α
  | .vertex _ edges => edges
  | _ => []

def Content.cleared : Content α → Content α
  | .vertex tag _ => .vertex tag []
  | content => content

namespace Heap

def edgeCount (h : Heap) : Nat := (h.cells.toList.flatMap fun c => c.content.edges).length

def clear (h : Heap) (node : Nat) : Heap :=
  ⟨h.cells.modify node fun c => { c with content := c.content.cleared }⟩

/-- Moves the edges out of a vertex, which must not be borrowed. -/
def takeEdges? (h : Heap) (node : Nat) : Option (List Nat × Heap) :=
  (h.cell node).borrow.own?.map fun _ => ((h.cell node).content.edges, h.clear node)

theorem length_edges_modify (cells : List (Flatten.Cell (Content Nat))) (node : Nat) :
    ((cells[node]?).map fun c => c.content.edges.length).getD 0 +
        ((cells.modify node fun c => { c with content := c.content.cleared }).flatMap fun c =>
          c.content.edges).length =
      (cells.flatMap fun c => c.content.edges).length := by
  induction cells generalizing node with
  | nil => simp
  | cons c cells ih =>
    cases node with
    | zero =>
      have hcleared : c.content.cleared.edges = [] := by cases c.content <;> rfl
      simp [hcleared]
    | succ node =>
      have hrest := ih node
      simp only [List.getElem?_cons_succ, List.modify_succ_cons, List.flatMap_cons,
        List.length_append]
      omega

/-- Edges that are taken are no longer there. -/
theorem edgeCount_clear (h : Heap) (node : Nat) :
    (h.cell node).content.edges.length + (h.clear node).edgeCount = h.edgeCount := by
  have hlength := length_edges_modify h.cells.toList node
  rw [Array.getElem?_toList] at hlength
  rw [edgeCount, clear, Array.toList_modify, edgeCount, ← hlength, cell,
    Array.getD_eq_getD_getElem?]
  rcases h.cells[node]? with _ | c
  · rfl
  · rfl

theorem takeEdges?_eq_some {h t : Heap} {node : Nat} {edges : List Nat} :
    h.takeEdges? node = some (edges, t) ↔
      (h.cell node).borrow = .free ∧ edges = (h.cell node).content.edges ∧ t = h.clear node := by
  rw [takeEdges?, Option.map_eq_some_iff]
  simp only [Borrow.own?_eq_some, Prod.mk.injEq]
  constructor
  · rintro ⟨_, ⟨hfree, -⟩, rfl, rfl⟩
    exact ⟨hfree, rfl, rfl⟩
  · rintro ⟨hfree, rfl, rfl⟩
    exact ⟨.exclusive, ⟨hfree, rfl⟩, rfl, rfl⟩

end Heap

/-- Clears the vertices on a stack, each of which puts its targets on top, the last one first. It
stops at a vertex that is borrowed. -/
def dismantleFrom (stack : List Nat) (h : Heap) : Option Heap :=
  match stack with
  | [] => some h
  | node :: stack =>
      match _ : h.takeEdges? node with
      | none => none
      | some (edges, t) => dismantleFrom (edges.reverse ++ stack) t
termination_by stack.length + h.edgeCount
decreasing_by
  -- A turn takes one node off the stack, and what it puts there are edges of the heap no longer.
  rename_i htake
  obtain ⟨-, rfl, rfl⟩ := Heap.takeEdges?_eq_some.1 htake
  have hcount := h.edgeCount_clear node
  simp only [List.length_append, List.length_reverse, List.length_cons]
  omega

def dismantle (roots : List Nat) (h : Heap) : Option Heap := dismantleFrom roots.reverse h

end ObjectGraph.Catalog
