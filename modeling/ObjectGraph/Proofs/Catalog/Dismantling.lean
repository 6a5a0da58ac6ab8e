import ObjectGraph.Catalog.Dismantling
import ObjectGraph.Catalog.Fixtures
import ObjectGraph.Proofs.Graph.Search

/-! What is left of a mesh that is taken apart. Clearing a vertex cuts the ways through it, but its
targets are on the stack by then, so whatever was reached is still reached from the stack, or is
cleared (`reaches_prune_iff`). Nothing else is touched (`dismantle_clears_reached`). -/
namespace ObjectGraph

namespace Graph

variable {α : Type} {targets pruned : α → List α} {node : α}

/-- A way that leaves the node for the last time goes on from one of its targets. -/
theorem Reaches.prune (hrest : ∀ a, a ≠ node → pruned a = targets a) {r a : α}
    (h : Reaches targets r a) :
    Reaches pruned r a ∨ a = node ∨ ∃ b ∈ targets node, Reaches pruned b a := by
  induction h with
  | refl => exact .inl .refl
  | @tail b c _ hc ih =>
    by_cases hb : b = node
    · subst hb
      exact .inr (.inr ⟨c, hc, .refl⟩)
    · have hedge : Refers pruned b c := by rwa [Refers, hrest b hb]
      rcases ih with hr | hnode | ⟨d, hd, hr⟩
      · exact .inl (hr.tail hedge)
      · exact absurd hnode hb
      · exact .inr (.inr ⟨d, hd, hr.tail hedge⟩)

/-- With the targets of a node in its place, the same is reached without the ways through it. -/
theorem reaches_prune_iff (hnode : pruned node = []) (hrest : ∀ a, a ≠ node → pruned a = targets a)
    (stack : List α) (a : α) :
    (∃ r ∈ node :: stack, Reaches targets r a) ↔
      a = node ∨ ∃ r ∈ (targets node).reverse ++ stack, Reaches pruned r a := by
  have hedge : ∀ {b c}, Refers pruned b c → Refers targets b c := by
    intro b c hc
    by_cases hb : b = node
    · subst hb
      rw [Refers, hnode] at hc
      cases hc
    · rwa [Refers, hrest b hb] at hc
  have hmono : ∀ {r b}, Reaches pruned r b → Reaches targets r b := fun h =>
    Relation.ReflTransGen.mono (fun _ _ => hedge) _ _ h
  constructor
  · rintro ⟨r, hr, h⟩
    rcases h.prune hrest with h | ha | ⟨b, hb, h⟩
    · rcases List.mem_cons.1 hr with rfl | hr
      · -- Nothing but the node itself is reached from it any more.
        rcases Relation.ReflTransGen.cases_head h with ha | ⟨c, hc, -⟩
        · exact .inl ha.symm
        · rw [Refers, hnode] at hc
          cases hc
      · exact .inr ⟨r, List.mem_append_right _ hr, h⟩
    · exact .inl ha
    · exact .inr ⟨b, List.mem_append_left _ (List.mem_reverse.2 hb), h⟩
  · rintro (rfl | ⟨r, hr, h⟩)
    · exact ⟨a, List.mem_cons_self, .refl⟩
    · rcases List.mem_append.1 hr with hr | hr
      · exact ⟨node, List.mem_cons_self, .head (List.mem_reverse.1 hr) (hmono h)⟩
      · exact ⟨r, List.mem_cons_of_mem _ hr, hmono h⟩

end Graph

namespace Catalog

namespace Heap

def edges (h : Heap) (node : Nat) : List Nat := (h.cell node).content.edges

def Reached (h : Heap) (roots : List Nat) (a : Nat) : Prop :=
  ∃ r ∈ roots, Graph.Reaches h.edges r a

theorem cell_clear (h : Heap) (node a : Nat) :
    (h.clear node).cell a =
      if a = node then { h.cell a with content := (h.cell a).content.cleared } else h.cell a := by
  rw [cell, clear, Array.getD_eq_getD_getElem?, Array.getElem?_modify, cell,
    Array.getD_eq_getD_getElem?]
  by_cases ha : node = a
  · subst ha
    rw [if_pos rfl, if_pos rfl]
    rcases h.cells[node]? with _ | c
    · rfl
    · rfl
  · rw [if_neg ha, if_neg (Ne.symm ha)]

theorem borrow_clear (h : Heap) (node a : Nat) :
    ((h.clear node).cell a).borrow = (h.cell a).borrow := by
  rw [cell_clear]
  split <;> rfl

theorem edges_cleared (content : Content Nat) : content.cleared.edges = [] := by
  cases content <;> rfl

theorem cleared_cleared (content : Content Nat) : content.cleared.cleared = content.cleared := by
  cases content <;> rfl

/-- A turn keeps what is reached, but for the vertex that it clears. -/
theorem reached_cons_iff (h : Heap) (node : Nat) (stack : List Nat) (a : Nat) :
    h.Reached (node :: stack) a ↔
      a = node ∨ (h.clear node).Reached ((h.cell node).content.edges.reverse ++ stack) a := by
  apply Graph.reaches_prune_iff
  · rw [edges, cell_clear, if_pos rfl]
    exact edges_cleared _
  · intro b hb
    rw [edges, cell_clear, if_neg hb, edges]

end Heap

/-- A borrowed vertex ends it all, whenever the stack comes to it. -/
theorem dismantleFrom_borrowed (stack : List Nat) (h : Heap) {a : Nat} (ha : h.Reached stack a)
    (hb : (h.cell a).borrow ≠ .free) : dismantleFrom stack h = none := by
  fun_induction dismantleFrom stack h with
  | case1 h =>
    obtain ⟨r, hr, -⟩ := ha
    cases hr
  | case2 => rfl
  | case3 h node stack edges t htake ih =>
    obtain ⟨hfree, rfl, rfl⟩ := Heap.takeEdges?_eq_some.1 htake
    rcases (h.reached_cons_iff node stack a).1 ha with rfl | ha
    · exact absurd hfree hb
    · exact ih ha (by rwa [Heap.borrow_clear])

theorem dismantleFrom_clears (stack : List Nat) (h : Heap)
    (hfree : ∀ a, h.Reached stack a → (h.cell a).borrow = .free) :
    ∃ t, dismantleFrom stack h = some t ∧ ∀ a,
      (h.Reached stack a → t.cell a = { h.cell a with content := (h.cell a).content.cleared }) ∧
      (¬ h.Reached stack a → t.cell a = h.cell a) := by
  fun_induction dismantleFrom stack h with
  | case1 h => exact ⟨h, rfl, fun a => ⟨fun ⟨r, hr, _⟩ => (by cases hr), fun _ => rfl⟩⟩
  | case2 h node stack htake =>
    have hnode := hfree node ⟨node, List.mem_cons_self, .refl⟩
    have hsome := Heap.takeEdges?_eq_some.2 ⟨hnode, rfl, rfl⟩
    rw [htake] at hsome
    cases hsome
  | case3 h node stack edges t htake ih =>
    obtain ⟨-, rfl, rfl⟩ := Heap.takeEdges?_eq_some.1 htake
    have hreached := h.reached_cons_iff node stack
    obtain ⟨t, ht, hcells⟩ := ih fun a ha => by
      rw [Heap.borrow_clear]
      exact hfree a ((hreached a).2 (.inr ha))
    refine ⟨t, ht, fun a => ?_⟩
    obtain ⟨hin, hout⟩ := hcells a
    rw [Heap.cell_clear] at hin hout
    by_cases hr : (h.clear node).Reached ((h.cell node).content.edges.reverse ++ stack) a
    · refine ⟨fun _ => ?_, fun hn => absurd ((hreached a).2 (.inr hr)) hn⟩
      rw [hin hr]
      split
      · simp only [Heap.cleared_cleared]
      · rfl
    · refine ⟨fun ha => ?_, fun hn => ?_⟩
      · have hnode := ((hreached a).1 ha).resolve_right hr
        rw [hout hr, if_pos hnode]
      · rw [hout hr, if_neg fun hnode => hn ((hreached a).2 (.inl hnode))]

/-- A mesh is taken apart unless a vertex that is reached from the roots is borrowed. Then the
vertices that are reached have their tags and no edges, and all others are as they were. -/
theorem dismantle_clears_reached (roots : List Nat) (h : Heap) :
    ((∃ t, dismantle roots h = some t) ↔ ∀ a, h.Reached roots a → (h.cell a).borrow = .free) ∧
    ∀ t, dismantle roots h = some t →
      (∀ a tag edges, h.Reached roots a → (h.cell a).content = .vertex tag edges →
        t.cell a = { h.cell a with content := .vertex tag [] }) ∧
      ∀ a, ¬ h.Reached roots a → t.cell a = h.cell a := by
  have hreverse : ∀ a, h.Reached roots.reverse a ↔ h.Reached roots a := fun a => by
    simp only [Heap.Reached, List.mem_reverse]
  have hclears := dismantleFrom_clears roots.reverse h
  simp only [hreverse] at hclears
  have hfree : (∃ t, dismantle roots h = some t) →
      ∀ a, h.Reached roots a → (h.cell a).borrow = .free := by
    rintro ⟨t, ht⟩ a ha
    by_contra hb
    rw [dismantle, dismantleFrom_borrowed _ h ((hreverse a).2 ha) hb] at ht
    cases ht
  refine ⟨⟨hfree, fun hall => ?_⟩, fun t ht => ?_⟩
  · obtain ⟨t, ht, -⟩ := hclears hall
    exact ⟨t, ht⟩
  · obtain ⟨t', ht', hcells⟩ := hclears (hfree ⟨t, ht⟩)
    obtain rfl : t = t' := Option.some.inj (ht.symm.trans ht')
    refine ⟨fun a tag edges ha hvertex => ?_, fun a => (hcells a).2⟩
    rw [(hcells a).1 ha, hvertex]
    rfl

/-- Vertices on a cycle, with a self-loop and parallel edges, and a last one that refers to them and
itself. -/
def tangledMesh : Heap :=
  .ofContents (Fixtures.mesh 4 [(0, 1), (0, 1), (1, 1), (1, 2), (2, 0), (3, 2), (3, 3)])

/-- From a vertex of the cycle, named twice, the whole cycle is cleared, and the last vertex is
not. -/
theorem dismantle_tangledMesh : ∃ t, dismantle [1, 1] tangledMesh = some t ∧
    t.cell 0 = { content := .vertex 0 [] } ∧ t.cell 1 = { content := .vertex 1 [] } ∧
    t.cell 2 = { content := .vertex 2 [] } ∧ t.cell 3 = { content := .vertex 3 [2, 3] } := by
  obtain ⟨hsome, hcells⟩ := dismantle_clears_reached [1, 1] tangledMesh
  have hin : ∀ a, tangledMesh.Reached [1, 1] a → a < 3 := by
    rintro a ⟨r, hr, h⟩
    induction h with
    | refl =>
      rcases List.mem_pair.1 hr with rfl | rfl <;> decide
    | tail _ hb ih =>
      have hclosed : ∀ a < 3, ∀ b ∈ tangledMesh.edges a, b < 3 := by decide
      exact hclosed _ ih _ hb
  have hborrow : ∀ a < 3, (tangledMesh.cell a).borrow = .free := by decide
  obtain ⟨t, ht⟩ := hsome.2 fun a ha => hborrow a (hin a ha)
  obtain ⟨hcleared, hkept⟩ := hcells t ht
  have h1 : tangledMesh.Reached [1, 1] 1 := ⟨1, by decide, .refl⟩
  have h2 : tangledMesh.Reached [1, 1] 2 := ⟨1, by decide, .single (by decide : 2 ∈ [1, 2])⟩
  have h0 : tangledMesh.Reached [1, 1] 0 := by
    obtain ⟨r, hr, h⟩ := h2
    exact ⟨r, hr, h.tail (by decide : 0 ∈ [0])⟩
  refine ⟨t, ht, hcleared 0 0 [1, 1] h0 rfl, hcleared 1 1 [1, 2] h1 rfl, hcleared 2 2 [0] h2 rfl, ?_⟩
  exact hkept 3 fun h => absurd (hin 3 h) (by decide)

end Catalog
end ObjectGraph
