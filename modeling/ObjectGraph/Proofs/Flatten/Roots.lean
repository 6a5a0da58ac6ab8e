import ObjectGraph.Catalog.Codec
import ObjectGraph.Catalog.Fixtures
import ObjectGraph.Catalog.Flattening
import ObjectGraph.Catalog.Heap
import ObjectGraph.Proofs.Flatten.Entry
import ObjectGraph.Proofs.Flatten.Growth

/-! The requests of a caller, one after another, with the nodes changing in between. The first node
that is asked for is the root, and the session stays as its pass leaves it (`after_eq_pass`). If the
pass fails, the hole it leaves keeps the session from a container; there is no hole if the root was
refused before it got a number (`objectCount_serialize_eq_zero`). -/
namespace ObjectGraph

namespace Flatten

inductive Request (α : Type) where
  | one (node : α)
  | optional (node : Option α)
  | all (nodes : List α)

namespace Request

variable {α : Type}

abbrev Answer : Request α → Type
  | .one _ | .optional _ => RecordId
  | .all _ => List RecordId

def nodes : Request α → List α
  | .one node => [node]
  | .optional node => node.toList
  | .all nodes => nodes

def absent : (r : Request α) → r.Answer
  | .one _ | .optional _ => RecordId.nil
  | .all _ => []

def granted (id : RecordId) : (r : Request α) → r.Answer
  | .one _ | .optional _ => id
  | .all _ => [id]

end Request

structure Turn (α ν : Type) where
  heap : α → Cell ν
  request : Request α

variable {α ν ρ κ : Type}

def Turn.root? (t : Turn α ν) : Option ((α → Cell ν) × α) :=
  t.request.nodes.head?.map fun root => (t.heap, root)

def firstRoot? (turns : List (Turn α ν)) : Option ((α → Cell ν) × α) :=
  turns.findSome? Turn.root?

namespace Session

variable [DecidableEq α] (schema : Schema α ν ρ) (heap : α → Cell ν) {s t : Session α ρ}

def answer (s : Session α ρ) : (r : Request α) → Except Graph.Error r.Answer × Session α ρ
  | .one node => s.serialize schema heap node
  | .optional node => s.serializeOption schema heap node
  | .all nodes => s.serializeAll schema heap nodes []

/-- The session after some turns, whatever the answers. -/
def after (s : Session α ρ) (turns : List (Turn α ν)) : Session α ρ :=
  turns.foldl (fun s t => (s.answer schema t.heap t.request).2) s

def pass (limits : Limits) : Option ((α → Cell ν) × α) → Session α ρ
  | none => { limits }
  | some (heap, root) => (serialize schema heap root { limits }).2

theorem serialize_of_taken (hs : s.rootTaken = true) (root : α) :
    s.serialize schema heap root = (.error .rootAlreadySerialized, s) := by
  rw [serialize, if_pos hs]

theorem serializeAll_of_taken (hs : s.rootTaken = true) (node : α) (nodes : List α)
    (done : List RecordId) :
    s.serializeAll schema heap (node :: nodes) done = (.error .rootAlreadySerialized, s) := by
  rw [serializeAll, serialize_of_taken schema heap hs]

theorem keeps_serialize (hs : s.rootTaken = false) (root : α) :
    Keeps { s with rootTaken := true } (s.serialize schema heap root).2 := by
  rw [serialize, if_neg (by simp [hs])]
  exact keeps_visit schema heap _ root _

/-- A request for no node leaves the session as it is. -/
theorem answer_absent {r : Request α} (hr : r.nodes = []) :
    s.answer schema heap r = (.ok r.absent, s) := by
  cases r with
  | one => cases hr
  | optional node =>
    cases node with
    | none => rfl
    | some => cases hr
  | all nodes =>
    obtain rfl : nodes = [] := hr
    rfl

/-- A request for a node is refused once the session has had its root. -/
theorem answer_taken (hs : s.rootTaken = true) {r : Request α} (hr : r.nodes ≠ []) :
    s.answer schema heap r = (.error .rootAlreadySerialized, s) := by
  have hroot := serialize_of_taken schema heap hs
  cases r with
  | one node => exact hroot node
  | optional node =>
    cases node with
    | none => exact absurd rfl hr
    | some node => exact hroot node
  | all nodes =>
    cases nodes with
    | nil => exact absurd rfl hr
    | cons node nodes => exact serializeAll_of_taken schema heap hs node nodes []

/-- A request for nodes makes the pass of the first one; a second one is a second root. -/
theorem answer_first (hs : s.rootTaken = false) {r : Request α} {root : α} {rest : List α}
    (hr : r.nodes = root :: rest) :
    s.answer schema heap r = match s.serialize schema heap root with
      | (.error e, t) => (.error e, t)
      | (.ok id, t) =>
          (if rest = [] then .ok (r.granted id) else .error .rootAlreadySerialized, t) := by
  have htaken := (keeps_serialize schema heap hs root).rootTaken
  cases r with
  | one node =>
    cases hr
    rcases hv : s.serialize schema heap root with ⟨e | id, t⟩ <;> simp [answer, hv, Request.granted]
  | optional node =>
    cases node with
    | none => cases hr
    | some node =>
      cases hr
      rcases hv : s.serialize schema heap root with ⟨e | id, t⟩ <;>
        simp [answer, serializeOption, hv, Request.granted]
  | all nodes =>
    obtain rfl : nodes = root :: rest := hr
    show s.serializeAll schema heap (root :: rest) [] = _
    rw [serializeAll]
    rcases hv : s.serialize schema heap root with ⟨e | id, t⟩
    · rfl
    · rw [hv] at htaken
      cases rest with
      | nil => rfl
      | cons node rest => exact serializeAll_of_taken schema heap htaken node rest [id]

theorem rootTaken_pass (limits : Limits) (root? : Option ((α → Cell ν) × α)) :
    (pass schema limits root?).rootTaken = root?.isSome := by
  rcases root? with _ | ⟨heap, root⟩
  · rfl
  · exact (keeps_serialize schema heap rfl root).rootTaken

/-- A turn makes the pass, if it asks for a node and none was made. -/
theorem answer_pass (limits : Limits) (root? : Option ((α → Cell ν) × α)) (t : Turn α ν) :
    ((pass schema limits root?).answer schema t.heap t.request).2 =
      pass schema limits (root?.or t.root?) := by
  have htaken := rootTaken_pass schema limits root?
  unfold Turn.root?
  cases hr : t.request.nodes with
  | nil =>
    rw [answer_absent schema t.heap hr]
    simp
  | cons root rest =>
    cases root? with
    | some first => rw [answer_taken schema t.heap htaken (hr ▸ List.cons_ne_nil root rest)]; rfl
    | none =>
      rw [answer_first schema t.heap htaken hr]
      show _ = (serialize schema t.heap root { limits }).2
      unfold pass
      rcases serialize schema t.heap root { limits } with ⟨e | id, u⟩ <;> rfl

/-- The first node asked for makes the only pass. -/
theorem after_eq_pass (limits : Limits) (turns : List (Turn α ν)) :
    after schema { limits } turns = pass schema limits (firstRoot? turns) := by
  suffices h : ∀ root? : Option ((α → Cell ν) × α), after schema (pass schema limits root?) turns =
      pass schema limits (root?.or (firstRoot? turns)) from h none
  induction turns with
  | nil =>
    intro root?
    rw [firstRoot?, List.findSome?_nil, Option.or_none]
    rfl
  | cons t turns ih =>
    intro root?
    show after schema ((pass schema limits root?).answer schema t.heap t.request).2 turns = _
    rw [answer_pass, ih, Option.or_assoc]
    unfold firstRoot?
    rw [List.findSome?_cons]
    cases t.root? <;> rfl

theorem depth_pass (limits : Limits) (root? : Option ((α → Cell ν) × α)) :
    (pass schema limits root?).depth = 0 := by
  rcases root? with _ | ⟨heap, root⟩
  · rfl
  · exact (keeps_serialize schema heap rfl root).depth

/-- A session makes one pass, from the first node that is asked for, and its container is the one of
the pass. Between requests no hook is under way. A request for no node is answered with the absent
number, one for a second root is refused, and neither changes anything. -/
theorem one_root_per_session (codec : Codec κ ρ) (names : Bool) (limits : Limits)
    (turns : List (Turn α ν)) (heap : α → Cell ν) (r : Request α) :
    let s := after schema { limits } turns
    s = pass schema limits (firstRoot? turns) ∧
    s.finish codec names = (pass schema limits (firstRoot? turns)).finish codec names ∧
    s.depth = 0 ∧ (∀ heap node, ask schema heap node s = s.serialize schema heap node) ∧
    s.answer schema heap r = match r.nodes, firstRoot? turns with
      | [], _ => (.ok r.absent, s)
      | _ :: _, some _ => (.error .rootAlreadySerialized, s)
      | root :: rest, none => match serialize schema heap root { limits } with
        | (.error e, t) => (.error e, t)
        | (.ok id, t) =>
            (if rest = [] then .ok (r.granted id) else .error .rootAlreadySerialized, t) := by
  intro s
  have hpass : s = pass schema limits (firstRoot? turns) := after_eq_pass schema limits turns
  have hdepth : s.depth = 0 := hpass ▸ depth_pass schema limits (firstRoot? turns)
  have htaken : s.rootTaken = (firstRoot? turns).isSome :=
    hpass ▸ rootTaken_pass schema limits (firstRoot? turns)
  refine ⟨hpass, by rw [hpass], hdepth, fun heap node => ask_of_idle schema heap hdepth node, ?_⟩
  cases hr : r.nodes with
  | nil => exact answer_absent schema heap hr
  | cons root rest =>
    cases hfirst : firstRoot? turns with
    | some first =>
      rw [hfirst] at htaken
      exact answer_taken schema heap htaken (hr ▸ List.cons_ne_nil root rest)
    | none =>
      rw [hfirst] at hpass
      rw [hpass]
      exact answer_first schema heap rfl hr

/-- The root of a pass gets no number exactly if the limits allow no depth or no record. -/
theorem objectCount_serialize_eq_zero (limits : Limits) (root : α) :
    (serialize schema heap root { limits }).2.objectCount = 0 ↔
      limits.maxDepth = 0 ∨ limits.maxRecords = 0 := by
  simp only [serialize, Bool.false_eq_true, if_false]
  cases hlevels : limits.maxDepth.toNat with
  | zero =>
    have hdepth : limits.maxDepth = 0 := UInt64.toNat_inj.1 hlevels
    exact iff_of_true rfl (.inl hdepth)
  | succ levels =>
    have hdepth : limits.maxDepth ≠ 0 := by
      intro h
      rw [h] at hlevels
      cases hlevels
    show (welcome schema heap (visit schema heap levels) root
      { limits, rootTaken := true }).2.objectCount = 0 ↔ _
    have hregister := Numbering.register_first root limits.maxRecords
    by_cases hrecords : limits.maxRecords = 0
    · rw [if_pos hrecords] at hregister
      unfold welcome
      dsimp only
      rw [hregister]
      exact iff_of_true rfl (.inr hrecords)
    · rw [if_neg hrecords] at hregister
      have hkeeps := keeps_welcome schema heap (keeps_visit schema heap levels)
        (s := { limits, rootTaken := true }) hregister
      have hroot := hkeeps.lookup (Numbering.lookup_of_register hregister)
      have hcount := Numbering.size_pos_of_lookup hroot
      exact iff_of_false hcount.ne' (by simp [hdepth, hrecords])

/-- After a refused root, whatever is asked for then, the record of the root is missed. But if the
limits allow no depth or no record, no record is expected, and the empty container comes out. -/
theorem finish_of_refused_root {limits : Limits} {turns : List (Turn α ν)} {root : α}
    {e : Graph.Error} {t : Session α ρ} (hfirst : firstRoot? turns = some (heap, root))
    (hrefused : serialize schema heap root { limits } = (.error e, t)) (codec : Codec κ ρ)
    (names : Bool) :
    (after schema { limits } turns).finish codec names =
      (if limits.maxDepth = 0 ∨ limits.maxRecords = 0 then
        .ok { records := [], typeNames := if names then some [] else none }
      else .error (.incompleteGraph .root), 0) := by
  have hafter : after schema { limits } turns = t := by
    rw [after_eq_pass, hfirst, pass, hrefused]
  have hcount := objectCount_serialize_eq_zero schema heap limits root
  rw [hrefused] at hcount
  rw [hafter]
  split
  · next hnone => exact finish_of_unnumbered (hcount.2 hnone)
  · next hsome =>
    have hnumbered : t.objectCount ≠ 0 := fun h => hsome (hcount.1 h)
    exact finish_of_hole hnumbered ((slot_of_refused schema heap hrefused).resolve_left hnumbered)

section Catalog

open ObjectGraph.Catalog

def pairChain : Heap := .ofContents (Fixtures.chain ["a", "b"])

/-- A chain that is too deep by one node leaves its root without a record. A chain that may have no
node leaves nothing behind. -/
theorem finish_of_too_deep :
    (after flattenSchema { limits := { maxDepth := 1 } }
      [⟨pairChain.cell, .optional none⟩, ⟨pairChain.cell, .one 0⟩, ⟨pairChain.cell, .one 1⟩]).finish
        (codec .cbor) true = (.error (.incompleteGraph .root), 0) ∧
    (after flattenSchema { limits := { maxDepth := 0 } } [⟨pairChain.cell, .one 0⟩]).finish
        (codec .cbor) true = (.ok { records := [], typeNames := some [] }, 0) :=
  ⟨finish_of_refused_root flattenSchema pairChain.cell rfl
      (rfl : serialize _ _ 0 _ = (.error (.depthLimit 1), _)) (codec .cbor) true,
    finish_of_refused_root flattenSchema pairChain.cell rfl
      (rfl : serialize _ _ 0 _ = (.error (.depthLimit 0), _)) (codec .cbor) true⟩

/-- Not every refused root keeps its session from a container. -/
theorem not_every_refused_root_withholds :
    ¬ ∀ (h : Heap) (limits : Limits) (root : Nat) (encoding : Encoding) (names : Bool) e t,
      serialize flattenSchema h.cell root { limits } = (.error e, t) →
        ∃ e', t.intoContainer (codec encoding) names = .error e' := by
  intro h
  obtain ⟨e, he⟩ := h (.ofContents (Fixtures.lone "a")) { maxDepth := 0 } 0 .cbor false
    (.depthLimit 0) _ rfl
  cases he

end Catalog
end Session
end Flatten
end ObjectGraph
