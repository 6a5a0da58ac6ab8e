import ObjectGraph.Catalog.Rebuilding
import ObjectGraph.Proofs.Flatten.Fallbacks
import ObjectGraph.Proofs.Rebuild.Fallbacks

/-! Neither session ever comes to what it provides for a failure of its own bookkeeping: whatever
stood in those places, every pass and every rebuilding would go the same way
(`fallbacks_unused`). -/
namespace ObjectGraph

open Flatten.Session (Visit visit visitOr)
open Rebuild.Session (Strays resolve resolveOr)

section Unused

variable {α ν ρ : Type} [DecidableEq α] (flattening : Flatten.Schema α ν ρ)
  {κ ν' ρ' : Type} [DecidableEq κ] [NodeType κ] (rebuilding : Rebuild.Schema κ ν' ρ')
  (codec : Codec κ ρ')

/-- Under any limits, and whatever the hooks do: in a pass a new number stands for a position, and
every position that is encoded has a number. In a session that rebuilds a graph there is a slot for
each record, and the table takes every node that is made. There the node is found by whatever leads
back to it, so no record gets a second one. Whatever was to become of a node that is refused, or is
being filled when it is new, no request would be answered otherwise; and a root that is resolved is
resolved to a node. -/
theorem fallbacks_unused :
    (∀ (stray : Visit α ρ) (heap : α → Flatten.Cell ν) (levels : Nat),
      visitOr stray flattening heap levels = visit flattening heap levels) ∧
    (∀ (limits : Limits) (turns : List (Flatten.Turn α ν)) (index : Nat),
      index < (Flatten.Session.after (ρ := ρ) flattening { limits } turns).objectCount →
        ∃ id, RecordId.ofIndex? index = some id ∧ id ≠ .nil) ∧
    (∀ (container : Container) (limits : Limits) (s : Rebuild.Session κ ν'),
      Rebuild.Session.start container limits = .ok s → ∀ calls : List (Rebuild.Call κ ν'),
        let t := s.after rebuilding codec calls
        t.table.capacity = t.recordCount ∧
        (∀ id inserted, .constructed id inserted ∈ t.trace → inserted = true ∧
          ∃ kind node, t.table.entry? id = some (kind, node) ∧
            ∀ answer, .resolved id answer ∈ t.trace → answer = some node) ∧
        (t.trace.filterMap Rebuild.Event.constructed?).Nodup ∧
        ∀ (strays : Strays κ ν') (c : Rebuild.Call κ ν'),
          t.perform rebuilding (resolveOr strays rebuilding codec t.limits.maxDepth.toNat) c =
            t.request rebuilding codec c) ∧
    ∀ (levels : Nat) (kind : κ) (start : ν') (s : Rebuild.Session κ ν'),
      (resolve rebuilding codec levels kind .root start s).1 ≠ .ok none := by
  refine ⟨fun stray heap levels => Flatten.Session.visitOr_eq flattening heap stray levels,
    fun limits turns index h => Flatten.Session.exists_ofIndex?_of_lt
      (Flatten.Session.ordered_after flattening limits turns) h,
    fun container limits s hs calls => ?_,
    Rebuild.Session.resolve_root_ne_none rebuilding codec⟩
  obtain ⟨hbalanced, hplaced⟩ := Rebuild.Session.placed_after rebuilding codec hs calls
  have ⟨ahead, hbooked, _⟩ := hbalanced
  refine ⟨?_, fun id inserted => hplaced.of_constructed hbooked, hbooked.nodup.of_append_right,
    fun strays c => Rebuild.Session.perform_resolveOr rebuilding codec strays hbalanced c⟩
  rw [hbooked.capacity, Rebuild.Session.recordCount, hbooked.container_eq]

end Unused

section Catalog

open Catalog

def selfLoop : Container where
  records := [[0xa2, 0x65, 0x65, 0x64, 0x67, 0x65, 0x73, 0x82, 0x00, 0x00, 0x65, 0x6c, 0x61, 0x62,
    0x65, 0x6c, 0x60]]

/-- Two peers are flattened, and a node is rebuilt whose record leads back to it. -/
theorem fallbacks_unused_selfLoop :
    (∃ id, RecordId.ofIndex? 1 = some id ∧ id ≠ .nil) ∧
    ∃ s : Rebuilding, Rebuild.Session.start selfLoop {} = .ok s ∧
      let t := s.after rebuildSchema (codec .cbor) [.root .lenient (.empty .lenient)]
      t.failed = false ∧ t.trace = [.resolved .root (some 0), .left .root, .resolved .root (some 0),
        .resolved .root (some 0), .entered .root 0, .constructed .root true, .decoded .root] ∧
      ∃ kind node, t.table.entry? .root = some (kind, node) ∧ some 0 = some node := by
  have hunused := fallbacks_unused (α := Nat) flattenSchema rebuildSchema (codec .cbor)
  obtain ⟨-, hnumbered, hrebuilt, -⟩ := hunused
  have hstart : Rebuild.Session.start (κ := Kind) (ν := Built) selfLoop {} = .ok _ := rfl
  obtain ⟨-, hplaced, -⟩ := hrebuilt _ _ _ hstart [.root .lenient (.empty .lenient)]
  refine ⟨hnumbered {} [⟨Flatten.Session.pairChain.cell, .one 0⟩] 1 (by decide), _, hstart, rfl,
    rfl, ?_⟩
  obtain ⟨-, kind, node, hentry, hfound⟩ := hplaced .root true (by decide)
  exact ⟨kind, node, hentry, hfound (some 0) (by decide)⟩

end Catalog

end ObjectGraph
