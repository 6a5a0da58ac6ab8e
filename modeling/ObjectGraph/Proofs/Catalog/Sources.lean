import ObjectGraph.Catalog.Flattening
import ObjectGraph.Proofs.Catalog.References
import ObjectGraph.Proofs.Cbor.Encode
import ObjectGraph.Proofs.Flatten.Sources

/-! What the records of catalog nodes refer to. Whatever the hook of a node is answered, its record
links to nodes that the node demands, by their numbers (`Content.links_of_yields`). -/
namespace ObjectGraph

namespace Flatten.Hook

variable {α ρ : Type} {Number : α → RecordId → Prop} {record : ρ}

theorem yields_serializeOption {node : Option α} {next : RecordId → Hook α ρ}
    (h : (serializeOption node (orFail next)).Yields Number record) :
    ∃ id, (id = .nil ∨ ∃ a, node = some a ∧ Number a id) ∧ (next id).Yields Number record := by
  cases node with
  | none => exact ⟨.nil, .inl rfl, h⟩
  | some a =>
    cases h with
    | numbered ha h => exact ⟨_, .inr ⟨a, rfl, ha⟩, h⟩
    | refused e h => cases h

theorem yields_serializeAll {nodes : List α} {ids : List RecordId}
    {next : List RecordId → Hook α ρ}
    (h : (serializeAll nodes ids (orFail next)).Yields Number record) :
    ∃ new, List.Forall₂ Number nodes new ∧ (next (ids.reverse ++ new)).Yields Number record := by
  induction nodes generalizing ids with
  | nil => exact ⟨[], .nil, by rwa [List.append_nil]⟩
  | cons node nodes ih =>
    rw [serializeAll] at h
    cases h with
    | refused e h => cases h
    | @numbered _ id _ _ ha h =>
      obtain ⟨new, hnew, h⟩ := ih h
      exact ⟨id :: new, .cons ha hnew, by simpa using h⟩

end Flatten.Hook

namespace Catalog

open Flatten (Hook)

section Flattening

variable {α : Type} {Number : α → RecordId → Prop}

theorem yields_lenientIds {edges : List α} {ids : List RecordId} {label : String}
    {record : Record}
    (h : (lenientIds edges ids fun ids => .done (.lenient label ids)).Yields Number record) :
    ∃ new, record = .lenient label (ids.reverse ++ new) ∧
      ∀ id ∈ new, id = .nil ∨ ∃ a ∈ edges, Number a id := by
  induction edges generalizing ids with
  | nil =>
    cases h
    exact ⟨[], by rw [List.append_nil], nofun⟩
  | cons node edges ih =>
    rw [lenientIds] at h
    have step {id : RecordId} (hid : id = .nil ∨ Number node id)
        (h : (lenientIds edges (id :: ids) fun ids => .done (.lenient label ids)).Yields Number
          record) : ∃ new, record = .lenient label (ids.reverse ++ new) ∧
            ∀ id ∈ new, id = .nil ∨ ∃ a ∈ node :: edges, Number a id := by
      obtain ⟨new, rfl, hnew⟩ := ih h
      refine ⟨id :: new, by simp, List.forall_mem_cons.2 ⟨?_, fun id hm => ?_⟩⟩
      · exact hid.imp_right fun ha => ⟨node, List.mem_cons_self, ha⟩
      · exact (hnew id hm).imp_right fun ⟨a, ha, hn⟩ => ⟨a, List.mem_cons_of_mem _ ha, hn⟩
    cases h with
    | numbered ha h => exact step (.inr ha) h
    | refused e h => exact step (.inl rfl) h

theorem mem_optional {kind : Kind} {id : RecordId} {link : RecordId × Kind}
    (h : link ∈ Record.optional kind id) : id ≠ .nil ∧ link = (id, kind) := by
  by_cases hid : id = .nil
  · rw [hid] at h
    cases h
  · rw [Record.optional_of_ne_nil hid] at h
    exact ⟨hid, List.mem_singleton.1 h⟩

/-- A field with one reference, as it is in the record. -/
theorem exists_of_mem_optional {node : Option α} {kind : Kind} {id : RecordId}
    (hid : id = .nil ∨ ∃ a, node = some a ∧ Number a id) {link : RecordId × Kind}
    (h : link ∈ Record.optional kind id) :
    ∃ a, (a, link.2) ∈ node.toList.map (·, kind) ∧ Number a link.1 := by
  obtain ⟨hne, rfl⟩ := mem_optional h
  obtain ⟨a, rfl, ha⟩ := hid.resolve_left hne
  exact ⟨a, by simp, ha⟩

/-- A field with a list of references, as it is in the record. -/
theorem exists_of_mem_numbers {nodes : List α} {ids : List RecordId}
    (hids : List.Forall₂ Number nodes ids) {kind : Kind} {link : RecordId × Kind}
    (h : link ∈ ids.map (·, kind)) :
    ∃ a, (a, link.2) ∈ nodes.map (·, kind) ∧ Number a link.1 := by
  obtain ⟨id, hid, rfl⟩ := List.mem_map.1 h
  obtain ⟨a, ha, hn⟩ := Cbor.exists_left_of_mem hids hid
  exact ⟨a, List.mem_map_of_mem ha, hn⟩

/-- The record of a node is of its kind, and each link in it is the number of a node that is
demanded there. -/
theorem Content.links_of_yields {c : Content α} {record : Record}
    (h : c.flatten.Yields Number record) : record.kind = c.kind ∧
      ∀ link ∈ record.links, ∃ a, (a, link.2) ∈ c.demands ∧ Number a link.1 := by
  cases c with
  | peer | player | deck =>
    obtain ⟨id, hid, h⟩ := Hook.yields_serializeOption h
    cases h
    exact ⟨rfl, fun link hl => exists_of_mem_optional hid hl⟩
  | vertex | card =>
    obtain ⟨ids, hids, h⟩ := Hook.yields_serializeAll h
    cases h
    exact ⟨rfl, fun link hl => exists_of_mem_numbers hids hl⟩
  | ability =>
    cases h
    exact ⟨rfl, nofun⟩
  | cardList abilities cards =>
    obtain ⟨ids, hids, h⟩ := Hook.yields_serializeAll h
    obtain ⟨ids', hids', h⟩ := Hook.yields_serializeAll h
    cases h
    refine ⟨rfl, fun link hl => ?_⟩
    rcases List.mem_append.1 hl with hl | hl
    · obtain ⟨a, ha, hn⟩ := exists_of_mem_numbers hids hl
      exact ⟨a, List.mem_append_left _ ha, hn⟩
    · obtain ⟨a, ha, hn⟩ := exists_of_mem_numbers hids' hl
      exact ⟨a, List.mem_append_right _ ha, hn⟩
  | lenient label edges =>
    obtain ⟨ids, rfl, hids⟩ := yields_lenientIds h
    refine ⟨rfl, fun link hl => ?_⟩
    obtain ⟨id, hid, hl⟩ := List.mem_flatMap.1 hl
    obtain ⟨hne, rfl⟩ := mem_optional hl
    obtain ⟨a, ha, hn⟩ := (hids id hid).resolve_left hne
    exact ⟨a, List.mem_map_of_mem ha, hn⟩

end Flattening
end Catalog
end ObjectGraph
