import ObjectGraph.Catalog.Codec
import ObjectGraph.Catalog.Fixtures
import ObjectGraph.Catalog.Flattening
import ObjectGraph.Catalog.Heap
import ObjectGraph.Catalog.Rebuilding
import ObjectGraph.Proofs.Catalog.Packing
import ObjectGraph.Proofs.Flatten.Entry
import ObjectGraph.Proofs.Flatten.Growth

/-! Which containers open under the limits they were made under. A pass numbers its nodes in order,
up to the limit, and puts the record of each under the name of its type (`books_visit`). So no
check on records refuses the container (`Titled.validate`); no step of the pass looks at the length
of a name. -/
namespace ObjectGraph

namespace Container

variable {limits : Limits}

def Fits (limits : Limits) (name : String) : Prop :=
  (Utf8.ofString name).length ≤ limits.maxTypeNameLen.toNat

/-- A table with a name for each record is refused for a name that is too long, and for nothing
else. -/
theorem checkTypeNames_table (names : List String) :
    (checkTypeNames limits names.length (some names) = .ok () ↔ ∀ name ∈ names, Fits limits name) ∧
    ∀ e, checkTypeNames limits names.length (some names) = .error e → ∃ (k : Nat) (name : String),
      names[k]? = some name ∧ ¬ Fits limits name ∧
        e = .typeNameTooLong k (Utf8.ofString name).length limits.maxTypeNameLen.toNat := by
  rw [checkTypeNames, if_neg (not_not.2 rfl)]
  rcases habove : firstAbove limits.maxTypeNameLen.toNat
    (names.map fun name => (Utf8.ofString name).length) with _ | ⟨k, len⟩
  · exact ⟨iff_of_true rfl (by simpa [Fits] using firstAbove_eq_none.1 habove), nofun⟩
  · obtain ⟨hat, hlong⟩ := firstAbove_eq_some habove
    obtain ⟨name, hname, rfl⟩ := Option.map_eq_some_iff.1 (List.getElem?_map ▸ hat)
    refine ⟨iff_of_false nofun fun h => ?_, ?_⟩
    · exact absurd (h name (List.mem_of_getElem? hname)) (not_le.2 hlong)
    · rintro e ⟨⟩
      exact ⟨k, name, hname, not_le.2 hlong, rfl⟩

end Container

namespace Flatten.Session

variable {α ν ρ κ : Type} [DecidableEq α] (schema : Schema α ν ρ) (heap : α → Cell ν)
  {s t : Session α ρ}

/-- A session with a record number for each node, up to the limit, and each record under the name of
its node's type. -/
structure Titled (s : Session α ρ) : Prop where
  aligned : Aligned s
  sequential : s.numbering.Sequential
  room : s.objectCount ≤ s.limits.maxRecords.toNat
  title : ∀ {k : Nat} {a : α} {p : Pending ρ}, s.numbering.nodes[k]? = some a →
    s.records[k]? = some (some p) → p.typeName = schema.typeName (heap a).content

theorem titled_first (limits : Limits) (rootTaken : Bool) :
    Titled schema heap { limits, rootTaken } where
  aligned := ⟨rfl, rfl⟩
  sequential _ _ := ⟨nofun, nofun⟩
  room := Nat.zero_le _
  title h := by cases h

variable {schema heap}

/-- The slot of a new node has no record yet. -/
theorem Titled.push (h : Titled schema heap s) {a : α} {id : RecordId} {numbering : Numbering α}
    (hn : s.numbering.lookup a = none)
    (hr : s.numbering.register a s.limits.maxRecords = .ok (id, numbering)) :
    Titled schema heap { s with numbering, records := s.records.push none } where
  aligned := h.aligned.push hn hr
  sequential := h.sequential.register h.aligned.next_eq_size hn hr
  room := by
    obtain ⟨-, -, hsize, hroom⟩ := Numbering.register_new hn hr
    show numbering.size ≤ s.limits.maxRecords.toNat
    rw [hsize, ← h.aligned.next_eq_size]
    exact hroom
  title {k b p} hb hp := by
    rw [Array.getElem?_push] at hp
    split at hp
    · cases hp
    · next hk =>
      have hlt : k < s.numbering.nodes.length := by
        have hfilled := (Array.getElem?_eq_some_iff.1 hp).1
        rwa [Numbering.length_nodes, ← objectCount, h.aligned.size]
      rw [Numbering.nodes_register hn hr, List.getElem?_append_left hlt] at hb
      exact h.title hb hp

theorem Titled.store (h : Titled schema heap s) {index : Nat} {a : α}
    (ha : s.numbering.nodes[index]? = some a) (record : ρ) :
    Titled schema heap (s.store index ⟨schema.typeName (heap a).content, record⟩) where
  aligned := h.aligned.store index _
  sequential := h.sequential
  room := h.room
  title {k b p} hb hp := by
    rw [Session.store, Array.getElem?_setIfInBounds] at hp
    split at hp
    · next hk =>
      subst hk
      obtain rfl : a = b := Option.some.inj (ha.symm.trans hb)
      split at hp <;> cases hp
      rfl
    · exact h.title hb hp

theorem Titled.enter (h : Titled schema heap s) (id : RecordId) :
    Titled schema heap (s.enter id) :=
  ⟨⟨h.aligned.next, h.aligned.size⟩, h.sequential, h.room, h.title⟩

theorem Titled.leave (h : Titled schema heap s) (id : RecordId) :
    Titled schema heap (s.leave id) :=
  ⟨⟨h.aligned.next, h.aligned.size⟩, h.sequential, h.room, h.title⟩

variable (schema heap) in
structure Books (s t : Session α ρ) : Prop where
  keeps : Keeps s t
  titled : Titled schema heap s → Titled schema heap t

theorem partwise_books : Partwise (Books schema heap) where
  refl s := ⟨.refl s, id⟩
  trans h h' := ⟨h.keeps.trans h'.keeps, h'.titled ∘ h.titled⟩
  hook h := ⟨h.keeps.leave, fun hs => (h.titled (hs.enter _)).leave _⟩

/-- The record of a new node goes to its position, which it keeps while its hook runs. -/
theorem titled_welcome {visit : Visit α ρ} (hv : Moves (Books schema heap) visit) {a : α}
    (hs : Titled schema heap s) (hn : s.numbering.lookup a = none) :
    Titled schema heap (welcome schema heap visit a s).2 := by
  unfold welcome
  rcases hr : s.numbering.register a s.limits.maxRecords with e | ⟨id, numbering⟩
  · exact hs
  · have hindex := (Numbering.register_new hn hr).1
    have hbooks := partwise_books.produce schema hv id (heap a)
      { s with numbering, records := s.records.push none }
    have hproduced := hbooks.titled (hs.push hn hr)
    have hnumber := hbooks.keeps.lookup (Numbering.lookup_of_register hr)
    simp only [hindex]
    rcases hp : produce schema visit id (heap a)
      { s with numbering, records := s.records.push none } with ⟨e | record, t⟩ <;>
      rw [hp] at hproduced hnumber
    · exact hproduced
    · refine hproduced.store ((hproduced.sequential a _).1 ?_) record
      rw [Numbering.index?, hnumber, Option.bind_some, hindex]

variable (schema heap) in
theorem books_visit (levels : Nat) :
    Moves (Books schema heap) (Session.visit schema heap levels) := by
  refine partwise_books.visit schema heap (fun hv a s hn => ⟨?_, ?_⟩) levels
  · exact moves_welcome schema heap (fun a s => (hv a s).keeps) a s
  · exact fun hs => titled_welcome hv hs hn

variable (schema heap) in
theorem titled_serialize (limits : Limits) (root : α) :
    Titled schema heap (serialize schema heap root { limits }).2 :=
  (books_visit schema heap limits.maxDepth.toNat root _).titled (titled_first schema heap limits true)

section Opening

def titles (schema : Schema α ν ρ) (heap : α → Cell ν) (s : Session α ρ) : List String :=
  s.numbering.nodes.map fun a => schema.typeName (heap a).content

variable {codec : Codec κ ρ} {names : Bool} {c : Container}

omit [DecidableEq α] in
theorem length_titles : (s.titles schema heap).length = s.objectCount := by
  rw [titles, List.length_map, Numbering.length_nodes, objectCount]

theorem Titled.typeNames (hs : Titled schema heap s)
    (hc : s.intoContainer codec names = .ok c) :
    c.typeNames = if names then some (s.titles schema heap) else none := by
  cases names with
  | false => exact (packed_of_intoContainer hc).2 rfl
  | true =>
    obtain ⟨table, htable, hlength, hlabels⟩ := typeNames_of_intoContainer hc
    rw [htable, if_pos rfl]
    refine congrArg some (List.ext_getElem? fun k => ?_)
    by_cases hk : k < table.length
    · obtain ⟨p, hp, hname⟩ := hlabels k table[k] (List.getElem?_eq_getElem hk)
      have hnode : k < s.numbering.nodes.length := by
        rwa [Numbering.length_nodes, ← objectCount, ← hlength]
      have htitle := hs.title (List.getElem?_eq_getElem hnode) hp
      rw [List.getElem?_eq_getElem hk, hname, htitle, titles, List.getElem?_map,
        List.getElem?_eq_getElem hnode]
      rfl
    · rw [List.getElem?_eq_none (not_lt.1 hk),
        List.getElem?_eq_none (by rw [length_titles, ← hlength]; exact not_lt.1 hk)]

/-- Nothing but its type names can be wrong with the container of a session. -/
theorem Titled.validate (hs : Titled schema heap s) (hc : s.intoContainer codec names = .ok c) :
    c.validate s.limits = Container.checkTypeNames s.limits s.objectCount c.typeNames := by
  obtain ⟨hpacked, -⟩ := packed_of_intoContainer hc
  rw [Container.validate_eq_checkTypeNames hpacked.version (hpacked.size ▸ hs.room), hpacked.size]
  intro bs hbs
  obtain ⟨k, hk⟩ := List.mem_iff_getElem?.1 hbs
  obtain ⟨_, -, -, hshort⟩ := hpacked.records k bs hk
  exact hshort

theorem Titled.validate_iff (hs : Titled schema heap s) (hc : s.intoContainer codec names = .ok c) :
    c.validate s.limits = .ok () ↔
      (names = true → ∀ name ∈ s.titles schema heap, Container.Fits s.limits name) := by
  rw [hs.validate hc, hs.typeNames hc]
  cases names with
  | false => exact iff_of_true rfl nofun
  | true =>
    rw [if_pos rfl, ← length_titles]
    exact (Container.checkTypeNames_table _).1.trans (by simp)

theorem exists_start_iff (κ' ν' : Type) (c : Container) (limits : Limits) :
    (∃ d : Rebuild.Session κ' ν', Rebuild.Session.start c limits = .ok d) ↔
      c.validate limits = .ok () := by
  unfold Rebuild.Session.start
  rcases c.validate limits with e | ⟨⟩
  · simp
  · simp

/-- The container of a pass has the name of each node at its number, if it has names at all. It
opens under the limits of the pass exactly if these names keep to the limit on names, which no step
of the pass looks at. -/
theorem opens_iff_titles_fit (schema : Schema α ν ρ) (heap : α → Cell ν) (codec : Codec κ ρ)
    (names : Bool) (limits : Limits) (root : α) {c : Container}
    (hc : (serialize schema heap root { limits }).2.intoContainer codec names = .ok c) :
    let s := (serialize schema heap root { limits }).2
    c.typeNames = (if names then some (s.titles schema heap) else none) ∧
    (s.titles schema heap).length = c.size ∧
    (∀ a k, s.numbering.index? a = some k ↔ s.numbering.nodes[k]? = some a) ∧
    (c.validate limits = .ok () ↔
      (names = true → ∀ name ∈ s.titles schema heap, Container.Fits limits name)) ∧
    (∀ e, c.validate limits = .error e → ∃ (k : Nat) (name : String),
      c.typeName? k = some name ∧ ¬ Container.Fits limits name ∧
        e = .typeNameTooLong k (Utf8.ofString name).length limits.maxTypeNameLen.toNat) ∧
    ∀ κ' ν' : Type, (∃ d : Rebuild.Session κ' ν', Rebuild.Session.start c limits = .ok d) ↔
      c.validate limits = .ok () := by
  intro s
  have hs : Titled schema heap s := titled_serialize schema heap limits root
  have hlimits : s.limits = limits :=
    (keeps_visit schema heap limits.maxDepth.toNat root { limits, rootTaken := true }).limits
  have hsize : (s.titles schema heap).length = c.size :=
    length_titles.trans (packed_of_intoContainer hc).1.size.symm
  have hnames := hs.typeNames hc
  have hvalidate := hs.validate hc
  rw [hlimits, hnames] at hvalidate
  refine ⟨hnames, hsize, hs.sequential, hlimits ▸ hs.validate_iff hc, fun e he => ?_,
    fun κ' ν' => exists_start_iff κ' ν' c limits⟩
  cases names with
  | false => cases hvalidate.symm.trans he
  | true =>
    rw [hvalidate, if_pos rfl, ← length_titles] at he
    obtain ⟨k, name, hname, hlong⟩ := (Container.checkTypeNames_table _).2 e he
    exact ⟨k, name, by simp [Container.typeName?, hnames, hname], hlong⟩

end Opening

section Catalog

open ObjectGraph.Catalog

def unnamedPeer : Heap := .ofContents (Fixtures.lone "")

/-- Under a limit of ten bytes for a name, the container of one peer opens if it comes without
names, and does not if it comes with them. -/
theorem opens_unnamedPeer :
    let limits : Limits := { maxTypeNameLen := 10 }
    let s := (serialize flattenSchema unnamedPeer.cell 0 { limits }).2
    ∃ plain named, s.intoContainer (codec .cbor) false = .ok plain ∧
      s.intoContainer (codec .cbor) true = .ok named ∧ plain.validate limits = .ok () ∧
      named.validate limits ≠ .ok () := by
  intro limits s
  refine ⟨_, _, rfl, rfl, ?_, ?_⟩
  · have hopens := opens_iff_titles_fit flattenSchema unnamedPeer.cell (codec .cbor) false limits 0
      rfl
    exact hopens.2.2.2.1.2 nofun
  · intro hvalid
    have hopens := opens_iff_titles_fit flattenSchema unnamedPeer.cell (codec .cbor) true limits 0
      rfl
    have hfits := hopens.2.2.2.1.1 hvalid rfl _ List.mem_cons_self
    exact absurd hfits (by unfold Container.Fits; decide)

/-- Not every container that a session makes opens under its limits. -/
theorem not_every_container_opens :
    ¬ ∀ (h : Heap) (limits : Limits) (root : Nat) (encoding : Encoding) (names : Bool) id s c,
      serialize flattenSchema h.cell root { limits } = (.ok id, s) →
        s.intoContainer (codec encoding) names = .ok c → c.validate limits = .ok () := by
  intro h
  have hvalid := h unnamedPeer { maxTypeNameLen := 10 } 0 .cbor true .root _ _ rfl rfl
  cases hvalid

end Catalog

end Flatten.Session
end ObjectGraph
