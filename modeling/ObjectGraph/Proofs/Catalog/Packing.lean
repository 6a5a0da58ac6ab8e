import ObjectGraph.Flatten.Session
import ObjectGraph.Proofs.Outcomes

/-! The container of a pass: the bytes of its records by number, within the limits that a session
checks when it opens the container. -/
namespace ObjectGraph

namespace Container

variable {c : Container} {limits : Limits}

theorem firstAbove_eq_none {limit : Nat} {lengths : List Nat} :
    firstAbove limit lengths = none ↔ ∀ len ∈ lengths, len ≤ limit := by
  unfold firstAbove
  rw [Option.map_eq_none_iff, List.find?_eq_none]
  constructor
  · intro h len hlen
    obtain ⟨index, hat⟩ := List.mem_iff_getElem?.1 hlen
    simpa using h (len, index) (List.mem_zipIdx_iff_getElem?.2 hat)
  · intro h p hp
    simpa using h p.1 (List.fst_mem_of_mem_zipIdx hp)

theorem firstAbove_eq_some {limit index len : Nat} {lengths : List Nat}
    (h : firstAbove limit lengths = some (index, len)) :
    lengths[index]? = some len ∧ limit < len := by
  obtain ⟨p, hp, heq⟩ := Option.map_eq_some_iff.1 h
  cases heq
  exact ⟨List.mem_zipIdx_iff_getElem?.1 (List.mem_of_find?_eq_some hp),
    by simpa using List.find?_some hp⟩

/-- Of a container whose records keep to the limits only the type names are left to check. -/
theorem validate_eq_checkTypeNames (hv : c.formatVersion = currentVersion)
    (hr : c.size ≤ limits.maxRecords.toNat)
    (hl : ∀ bs ∈ c.records, bs.length ≤ limits.maxRecordLen.toNat) :
    c.validate limits = checkTypeNames limits c.size c.typeNames := by
  have habove : firstAbove limits.maxRecordLen.toNat (c.records.map List.length) = none := by
    refine firstAbove_eq_none.2 fun len hlen => ?_
    obtain ⟨bs, hb, rfl⟩ := List.mem_map.1 hlen
    exact hl bs hb
  have hversion : checkVersion c.formatVersion = .ok () := by
    rw [hv]
    rfl
  have hrecords : checkRecords limits c.records = .ok () := by
    rw [checkRecords, if_neg (by rw [size] at hr; omega), habove]
  simp only [validate, hversion, hrecords, size, bind, Except.bind]

/-- A container without type names opens if its records keep to the limits. -/
theorem validate_eq_ok (hv : c.formatVersion = currentVersion) (hn : c.typeNames = none)
    (hr : c.size ≤ limits.maxRecords.toNat)
    (hl : ∀ bs ∈ c.records, bs.length ≤ limits.maxRecordLen.toNat) :
    c.validate limits = .ok () := by
  rw [validate_eq_checkTypeNames hv hr hl, hn]
  rfl

/-- A container that opens has no more records than the limit. -/
theorem size_le_of_validate (h : c.validate limits = .ok ()) :
    c.size ≤ limits.maxRecords.toNat := by
  obtain ⟨_, -, hrest⟩ := bind_eq_ok.1 h
  obtain ⟨_, hrecords, -⟩ := bind_eq_ok.1 hrest
  unfold checkRecords at hrecords
  split at hrecords
  · cases hrecords
  · next hfew => exact not_lt.1 hfew

end Container

namespace Flatten.Session

variable {α κ ρ : Type} {codec : Codec κ ρ} {s : Session α ρ}

theorem encodeRecord_eq_ok {limits : Limits} {calls : Nat} {id : RecordId} {p : Pending ρ}
    {bs : Bytes} (h : encodeRecord codec limits calls id p = .ok bs) :
    codec.encode calls p.record = .ok bs ∧ bs.length ≤ limits.maxRecordLen.toNat := by
  unfold encodeRecord at h
  split at h
  · cases h
  · next bs' hb =>
    split at h
    · cases h
    · next hl =>
      cases h
      exact ⟨hb, by omega⟩

/-- The bytes at a position are those of the record there, within the limit. -/
def Packs (codec : Codec κ ρ) (s : Session α ρ) (index : Nat) (bs : Bytes) : Prop :=
  ∃ p, s.records[index]? = some (some p) ∧ codec.encode index p.record = .ok bs ∧
    bs.length ≤ s.limits.maxRecordLen.toNat

/-- The name at a position is that of the record there. -/
def Labels (s : Session α ρ) (index : Nat) (name : String) : Prop :=
  ∃ p, s.records[index]? = some (some p) ∧ name = p.typeName

/-- Rows are packed position by position, behind those that are done. -/
theorem encodeRecords_eq_ok {n index calls : Nat} {done rows : List (String × Bytes)}
    (h : encodeRecords codec s n index done = (.ok rows, calls)) :
    ∃ new, rows = done.reverse ++ new ∧ new.length = n ∧ ∀ k row, new[k]? = some row →
      Labels s (index + k) row.1 ∧ Packs codec s (index + k) row.2 := by
  induction n generalizing index done with
  | zero =>
    cases h
    exact ⟨[], by simp, rfl, fun _ _ => nofun⟩
  | succ n ih =>
    unfold encodeRecords at h
    cases hp : (s.records[index]?).join with
    | none =>
      rw [hp] at h
      cases h
    | some p =>
      rw [hp] at h
      dsimp only at h
      cases hb : encodeRecord codec s.limits index ((RecordId.ofIndex? index).getD .nil) p with
      | error e =>
        rw [hb] at h
        cases h
      | ok bs =>
        rw [hb] at h
        obtain ⟨new, rfl, hlength, hnew⟩ := ih h
        refine ⟨(p.typeName, bs) :: new, by simp, by simp [hlength], ?_⟩
        intro k row hk
        cases k with
        | zero =>
          obtain rfl : (p.typeName, bs) = row := by simpa using hk
          have hat := Option.join_eq_some_iff.1 hp
          exact ⟨⟨p, hat, rfl⟩, p, hat, encodeRecord_eq_ok hb⟩
        | succ k =>
          rw [show index + (k + 1) = index + 1 + k by omega]
          exact hnew k row (by simpa using hk)

/-- The container of a session has a record for each number. -/
structure Packed (codec : Codec κ ρ) (s : Session α ρ) (c : Container) : Prop where
  version : c.formatVersion = Container.currentVersion
  size : c.size = s.objectCount
  records : ∀ k bs, c.records[k]? = some bs → Packs codec s k bs

theorem packed_of_intoContainer {names : Bool} {c : Container}
    (h : s.intoContainer codec names = .ok c) :
    Packed codec s c ∧ (names = false → c.typeNames = none) := by
  unfold intoContainer finish at h
  rcases he : encodeRecords codec s s.objectCount 0 [] with ⟨e | rows, calls⟩ <;> rw [he] at h <;>
    cases h
  obtain ⟨new, rfl, hlength, hnew⟩ := encodeRecords_eq_ok he
  refine ⟨⟨rfl, ?_, ?_⟩, fun hn => by rw [hn]; rfl⟩
  · simp only [Container.size, List.length_map, hlength]
  · intro k bs hk
    obtain ⟨row, hrow, rfl⟩ := Option.map_eq_some_iff.1 (List.getElem?_map ▸ hk)
    rw [← Nat.zero_add k]
    exact (hnew k row hrow).2

/-- Type names are those of the records, by position. -/
theorem typeNames_of_intoContainer {c : Container} (h : s.intoContainer codec true = .ok c) :
    ∃ table, c.typeNames = some table ∧ table.length = s.objectCount ∧
      ∀ k name, table[k]? = some name → Labels s k name := by
  unfold intoContainer finish at h
  rcases he : encodeRecords codec s s.objectCount 0 [] with ⟨e | rows, calls⟩ <;> rw [he] at h <;>
    cases h
  obtain ⟨new, rfl, hlength, hnew⟩ := encodeRecords_eq_ok he
  refine ⟨rows.map Prod.fst, rfl, by rw [List.length_map, hlength], ?_⟩
  intro k name hk
  obtain ⟨row, hrow, rfl⟩ := Option.map_eq_some_iff.1 (List.getElem?_map ▸ hk)
  rw [← Nat.zero_add k]
  exact (hnew k row hrow).1

theorem labels_of_intoContainer {c : Container} (h : s.intoContainer codec true = .ok c)
    {k : Nat} (hk : k < s.objectCount) : ∃ name, c.typeName? k = some name ∧ Labels s k name := by
  obtain ⟨table, htable, hlength, hlabels⟩ := typeNames_of_intoContainer h
  have hname : table[k]? = some table[k] := List.getElem?_eq_getElem (hlength ▸ hk)
  exact ⟨table[k], by simp [Container.typeName?, htable, hname], hlabels k _ hname⟩

/-- The records of a container do not depend on its type names. -/
theorem Packed.unnamed {c : Container} (h : Packed codec s c) :
    Packed codec s { c with typeNames := none } :=
  ⟨h.version, h.size, h.records⟩

end Flatten.Session
end ObjectGraph
