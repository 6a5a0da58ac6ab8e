/-! Numbers of records. A record number is an index into the record table of a container; the
greatest 32-bit number is kept back for an absent reference. -/
namespace ObjectGraph

structure RecordId where
  raw : UInt32
  deriving DecidableEq, Repr

namespace RecordId

instance : LT RecordId := ⟨fun a b => a.raw < b.raw⟩
instance : LE RecordId := ⟨fun a b => a.raw ≤ b.raw⟩
instance (a b : RecordId) : Decidable (a ≤ b) := inferInstanceAs (Decidable (a.raw ≤ b.raw))
instance (a b : RecordId) : Decidable (a < b) := inferInstanceAs (Decidable (a.raw < b.raw))

def nil : RecordId := ⟨0xffffffff⟩

def root : RecordId := ⟨0⟩

def isNil (id : RecordId) : Bool := id = nil

/-- The position in the record table, which the absent reference has not. -/
def index? (id : RecordId) : Option Nat := if id.isNil then none else some id.raw.toNat

/-- The number of the record at a position, if it stays below the absent reference. -/
def ofIndex? (index : Nat) : Option RecordId :=
  if index < nil.raw.toNat then some ⟨UInt32.ofNat index⟩ else none

instance : ToString RecordId where
  toString id := if id.isNil then "nil" else s!"#{id.raw.toNat}"

/-- The number as a plain value, the absent reference included. -/
def debugText (id : RecordId) : String := s!"SerializationId({id.raw.toNat})"

def sort (ids : List RecordId) : List RecordId := ids.mergeSort fun a b => decide (a ≤ b)

@[simp] theorem index?_nil : nil.index? = none := rfl

theorem index?_eq_some {id : RecordId} {index : Nat} :
    id.index? = some index ↔ id ≠ nil ∧ id.raw.toNat = index := by
  by_cases h : id = nil <;> simp [index?, isNil, h]

theorem index?_lt {id : RecordId} {index : Nat} (h : id.index? = some index) :
    index < nil.raw.toNat := by
  obtain ⟨hn, rfl⟩ := index?_eq_some.1 h
  have hl := id.raw.toNat_lt
  have he : id.raw.toNat ≠ nil.raw.toNat := fun hc => hn (by
    cases id; simp only [nil] at hc ⊢; congr 1; exact UInt32.toNat_inj.1 hc)
  have hv : nil.raw.toNat = 2 ^ 32 - 1 := by decide
  omega

theorem ofIndex?_index? {id : RecordId} {index : Nat} (h : id.index? = some index) :
    ofIndex? index = some id := by
  have hl := index?_lt h
  obtain ⟨_, rfl⟩ := index?_eq_some.1 h
  simp [ofIndex?, hl]

theorem eq_of_index? {id id' : RecordId} {index : Nat} (h : id.index? = some index)
    (h' : id'.index? = some index) : id = id' := by
  have hof := ofIndex?_index? h
  rw [ofIndex?_index? h'] at hof
  exact (Option.some.inj hof).symm

theorem index?_ofIndex? {id : RecordId} {index : Nat} (h : ofIndex? index = some id) :
    id.index? = some index := by
  simp only [ofIndex?] at h
  split at h
  · next hl =>
    cases h
    have hv : nil.raw.toNat = 2 ^ 32 - 1 := by decide
    have hr : (UInt32.ofNat index).toNat = index := by
      rw [UInt32.toNat_ofNat']; omega
    refine index?_eq_some.2 ⟨fun hc => ?_, hr⟩
    have := congrArg (fun i => i.raw.toNat) hc
    simp only [hr] at this
    omega
  · cases h

end RecordId
end ObjectGraph
