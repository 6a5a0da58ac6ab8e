import ObjectGraph.Limits
import ObjectGraph.Wire.Error
import ObjectGraph.Bytes
import ObjectGraph.Text.Utf8

/-! Tables of encoded records, and when limits admit one. -/
namespace ObjectGraph

/-- Encoded records by record number, and optionally the type name of each. -/
structure Container where
  formatVersion : UInt32 := 1
  records : List Bytes
  typeNames : Option (List String) := none
  deriving DecidableEq, Repr

namespace Container

def currentVersion : UInt32 := 1

inductive Error where
  | invalidVersion
  | futureVersion (found supported : UInt32)
  | typeNameCount (names records : Nat)
  | tooManyRecords (count : Nat) (limit : UInt32)
  | recordTooLarge (index len limit : Nat)
  | typeNameTooLong (index len limit : Nat)
  /-- Bytes behind the last field. -/
  | trailing (count : Nat)
  | field (source : Wire.Error)
  deriving DecidableEq, Repr

def Error.message : Error → String
  | .invalidVersion => "invalid container version 0"
  | .futureVersion found supported =>
      s!"container version {found} is newer than supported version {supported}"
  | .typeNameCount names records => s!"{names} type names for {records} records"
  | .tooManyRecords count limit => s!"{count} records exceed limit {limit}"
  | .recordTooLarge index len limit => s!"record {index} is {len} bytes, limit {limit}"
  | .typeNameTooLong index len limit => s!"type name {index} is {len} bytes, limit {limit}"
  | .trailing count => s!"{count} trailing bytes after container"
  | .field source => s!"envelope: {source.message}"

def size (c : Container) : Nat := c.records.length

def isEmpty (c : Container) : Bool := c.records.isEmpty

def typeName? (c : Container) (index : Nat) : Option String := do
  let names ← c.typeNames
  names[index]?

structure Summary where
  formatVersion : UInt32
  recordCount : Nat
  totalRecordBytes : Nat
  hasTypeNames : Bool
  deriving DecidableEq, Repr

def summary (c : Container) : Summary where
  formatVersion := c.formatVersion
  recordCount := c.records.length
  totalRecordBytes := c.records.flatten.length
  hasTypeNames := c.typeNames.isSome

/-- The first of some lengths above a limit, with its position. -/
def firstAbove (limit : Nat) (lengths : List Nat) : Option (Nat × Nat) :=
  (lengths.zipIdx.find? fun (len, _) => limit < len).map fun (len, index) => (index, len)

def checkVersion (version : UInt32) : Except Error Unit :=
  if version = 0 then .error .invalidVersion
  else if currentVersion < version then .error (.futureVersion version currentVersion)
  else .ok ()

def checkRecords (limits : Limits) (records : List Bytes) : Except Error Unit :=
  if limits.maxRecords.toNat < records.length then
    .error (.tooManyRecords records.length limits.maxRecords)
  else match firstAbove limits.maxRecordLen.toNat (records.map List.length) with
    | some (index, len) => .error (.recordTooLarge index len limits.maxRecordLen.toNat)
    | none => .ok ()

def checkTypeNames (limits : Limits) (records : Nat) : Option (List String) → Except Error Unit
  | none => .ok ()
  | some names =>
      if names.length ≠ records then .error (.typeNameCount names.length records)
      else match firstAbove limits.maxTypeNameLen.toNat
          (names.map fun name => (Utf8.ofString name).length) with
        | some (index, len) => .error (.typeNameTooLong index len limits.maxTypeNameLen.toNat)
        | none => .ok ()

/-- Version, limits on the records, then shape of and limits on the type names. -/
def validate (c : Container) (limits : Limits) : Except Error Unit := do
  checkVersion c.formatVersion
  checkRecords limits c.records
  checkTypeNames limits c.records.length c.typeNames

end Container
end ObjectGraph
