import ObjectGraph.Container
import ObjectGraph.Wire.Reader

/-! The binary envelope of a container: format version; record count and records, each behind its
length; a flag; and, if it is set, name count and type names. Nothing follows. -/
namespace ObjectGraph.Container

/-- One field after another; the first that cannot be written is the fault. -/
def encodeAll (encode : α → Except Wire.Error Bytes) :
    List α → (done : List Bytes) → Except Error Bytes
  | [], done => .ok done.reverse.flatten
  | x :: xs, done =>
      match encode x with
      | .error e => .error (.field e)
      | .ok bs => encodeAll encode xs (bs :: done)

def encodeTable (encode : α → Except Wire.Error Bytes) (entries : List α) : Except Error Bytes := do
  let count ← (Wire.encodeCount entries.length).mapError .field
  let body ← encodeAll encode entries []
  .ok (count ++ body)

def encodeTypeNames : Option (List String) → Except Error Bytes
  | none => .ok []
  | some names => encodeTable (Wire.encodeText Wire.maxCount) names

/-- The envelope, whether or not the container is valid. -/
def toBytes (c : Container) : Except Error Bytes := do
  let records ← encodeTable Wire.encodeBytes c.records
  let names ← encodeTypeNames c.typeNames
  .ok (Wire.encodeU32 c.formatVersion ++ records ++ Wire.encodeFlag c.typeNames.isSome ++ names)

def lift : Except Wire.Error α × Bytes → Except Error (α × Bytes)
  | (.ok x, rest) => .ok (x, rest)
  | (.error e, _) => .error (.field e)

/-- An entry read as part of a table, whose length has a limit of its own. -/
def liftEntry (tooLarge : (len limit : Nat) → Error) :
    Except Wire.Error α × Bytes → Except Error (α × Bytes)
  | (.error (.lengthTooLarge len max), _) => .error (tooLarge len max)
  | step => lift step

/-- `n` entries in a row, the first of them at position `index`. -/
def readEntries (read : Wire.Read α) (tooLarge : (index len limit : Nat) → Error) :
    (n index : Nat) → Bytes → (done : List α) → Except Error (List α × Bytes)
  | 0, _, bs, done => .ok (done.reverse, bs)
  | n+1, index, bs, done =>
      match liftEntry (tooLarge index) (read bs) with
      | .error e => .error e
      | .ok (x, rest) => readEntries read tooLarge n (index + 1) rest (x :: done)

def readRecords (limits : Limits) (bs : Bytes) : Except Error (List Bytes × Bytes) := do
  let (count, rest) ← lift (Wire.readU32 bs)
  if limits.maxRecords < count then .error (.tooManyRecords count.toNat limits.maxRecords)
  else readEntries (Wire.readBytes limits.maxRecordLen.toNat) .recordTooLarge count.toNat 0 rest []

def readTypeNames (limits : Limits) (records : Nat) (bs : Bytes) :
    Except Error (Option (List String) × Bytes) := do
  let (present, rest) ← lift (Wire.readFlag bs)
  if present then
    let (count, rest) ← lift (Wire.readU32 rest)
    if count.toNat ≠ records then .error (.typeNameCount count.toNat records)
    else
      let (names, rest) ← readEntries (Wire.readText limits.maxTypeNameLen.toNat) .typeNameTooLong
        count.toNat 0 rest []
      .ok (some names, rest)
  else .ok (none, rest)

/-- Reads an envelope under limits, each of which is checked before what it bounds is read. -/
def ofBytes (limits : Limits) (bs : Bytes) : Except Error Container := do
  let (version, rest) ← lift (Wire.readU32 bs)
  checkVersion version
  let (records, rest) ← readRecords limits rest
  let (names, rest) ← readTypeNames limits records.length rest
  if rest.isEmpty then .ok ⟨version, records, names⟩ else .error (.trailing rest.length)

end ObjectGraph.Container
