import ObjectGraph.Cbor.Value

/-! Reads deterministic CBOR and refuses every other byte form of a value. A reader takes the bytes
and returns what it read with the bytes after it. -/
namespace ObjectGraph.Cbor

def take (n : Nat) (bs : Bytes) : Except Error (Bytes × Bytes) :=
  if Bytes.holds n bs then .ok (bs.take n, bs.drop n) else .error .incomplete

def readUint (width : Nat) (bs : Bytes) : Except Error (Nat × Bytes) := do
  let (front, rest) ← take width bs
  .ok (Bytes.toNatBE front, rest)

/-- An argument of `width` bytes, which must be more than `least` needs. -/
def readArgument (width least : Nat) (bs : Bytes) : Except Error (Nat × Bytes) := do
  let (n, rest) ← readUint width bs
  if least < n then .ok (n, rest) else .error .wideInteger

def argument (info : Nat) (bs : Bytes) : Except Error (Nat × Bytes) :=
  if info < 24 then .ok (info, bs)
  else match info with
    | 24 => readArgument 1 23 bs
    | 25 => readArgument 2 0xff bs
    | 26 => readArgument 4 0xffff bs
    | 27 => readArgument 8 0xffffffff bs
    | 31 => .error .indefinite
    | _ => .error .lengthInfo

/-- A length or count. Whatever is counted takes a byte at least, so no count exceeds the bytes
left. -/
def count (info : Nat) (bs : Bytes) : Except Error (Nat × Bytes) := do
  let (n, rest) ← argument info bs
  if Bytes.holds n rest then .ok (n, rest) else .error .incomplete

/-- The number that a word of the format denotes, if this is the form that is written for it. -/
def checkFloat (F : FloatFormat) (word : Nat) : Except Error Binary64 :=
  let x := Binary64.ofWord F word
  if x.isFinite ∧ x.whole?.isSome then .error .wholeFloat
  else if F ≠ .half ∧ (¬ x.isFinite ∨ (x.word? .half).isSome) then .error .wideFloat
  else if F = .double ∧ (x.word? .single).isSome then .error .wideFloat
  else .ok x

def readFloat (F : FloatFormat) (width : Nat) (bs : Bytes) : Except Error (Value × Bytes) := do
  let (word, rest) ← readUint width bs
  let x ← checkFloat F word
  .ok (.float x, rest)

def readSimple (info : Nat) (bs : Bytes) : Except Error (Value × Bytes) :=
  match info with
  | 20 => .ok (.bool false, bs)
  | 21 => .ok (.bool true, bs)
  | 22 => .ok (.null, bs)
  | 25 => readFloat .half 2 bs
  | 26 => readFloat .single 4 bs
  | 27 => readFloat .double 8 bs
  | 31 => .error .indefinite
  | _ => .error .simpleValue

/-- `n` items in a row, those in `done` before them, last first. -/
def readItems (item : Bytes → Except Error (Value × Bytes)) :
    (n : Nat) → Bytes → (done : List Value) → Except Error (List Value × Bytes)
  | 0, bs, done => .ok (done.reverse, bs)
  | n+1, bs, done =>
      match item bs with
      | .error e => .error e
      | .ok (v, rest) => readItems item n rest (v :: done)

/-- Keys grow strictly, compared by the bytes they were read from. -/
def checkKey (last : Option Bytes) (key : Bytes) : Except Error Unit :=
  match last with
  | none => .ok ()
  | some last =>
      if key = last then .error .keyDuplicate
      else if key < last then .error .keyOrder
      else .ok ()

/-- `n` entries in a row, the first key above `last`. -/
def readEntries (item : Bytes → Except Error (Value × Bytes)) :
    (n : Nat) → (last : Option Bytes) → Bytes → (done : List (Value × Value)) →
      Except Error (List (Value × Value) × Bytes)
  | 0, _, bs, done => .ok (done.reverse, bs)
  | n+1, last, bs, done =>
      match item bs with
      | .error e => .error e
      | .ok (k, afterKey) =>
          let key := bs.before afterKey
          match checkKey last key with
          | .error e => .error e
          | .ok () =>
              match item afterKey with
              | .error e => .error e
              | .ok (v, rest) => readEntries item n (some key) rest ((k, v) :: done)

/-- One item. The first argument bounds the nesting; the number of bytes is always enough. -/
def readItem : (fuel : Nat) → Bytes → Except Error (Value × Bytes)
  | _, [] => .error .incomplete
  | 0, _ :: _ => .error .incomplete
  | fuel+1, b :: bs => do
      let info := b.toNat % 32
      match b.toNat / 32 with
      | 0 =>
          let (n, rest) ← argument info bs
          .ok (.unsigned (UInt64.ofNat n), rest)
      | 1 =>
          let (n, rest) ← argument info bs
          if n < 0x8000000000000000 then .ok (.negative (UInt64.ofNat n), rest)
          else .error .integerRange
      | 2 =>
          let (n, rest) ← count info bs
          let (data, rest) ← take n rest
          .ok (.bytes data, rest)
      | 3 =>
          let (n, rest) ← count info bs
          let (data, rest) ← take n rest
          match Utf8.toText data with
          | .ok s => .ok (.text s, rest)
          | .error fault => .error (.text fault)
      | 4 =>
          let (n, rest) ← count info bs
          let (items, rest) ← readItems (readItem fuel) n rest []
          .ok (.array items, rest)
      | 5 =>
          let (n, rest) ← count info bs
          let (entries, rest) ← readEntries (readItem fuel) n none rest []
          .ok (.map entries, rest)
      | 6 => .error .tag
      | _ => readSimple info bs

/-- Exactly one item, with nothing after it. -/
def decode (bs : Bytes) : Except Error Value :=
  match readItem bs.length bs with
  | .error e => .error e
  | .ok (v, []) => .ok v
  | .ok (_, _ :: _) => .error .trailing

end ObjectGraph.Cbor
