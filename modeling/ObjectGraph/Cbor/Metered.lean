import ObjectGraph.Cbor.Decode

/-! The reader with an account of the counts that it relies on: whatever reserves space for a count,
or repeats a step that often, notes the count beside the bytes unread at that point. -/
namespace ObjectGraph.Cbor

/-- A count that is relied on, and the number of bytes unread at that point. -/
structure Reliance where
  count : Nat
  unread : Nat
  deriving DecidableEq, Repr

/-- An outcome, and what has been relied on until then, in turn. -/
structure Metered (α : Type) where
  outcome : Except Error α
  noted : List Reliance := []

namespace Metered

def of (outcome : Except Error α) : Metered α := { outcome }

/-- A failure keeps what has been noted before it. -/
instance : Monad Metered where
  pure a := of (.ok a)
  bind x f :=
    match x.outcome with
    | .error e => { outcome := .error e, noted := x.noted }
    | .ok a => { outcome := (f a).outcome, noted := x.noted ++ (f a).noted }

def rely (n : Nat) (bs : Bytes) : Metered Unit := { outcome := .ok (), noted := [⟨n, bs.length⟩] }

def take (n : Nat) (bs : Bytes) : Metered (Bytes × Bytes) := do
  rely n bs
  of (Cbor.take n bs)

variable (item : Bytes → Metered (Value × Bytes))

def readItems : (n : Nat) → Bytes → (done : List Value) → Metered (List Value × Bytes)
  | 0, bs, done => pure (done.reverse, bs)
  | n+1, bs, done => do
      let (v, rest) ← item bs
      readItems n rest (v :: done)

def readEntries : (n : Nat) → (last : Option Bytes) → Bytes → (done : List (Value × Value)) →
    Metered (List (Value × Value) × Bytes)
  | 0, _, bs, done => pure (done.reverse, bs)
  | n+1, last, bs, done => do
      let (k, afterKey) ← item bs
      let key := bs.before afterKey
      of (checkKey last key)
      let (v, rest) ← item afterKey
      readEntries n (some key) rest ((k, v) :: done)

def row (n : Nat) (bs : Bytes) : Metered (List Value × Bytes) := do
  rely n bs
  readItems item n bs []

def table (n : Nat) (bs : Bytes) : Metered (List (Value × Value) × Bytes) := do
  rely n bs
  readEntries item n none bs []

def readItem : (fuel : Nat) → Bytes → Metered (Value × Bytes)
  | _, [] => of (.error .incomplete)
  | 0, _ :: _ => of (.error .incomplete)
  | fuel+1, b :: bs => do
      let info := b.toNat % 32
      match b.toNat / 32 with
      | 0 =>
          let (n, rest) ← of (argument info bs)
          pure (.unsigned (UInt64.ofNat n), rest)
      | 1 =>
          let (n, rest) ← of (argument info bs)
          if n < 0x8000000000000000 then pure (.negative (UInt64.ofNat n), rest)
          else of (.error .integerRange)
      | 2 =>
          let (n, rest) ← of (count info bs)
          let (data, rest) ← take n rest
          pure (.bytes data, rest)
      | 3 =>
          let (n, rest) ← of (count info bs)
          let (data, rest) ← take n rest
          match Utf8.toText data with
          | .ok s => pure (.text s, rest)
          | .error fault => of (.error (.text fault))
      | 4 =>
          let (n, rest) ← of (count info bs)
          let (items, rest) ← row (readItem fuel) n rest
          pure (.array items, rest)
      | 5 =>
          let (n, rest) ← of (count info bs)
          let (entries, rest) ← table (readItem fuel) n rest
          pure (.map entries, rest)
      | 6 => of (.error .tag)
      | _ => of (readSimple info bs)

def decode (bs : Bytes) : Metered Value := do
  match ← readItem bs.length bs with
  | (v, []) => pure v
  | (_, _ :: _) => of (.error .trailing)

end Metered
end ObjectGraph.Cbor
