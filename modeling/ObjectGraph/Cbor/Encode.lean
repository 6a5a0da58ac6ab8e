import ObjectGraph.Cbor.Value

/-! The deterministic byte form of a CBOR item: shortest heads, map entries in byte order of their
keys, whole floats as integers and every other float in the narrowest width that holds it. -/
namespace ObjectGraph.Cbor

def initialByte (major info : Nat) : UInt8 := UInt8.ofNat (major * 32 + info)

/-- Major type and argument in the fewest bytes. -/
def head (major argument : Nat) : Bytes :=
  if argument < 24 then [initialByte major argument]
  else if argument < 0x100 then initialByte major 24 :: Bytes.ofNatBE 1 argument
  else if argument < 0x10000 then initialByte major 25 :: Bytes.ofNatBE 2 argument
  else if argument < 0x100000000 then initialByte major 26 :: Bytes.ofNatBE 4 argument
  else initialByte major 27 :: Bytes.ofNatBE 8 argument

def encodeInt (n : Int) : Bytes :=
  if 0 ≤ n then head 0 n.toNat else head 1 (-1 - n).toNat

def encodeFloat (x : Binary64) : Bytes :=
  if x.isNaN then [0xf9, 0x7e, 0x00]
  else if x.isInfinite then [0xf9, if x.isNegative then 0xfc else 0x7c, 0x00]
  else match x.whole? with
    | some n => encodeInt n
    | none =>
      match x.word? .half, x.word? .single with
      | some word, _ => 0xf9 :: Bytes.ofNatBE 2 word
      | none, some word => 0xfa :: Bytes.ofNatBE 4 word
      | none, none => 0xfb :: Bytes.ofNatBE 8 x.bits.toNat

/-- A map entry on its way out: the bytes of the key, and what became of the value. -/
abbrev Entry := Bytes × Except Error Bytes

def insertEntry (e : Entry) : List Entry → List Entry
  | [] => [e]
  | f :: fs => if e.1 < f.1 then e :: f :: fs else f :: insertEntry e fs

def sortEntries (entries : List Entry) : List Entry :=
  entries.foldl (fun sorted e => insertEntry e sorted) []

def hasTwins : List Entry → Bool
  | e :: f :: fs => e.1 = f.1 || hasTwins (f :: fs)
  | _ => false

/-- The entries one after another. The first value without a byte form is the fault. -/
def joinEntries : List Entry → (done : List Bytes) → Except Error Bytes
  | [], done => .ok done.reverse.flatten
  | (_, .error e) :: _, _ => .error e
  | (key, .ok value) :: es, done => joinEntries es (value :: key :: done)

mutual
def encode : Value → Except Error Bytes
  | .null => .ok [0xf6]
  | .bool b => .ok [if b then 0xf5 else 0xf4]
  | .unsigned n => .ok (head 0 n.toNat)
  | .negative n => .ok (head 1 n.toNat)
  | .float x => .ok (encodeFloat x)
  | .bytes bs => .ok (head 2 bs.length ++ bs)
  | .text s =>
      let bs := Utf8.ofString s
      .ok (head 3 bs.length ++ bs)
  | .array items => do
      let body ← encodeItems items []
      .ok (head 4 items.length ++ body)
  | .map entries => do
      let sorted := sortEntries (← encodeEntries entries [])
      if hasTwins sorted then .error .keyDuplicate
      let body ← joinEntries sorted []
      .ok (head 5 entries.length ++ body)
  | .tag _ _ => .error .tag

def encodeItems : List Value → (done : List Bytes) → Except Error Bytes
  | [], done => .ok done.reverse.flatten
  | v :: vs, done =>
      match encode v with
      | .error e => .error e
      | .ok bs => encodeItems vs (bs :: done)

/-- The keys are written in the order of the entries, before any value can fail. -/
def encodeEntries : List (Value × Value) → (done : List Entry) → Except Error (List Entry)
  | [], done => .ok done.reverse
  | (k, v) :: es, done =>
      match encode k with
      | .error e => .error e
      | .ok key => encodeEntries es ((key, encode v) :: done)
end

end ObjectGraph.Cbor
