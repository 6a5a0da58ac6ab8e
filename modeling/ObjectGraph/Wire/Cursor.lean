import ObjectGraph.Wire.Reader

/-! A cursor over a buffer, which reads the envelope's primitive fields. A field of several parts is
read part by part, so a read that fails may have passed over some of them. -/
namespace ObjectGraph.Wire

/-- A buffer, and how many of its bytes have been passed over. -/
structure Cursor where
  buffer : Bytes
  offset : Nat := 0
  deriving DecidableEq, Repr

namespace Cursor

/-- A read returns its outcome and the cursor behind it, after a failure as well. -/
abbrev Step (α : Type) := Cursor → Except Error α × Cursor

def remaining (c : Cursor) : Nat := c.buffer.length - c.offset

def unread (c : Cursor) : Bytes := c.buffer.drop c.offset

/-- The next `n` bytes. A cursor with fewer before it stays where it is. -/
def take (n : Nat) : Step Bytes := fun c =>
  let stop := c.offset + n
  if stop ≤ c.buffer.length then
    (.ok ((c.buffer.take stop).drop c.offset), { c with offset := stop })
  else (.error .outOfBounds, c)

def settle (outcome : Except Error α) : Step α := fun c => (outcome, c)

/-- Goes on with what has been read, unless that failed. -/
def andThen (step : Step α) (next : α → Step β) : Step β := fun c =>
  match step c with
  | (.error e, c) => (.error e, c)
  | (.ok x, c) => next x c

def readByte : Step UInt8 := andThen (take 1) fun front => settle (.ok (front.headD 0))

def readFlag : Step Bool :=
  andThen readByte fun b =>
    if b = 0 then settle (.ok false)
    else if b = 1 then settle (.ok true)
    else settle (.error (.invalidFlag b))

def readU32 : Step UInt32 :=
  andThen (take 4) fun front => settle (.ok (UInt32.ofNat (Bytes.toNatLE front)))

def readCount (max : Nat) : Step Nat :=
  andThen readU32 fun n =>
    if max < n.toNat then settle (.error (.lengthTooLarge n.toNat max)) else settle (.ok n.toNat)

def readBytes (max : Nat) : Step Bytes := andThen (readCount max) take

def readText (max : Nat) : Step String :=
  andThen (readBytes max) fun data =>
    match Utf8.toText data with
    | .ok s => settle (.ok s)
    | .error _ => settle (.error .invalidUtf8)

def read (c : Cursor) : Request → Except Error Datum × Cursor
  | .byte => andThen readByte (fun b => settle (.ok (.byte b))) c
  | .flag => andThen readFlag (fun b => settle (.ok (.flag b))) c
  | .u32 => andThen readU32 (fun n => settle (.ok (.u32 n))) c
  | .count max => andThen (readCount max) (fun n => settle (.ok (.count n))) c
  | .bytes max => andThen (readBytes max) (fun bs => settle (.ok (.bytes bs))) c
  | .text max => andThen (readText max) (fun s => settle (.ok (.text s))) c

def readAll (c : Cursor) : List Request → List (Except Error Datum × Cursor)
  | [] => []
  | request :: requests =>
      let step := c.read request
      step :: step.2.readAll requests

def after (c : Cursor) (requests : List Request) : Cursor :=
  requests.foldl (fun c request => (c.read request).2) c

end Cursor
end ObjectGraph.Wire
