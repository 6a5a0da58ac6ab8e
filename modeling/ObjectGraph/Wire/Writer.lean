import ObjectGraph.Wire.Item

/-! Writes the envelope's primitive fields behind each other. A field of several parts is written
part by part; a write returns its outcome with the writer behind it, after a failure as well. -/
namespace ObjectGraph.Wire

structure Writer where
  buffer : Bytes := []
  deriving DecidableEq, Repr

namespace Writer

def append (w : Writer) (bs : Bytes) : Writer := ⟨w.buffer ++ bs⟩

@[simp] theorem buffer_append (w : Writer) (bs : Bytes) : (w.append bs).buffer = w.buffer ++ bs := rfl

@[simp] theorem append_append (w : Writer) (bs cs : Bytes) :
    (w.append bs).append cs = w.append (bs ++ cs) := by
  simp [append]

def writeByte (w : Writer) (b : UInt8) : Writer := w.append [b]

def writeFlag (w : Writer) (flag : Bool) : Writer := w.writeByte (if flag then 1 else 0)

def writeU32 (w : Writer) (n : UInt32) : Writer := w.append (Bytes.ofNatLE 4 n.toNat)

def writeCount (w : Writer) (n : Nat) : Except Error Unit × Writer :=
  if n ≤ maxCount then (.ok (), w.writeU32 (UInt32.ofNat n))
  else (.error (.lengthTooLarge n maxCount), w)

def writeBytes (w : Writer) (bs : Bytes) : Except Error Unit × Writer :=
  match w.writeCount bs.length with
  | (.error e, w) => (.error e, w)
  | (.ok (), w) => (.ok (), w.append bs)

def writeText (w : Writer) (max : Nat) (s : String) : Except Error Unit × Writer :=
  let bs := Utf8.ofString s
  if max < bs.length then (.error (.lengthTooLarge bs.length max), w) else w.writeBytes bs

def write (w : Writer) : Item → Except Error Unit × Writer
  | .byte b => (.ok (), w.writeByte b)
  | .flag b => (.ok (), w.writeFlag b)
  | .u32 n => (.ok (), w.writeU32 n)
  | .count n => w.writeCount n
  | .bytes bs => w.writeBytes bs
  | .text s max => w.writeText max s

/-- Writes one item after another, also behind one that was refused. -/
def writeAll (w : Writer) : List Item → List (Except Error Unit) × Writer
  | [] => ([], w)
  | item :: items =>
      let (outcome, w) := w.write item
      let (outcomes, w) := w.writeAll items
      (outcome :: outcomes, w)

end Writer
end ObjectGraph.Wire
