import ObjectGraph.Json.Skip
import ObjectGraph.Layout

/-! Records as JSON documents: an object with the fields in order. A reader also takes an array of
the fields' values, and members in any order. -/
namespace ObjectGraph

open Json (Fault)

namespace Json

/-- Refuses a value of another type than expected. Faults inside a scalar come first. -/
def refuse (expected : String) (bs : Bytes) : Except Fault α :=
  let mismatch (found : Found) : Except Fault α :=
    .error (.mismatch (.invalidType found expected))
  match bs with
  | [] => .error .truncated
  | b :: rest => do
      if b = 0x6e then
        let _ ← keyword [0x75, 0x6c, 0x6c] rest
        mismatch .null
      else if b = 0x74 then
        let _ ← keyword [0x72, 0x75, 0x65] rest
        mismatch (.bool true)
      else if b = 0x66 then
        let _ ← keyword [0x61, 0x6c, 0x73, 0x65] rest
        mismatch (.bool false)
      else if startsNumber b then
        let (n, _) ← number bs
        mismatch n.found
      else if b = 0x22 then
        let (s, _) ← string rest
        mismatch (.text s)
      else if b = 0x5b then mismatch .sequence
      else if b = 0x7b then mismatch .map
      else .error .malformed

def readText (bs : Bytes) : Except Fault (String × Bytes) :=
  match skipBlanks bs with
  | [] => .error .truncated
  | b :: rest => if b = 0x22 then string rest else refuse "a string" (b :: rest)

def readBool (bs : Bytes) : Except Fault (Bool × Bytes) :=
  match skipBlanks bs with
  | [] => .error .truncated
  | b :: rest =>
      if b = 0x74 then (keyword [0x72, 0x75, 0x65] rest).map (true, ·)
      else if b = 0x66 then (keyword [0x61, 0x6c, 0x73, 0x65] rest).map (false, ·)
      else refuse "a boolean" (b :: rest)

def readWord (w : Word) (bs : Bytes) : Except Fault (w.Val × Bytes) :=
  match skipBlanks bs with
  | [] => .error .truncated
  | b :: rest =>
      if startsNumber b then do
        let (n, rest) ← number (b :: rest)
        match n with
        | .float x => .error (.mismatch (.invalidType (.float x) w.name))
        | .whole n =>
            match w.ofInt? n with
            | some x => .ok (x, rest)
            | none => .error (.mismatch (.invalidValue (.integer n) w.name))
      else refuse w.name (b :: rest)

/-- The elements of an array up to its end, those in `done` before them, last first. The first
argument bounds the steps; the number of bytes is always enough. -/
def readElements (read : Bytes → Except Fault (α × Bytes)) :
    (fuel : Nat) → (first : Bool) → Bytes → (done : List α) → Except Fault (List α × Bytes)
  | 0, _, _, _ => .error .truncated
  | fuel+1, first, bs, done =>
      match nextElement first bs with
      | .error e => .error e
      | .ok none => (endArray bs).map (done.reverse, ·)
      | .ok (some element) =>
          match read element with
          | .error e => .error e
          | .ok (x, rest) => readElements read fuel false rest (x :: done)

def readList (read : Bytes → Except Fault (α × Bytes)) (bs : Bytes) :
    Except Fault (List α × Bytes) :=
  match skipBlanks bs with
  | [] => .error .truncated
  | b :: rest =>
      if b = 0x5b then readElements read bs.length true rest [] else refuse "a sequence" (b :: rest)

def readOptional (read : Bytes → Except Fault (α × Bytes)) (bs : Bytes) :
    Except Fault (Option α × Bytes) :=
  match skipBlanks bs with
  | [] => .error .truncated
  | b :: rest =>
      if b = 0x6e then (keyword [0x75, 0x6c, 0x6c] rest).map (none, ·)
      else (read (b :: rest)).map fun (x, rest) => (some x, rest)

/-- Values between brackets, with a comma between two. -/
def between (opening closing : Bytes) (items : List Bytes) : Bytes :=
  opening ++ (List.intersperse [0x2c] items).flatten ++ closing

end Json

namespace Shape

def readJson : (s : Shape) → Bytes → Except Fault (s.Val × Bytes)
  | .text => Json.readText
  | .bool => Json.readBool
  | .word w => Json.readWord w
  | .list item => Json.readList (readJson item)
  | .optional item => Json.readOptional (readJson item)

def toJson : (s : Shape) → s.Val → Bytes
  | .text, x => Json.writeString x
  | .bool, x => Utf8.ofString (if x then "true" else "false")
  | .word w, x => Json.writeInt (w.toInt x)
  | .list item, xs => Json.between [0x5b] [0x5d] (xs.map (toJson item))
  | .optional _, none => Utf8.ofString "null"
  | .optional item, some x => toJson item x

end Shape

namespace Layout

/-- What an array of the fields' values is called where it is too short. -/
def expectation (l : Layout) : String :=
  let elements := if l.fields.length = 1 then "element" else "elements"
  s!"struct {l.name} with {l.fields.length} {elements}"

/-- Reads the fields from the elements of an array, the first of them at position `index`. -/
def readElements (expected : String) :
    (fs : List Field) → (index : Nat) → Bytes → Except Fault (Field.Vals fs × Bytes)
  | [], _, bs => .ok ((), bs)
  | f :: fs, index, bs => do
      match ← Json.nextElement (index = 0) bs with
      | some element =>
          let (x, rest) ← f.shape.readJson element
          let (xs, rest) ← readElements expected fs (index + 1) rest
          .ok ((x, xs), rest)
      | none =>
          match f.default? with
          | none => .error (.mismatch (.invalidLength index expected))
          | some x =>
              let (xs, rest) ← readElements expected fs (index + 1) bs
              .ok ((x, xs), rest)

/-- Reads the members of an object up to its end. The first argument bounds the steps; the number
of bytes is always enough. -/
def readMembers (l : Layout) :
    (fuel : Nat) → (first : Bool) → Field.Slots l.fields → Bytes →
      Except Fault (Field.Slots l.fields × Bytes)
  | 0, _, _, _ => .error .truncated
  | fuel+1, first, slots, bs => do
      match ← Json.nextKey first bs with
      | none => .ok (slots, bs)
      | some key =>
          let (name, rest) ← Json.string key
          if Field.isRead name l.fields slots then .error (.mismatch (.duplicateField name))
          else
            let read (s : Shape) : Except Fault (s.Val × Bytes) := do
              s.readJson (← Json.colon rest)
            match Field.readNamed read name l.fields slots with
            | some step =>
                let (slots, rest) ← step
                readMembers l fuel false slots rest
            | none =>
                if l.closed then
                  .error (.mismatch (.unknownField name (l.fields.map Field.name)))
                else
                  let rest ← Json.skipValue (← Json.colon rest)
                  readMembers l fuel false slots rest

def readJson (l : Layout) (bs : Bytes) : Except Fault (l.Val × Bytes) :=
  match Json.skipBlanks bs with
  | [] => .error .truncated
  | b :: rest => do
      if b = 0x5b then
        let (xs, rest) ← readElements l.expectation l.fields 0 rest
        .ok (xs, ← Json.endArray rest)
      else if b = 0x7b then
        let (slots, rest) ← l.readMembers bs.length true (Field.noSlots l.fields) rest
        match Field.close l.fields slots with
        | .error name => .error (.mismatch (.missingField name))
        | .ok xs => .ok (xs, ← Json.endObject rest)
      else Json.refuse s!"struct {l.name}" (b :: rest)

def members (separator : Bytes) : (fs : List Field) → Field.Vals fs → List Bytes
  | [], () => []
  | f :: fs, (x, xs) =>
      (Json.writeString f.name ++ separator ++ f.shape.toJson x) :: members separator fs xs

def toJson (l : Layout) (x : l.Val) : Bytes :=
  Json.between [0x7b] [0x7d] (members [0x3a] l.fields x)

/-- One member a line, two blanks before each. -/
def toPrettyJson (l : Layout) (x : l.Val) : Bytes :=
  let lines := (members [0x3a, 0x20] l.fields x).map ([0x0a, 0x20, 0x20] ++ ·)
  Json.between [0x7b] [0x0a, 0x7d] lines

end Layout

namespace Form

def readJson : (f : Form) → Bytes → Except Fault (f.Val × Bytes)
  | .bare w => Json.readWord w
  | .fields l => l.readJson

def toJson : (f : Form) → f.Val → Bytes
  | .bare w, x => Shape.toJson (.word w) x
  | .fields l, x => l.toJson x

/-- A whole document: one value, with nothing but blanks around it. -/
def ofJson (f : Form) (bs : Bytes) : Except Fault f.Val := do
  let (x, rest) ← f.readJson bs
  if (Json.skipBlanks rest).isEmpty then .ok x else .error .malformed

end Form
end ObjectGraph
