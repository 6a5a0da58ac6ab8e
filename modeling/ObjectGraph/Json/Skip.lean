import ObjectGraph.Json.Number

/-! Passes over a JSON value that nothing asks for. Its shape is checked, its meaning is not:
neither the range of numbers nor the encoding of text matters. -/
namespace ObjectGraph.Json

/-- Digits, of which there is one at least. -/
def skipDigits1 (bs : Bytes) : Except Fault Bytes :=
  if startsWithDigit bs then .ok (skipDigits 0 bs).2 else .error .malformed

def skipExponent (bs : Bytes) : Except Fault Bytes :=
  match bs with
  | b :: rest => skipDigits1 (if b = 0x2b ∨ b = 0x2d then rest else bs)
  | [] => .error .malformed

def skipFraction (bs : Bytes) : Except Fault Bytes := do
  let bs ← match bs with
    | b :: rest => if b = 0x2e then skipDigits1 rest else .ok bs
    | [] => .ok []
  match bs with
  | b :: rest => if b = 0x65 ∨ b = 0x45 then skipExponent rest else .ok bs
  | [] => .ok []

def skipUnsigned (bs : Bytes) : Except Fault Bytes :=
  match bs with
  | [] => .error .malformed
  | b :: rest =>
      if b = 0x30 then
        if startsWithDigit rest then .error .malformed else skipFraction rest
      else do
        let rest ← skipDigits1 bs
        skipFraction rest

def skipNumber (bs : Bytes) : Except Fault Bytes :=
  match bs with
  | b :: rest => if b = 0x2d then skipUnsigned rest else skipUnsigned bs
  | [] => .error .malformed

/-- Where the next element of an array starts, or none at its end. `first` says that no element has
been read. -/
def nextElement (first : Bool) (bs : Bytes) : Except Fault (Option Bytes) :=
  match skipBlanks bs with
  | [] => .error .truncated
  | b :: rest =>
      if b = 0x5d then .ok none
      else if first then .ok (some (b :: rest))
      else if b = 0x2c then
        match skipBlanks rest with
        | [] => .error .truncated
        | c :: rest => if c = 0x5d then .error .malformed else .ok (some (c :: rest))
      else .error .malformed

/-- What follows the opening quote of the next key of an object, or none at its end. -/
def nextKey (first : Bool) (bs : Bytes) : Except Fault (Option Bytes) :=
  match skipBlanks bs with
  | [] => .error .truncated
  | b :: rest =>
      if b = 0x7d then .ok none
      else if first then if b = 0x22 then .ok (some rest) else .error .malformed
      else if b = 0x2c then
        match skipBlanks rest with
        | [] => .error .truncated
        | c :: rest => if c = 0x22 then .ok (some rest) else .error .malformed
      else .error .malformed

/-- The end of an array: any further element is one too many. -/
def endArray (bs : Bytes) : Except Fault Bytes :=
  match skipBlanks bs with
  | [] => .error .truncated
  | b :: rest => if b = 0x5d then .ok rest else .error .malformed

def endObject (bs : Bytes) : Except Fault Bytes :=
  match skipBlanks bs with
  | [] => .error .truncated
  | b :: rest => if b = 0x7d then .ok rest else .error .malformed

def colon (bs : Bytes) : Except Fault Bytes :=
  match skipBlanks bs with
  | [] => .error .truncated
  | b :: rest => if b = 0x3a then .ok rest else .error .malformed

inductive Bracket where
  | array
  | object
  deriving DecidableEq

/-- Passes over what is left of the open brackets, innermost first. `first` says that nothing stands
behind the innermost one yet. The first argument bounds the steps; the number of bytes is always
enough. -/
def skipOpen : (fuel : Nat) → List Bracket → (first : Bool) → Bytes → Except Fault Bytes
  | _, [], _, bs => .ok bs
  | 0, _ :: _, _, _ => .error .truncated
  | fuel+1, .array :: outer, first, bs => do
      match ← nextElement first bs with
      | none => skipOpen fuel outer false (← endArray bs)
      | some value =>
          let (opened, rest) ← skipScalar value
          skipOpen fuel (opened ++ .array :: outer) (!opened.isEmpty) rest
  | fuel+1, .object :: outer, first, bs => do
      match ← nextKey first bs with
      | none => skipOpen fuel outer false (← endObject bs)
      | some key =>
          let (opened, rest) ← skipScalar (← colon (← skipString key))
          skipOpen fuel (opened ++ .object :: outer) (!opened.isEmpty) rest
where
  /-- A scalar, or the opening of an array or object. -/
  skipScalar (bs : Bytes) : Except Fault (List Bracket × Bytes) :=
    match skipBlanks bs with
    | [] => .error .truncated
    | b :: rest =>
        if b = 0x6e then (keyword [0x75, 0x6c, 0x6c] rest).map ([], ·)
        else if b = 0x74 then (keyword [0x72, 0x75, 0x65] rest).map ([], ·)
        else if b = 0x66 then (keyword [0x61, 0x6c, 0x73, 0x65] rest).map ([], ·)
        else if startsNumber b then (skipNumber (b :: rest)).map ([], ·)
        else if b = 0x22 then (skipString rest).map ([], ·)
        else if b = 0x5b then .ok ([.array], rest)
        else if b = 0x7b then .ok ([.object], rest)
        else .error .malformed

def skipValue (bs : Bytes) : Except Fault Bytes := do
  let (opened, rest) ← skipOpen.skipScalar bs
  skipOpen (bs.length + 1) opened true rest

end ObjectGraph.Json
