import ObjectGraph.Layout.Mismatch
import ObjectGraph.Text.Utf8

/-! The words of a JSON document: blanks, keywords and strings. A reader takes the bytes and returns
what it read with the bytes after it; the first fault in the document is the one reported. -/
namespace ObjectGraph.Json

inductive Fault where
  /-- The document ends too early. -/
  | truncated
  /-- The bytes are not JSON. -/
  | malformed
  /-- Well-formed so far, but of another type than asked for. -/
  | mismatch (m : Mismatch)
  deriving DecidableEq, Repr

def isBlank (b : UInt8) : Bool := b = 0x20 ∨ b = 0x09 ∨ b = 0x0a ∨ b = 0x0d

def skipBlanks (bs : Bytes) : Bytes := bs.dropWhile isBlank

def keyword : (word : Bytes) → Bytes → Except Fault Bytes
  | [], bs => .ok bs
  | _ :: _, [] => .error .truncated
  | w :: word, b :: bs => if b = w then keyword word bs else .error .malformed

def hexValue? (b : UInt8) : Option Nat :=
  if 0x30 ≤ b ∧ b ≤ 0x39 then some (b.toNat - 0x30)
  else if 0x41 ≤ b ∧ b ≤ 0x46 then some (b.toNat - 0x37)
  else if 0x61 ≤ b ∧ b ≤ 0x66 then some (b.toNat - 0x57)
  else none

def hexQuad : Bytes → Except Fault (Nat × Bytes)
  | a :: b :: c :: d :: rest =>
      match hexValue? a, hexValue? b, hexValue? c, hexValue? d with
      | some a, some b, some c, some d => .ok (((a * 16 + b) * 16 + c) * 16 + d, rest)
      | _, _, _, _ => .error .malformed
  | _ => .error .truncated

def isHighSurrogate (n : Nat) : Bool := 0xd800 ≤ n ∧ n < 0xdc00

def isLowSurrogate (n : Nat) : Bool := 0xdc00 ≤ n ∧ n < 0xe000

def utf8Char (n : Nat) : Bytes := String.utf8EncodeChar (Char.ofNat n)

/-- The character after `\u`. One outside the basic plane is a pair of surrogates, each escaped. -/
def unicodeEscape (bs : Bytes) : Except Fault (Bytes × Bytes) := do
  let (n, rest) ← hexQuad bs
  if isLowSurrogate n then .error .malformed
  else if isHighSurrogate n then
    let rest ← keyword [0x5c, 0x75] rest
    let (m, rest) ← hexQuad rest
    if isLowSurrogate m then .ok (utf8Char ((n - 0xd800) * 0x400 + (m - 0xdc00) + 0x10000), rest)
    else .error .malformed
  else .ok (utf8Char n, rest)

/-- The byte that a letter after a backslash stands for. -/
def simpleEscape? (b : UInt8) : Option UInt8 :=
  if b = 0x22 ∨ b = 0x5c ∨ b = 0x2f then some b
  else if b = 0x62 then some 0x08
  else if b = 0x66 then some 0x0c
  else if b = 0x6e then some 0x0a
  else if b = 0x72 then some 0x0d
  else if b = 0x74 then some 0x09
  else none

/-- What follows a backslash, as the bytes it stands for. -/
def escape : Bytes → Except Fault (Bytes × Bytes)
  | [] => .error .truncated
  | b :: bs =>
      if b = 0x75 then unicodeEscape bs
      else match simpleEscape? b with
        | some c => .ok ([c], bs)
        | none => .error .malformed

/-- As `escape`, for text that is passed over: surrogates need no partner. -/
def skipEscape : Bytes → Except Fault (Bytes × Bytes)
  | [] => .error .truncated
  | b :: bs =>
      if b = 0x75 then (hexQuad bs).map fun (_, rest) => ([], rest)
      else match simpleEscape? b with
        | some _ => .ok ([], bs)
        | none => .error .malformed

/-- The bytes of a string up to its closing quote, those in `done` before them, last first. The
first argument bounds the steps; the number of bytes is always enough. -/
def stringBytes (escape : Bytes → Except Fault (Bytes × Bytes)) :
    (fuel : Nat) → Bytes → (done : Bytes) → Except Fault (Bytes × Bytes)
  | 0, _, _ => .error .truncated
  | _, [], _ => .error .truncated
  | fuel+1, b :: bs, done =>
      if b = 0x22 then .ok (done.reverse, bs)
      else if b = 0x5c then
        match escape bs with
        | .error e => .error e
        | .ok (written, rest) => stringBytes escape fuel rest (written.reverse ++ done)
      else if b < 0x20 then .error .malformed
      else stringBytes escape fuel bs (b :: done)

/-- The rest of a string whose opening quote has been read. -/
def string (bs : Bytes) : Except Fault (String × Bytes) := do
  let (data, rest) ← stringBytes escape bs.length bs []
  match Utf8.toText data with
  | .ok s => .ok (s, rest)
  | .error _ => .error .malformed

def skipString (bs : Bytes) : Except Fault Bytes :=
  (stringBytes skipEscape bs.length bs []).map Prod.snd

/-- A byte of a string as it is written: escaped if it is a quote, a backslash or a control. -/
def writeByte (b : UInt8) : Bytes :=
  if b = 0x22 ∨ b = 0x5c then [0x5c, b]
  else if b = 0x08 then [0x5c, 0x62]
  else if b = 0x0c then [0x5c, 0x66]
  else if b = 0x0a then [0x5c, 0x6e]
  else if b = 0x0d then [0x5c, 0x72]
  else if b = 0x09 then [0x5c, 0x74]
  else if b < 0x20 then
    [0x5c, 0x75, 0x30, 0x30] ++ Utf8.encode (Hex.padded 2 b.toNat)
  else [b]

def writeString (s : String) : Bytes := 0x22 :: (Utf8.ofString s).flatMap writeByte ++ [0x22]

end ObjectGraph.Json
