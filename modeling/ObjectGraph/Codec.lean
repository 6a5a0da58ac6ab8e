import ObjectGraph.Encoding

/-! Codecs of records. A codec may depend on how many records it has encoded or decoded before, so
that failures can be placed. -/
namespace ObjectGraph

/-- Encodes records `ρ`, and decodes them as records of a type in `κ`. -/
structure Codec (κ ρ : Type) where
  name : String
  encode : (calls : Nat) → ρ → Except Encoding.Error Bytes
  decode : (calls : Nat) → κ → Bytes → Except Encoding.Error ρ

namespace Codec

variable {κ ρ : Type}

def cbor (toItem : ρ → Except Encoding.Error Cbor.Value)
    (ofItem : κ → Cbor.Value → Except Encoding.Error ρ) : Codec κ ρ where
  name := Encoding.cbor.name
  encode _ r := do (Cbor.encode (← toItem r)).mapError .canonical
  decode _ k bs := do ofItem k (← (Cbor.decode bs).mapError .canonical)

def rename (c : Codec κ ρ) (name : String) : Codec κ ρ := { c with name }

/-- The codec, except that the encoding and the decoding after so many others fail. -/
def failing (c : Codec κ ρ) (encodeAt decodeAt : Option Nat) : Codec κ ρ where
  name := c.name
  encode calls r :=
    if encodeAt = some calls then .error (.other s!"injected encode failure #{calls}")
    else c.encode calls r
  decode calls k bs :=
    if decodeAt = some calls then .error (.other s!"injected decode failure #{calls}")
    else c.decode calls k bs

end Codec
end ObjectGraph
