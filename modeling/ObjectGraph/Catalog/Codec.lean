import ObjectGraph.Catalog.Item
import ObjectGraph.Codec
import ObjectGraph.Graph.Error

/-! Codecs for the records of the catalog. -/
namespace ObjectGraph.Catalog

instance : NodeType Kind := ⟨Kind.typeName⟩

def codec (e : Encoding) : Codec Kind Record where
  name := e.name
  encode _ r := e.encode (.fields (Record.layout r.kind)) r.toFields
  decode _ k bs := (e.decode (.fields (Record.layout k)) bs).map (Record.ofFields k)

def countingCodec : Codec Kind Record := (codec .cbor).rename "counting-cbor"

def failingCodec (encodeAt decodeAt : Option Nat) : Codec Kind Record :=
  ((codec .cbor).failing encodeAt decodeAt).rename "failing-cbor"

end ObjectGraph.Catalog
