import ObjectGraph.Graph.Error

/-! Node types of plain values, which refer to nothing. -/
namespace ObjectGraph.Catalog

inductive Scalar where
  | byte
  | text
  | unit
  deriving DecidableEq, Repr

def Scalar.typeName : Scalar → String
  | .byte => "u8"
  | .text => "alloc::string::String"
  | .unit => "()"

instance : NodeType Scalar := ⟨Scalar.typeName⟩

end ObjectGraph.Catalog
