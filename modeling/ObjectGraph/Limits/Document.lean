import ObjectGraph.Layout.Json
import ObjectGraph.Limits

/-! Limits as JSON documents. Fields left out keep their defaults, other fields are refused, and so
are limits that no session can run under. -/
namespace ObjectGraph.Limits

def layout : Layout where
  name := "EngineConfig"
  fields :=
    let base : Limits := {}
    [⟨"max_records", .word .u32, some base.maxRecords⟩,
      ⟨"max_record_len", .word .size, some base.maxRecordLen⟩,
      ⟨"max_type_name_len", .word .size, some base.maxTypeNameLen⟩,
      ⟨"max_depth", .word .size, some base.maxDepth⟩,
      ⟨"verify_type_names", .bool, some base.verifyTypeNames⟩]
  closed := true

def toFields (limits : Limits) : layout.Val :=
  (limits.maxRecords, limits.maxRecordLen, limits.maxTypeNameLen, limits.maxDepth,
    limits.verifyTypeNames, ())

def ofFields : layout.Val → Limits
  | (maxRecords, maxRecordLen, maxTypeNameLen, maxDepth, verifyTypeNames, ()) =>
      ⟨maxRecords, maxRecordLen, maxTypeNameLen, maxDepth, verifyTypeNames⟩

@[simp] theorem ofFields_toFields (limits : Limits) : ofFields limits.toFields = limits := rfl

@[simp] theorem toFields_ofFields (x : layout.Val) : (ofFields x).toFields = x := rfl

inductive DocumentError where
  | json (fault : Json.Fault)
  | invalid (fault : Invalid)
  deriving DecidableEq, Repr

def toDocument (limits : Limits) : Bytes := layout.toPrettyJson limits.toFields

def ofDocument (bs : Bytes) : Except DocumentError Limits := do
  let x ← ((Form.fields layout).ofJson bs).mapError .json
  let limits := ofFields x
  limits.validate.mapError .invalid
  .ok limits

end ObjectGraph.Limits
