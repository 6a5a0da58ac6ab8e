import ObjectGraph.Container
import ObjectGraph.Layout

/-! Containers as records themselves. -/
namespace ObjectGraph.Container

def layout : Layout where
  name := "WireContainer"
  fields := [⟨"format_version", .word .u32, none⟩, ⟨"records", .list (.list (.word .u8)), none⟩,
    ⟨"type_names", .optional (.list .text), none⟩]

def toFields (c : Container) : layout.Val := (c.formatVersion, c.records, c.typeNames, ())

def ofFields : layout.Val → Container
  | (formatVersion, records, typeNames, ()) => ⟨formatVersion, records, typeNames⟩

@[simp] theorem ofFields_toFields (c : Container) : ofFields c.toFields = c := rfl

@[simp] theorem toFields_ofFields (x : layout.Val) : (ofFields x).toFields = x := rfl

end ObjectGraph.Container
