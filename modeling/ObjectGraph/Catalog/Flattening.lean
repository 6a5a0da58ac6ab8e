import ObjectGraph.Catalog.Item
import ObjectGraph.Flatten.Session

/-! How nodes of the catalog become records: every reference is replaced by its number, field by
field. A lenient node writes the absent number for a node that is refused. -/
namespace ObjectGraph.Catalog

open Flatten (Hook)

/-- The numbers of the nodes that are not refused, and the absent number for the others. -/
def lenientIds : (edges : List α) → (ids : List RecordId) →
    (next : List RecordId → Hook α Record) → Hook α Record
  | [], ids, next => next ids.reverse
  | node :: edges, ids, next =>
      .serialize node fun
        | .ok id => lenientIds edges (id :: ids) next
        | .error _ => lenientIds edges (.nil :: ids) next

def Content.flatten : Content α → Hook α Record
  | .peer label other => .serializeOption other (.orFail fun id => .done (.peer label id))
  | .player name rating deck =>
      .serializeOption deck (.orFail fun id => .done (.player name rating id))
  | .deck title owner => .serializeOption owner (.orFail fun id => .done (.deck title id))
  | .vertex tag edges => .serializeAll edges [] (.orFail fun ids => .done (.vertex tag ids))
  | .ability name archetype => .done (.ability name archetype)
  | .card name cost abilities =>
      .serializeAll abilities [] (.orFail fun ids => .done (.card name cost ids))
  | .cardList abilities cards =>
      .serializeAll abilities [] (.orFail fun abilities =>
        .serializeAll cards [] (.orFail fun cards => .done (.cardList abilities cards)))
  | .lenient label edges => lenientIds edges [] fun ids => .done (.lenient label ids)

def flattenSchema : Flatten.Schema α (Content α) Record where
  typeName content := content.kind.typeName
  hook := Content.flatten

end ObjectGraph.Catalog
