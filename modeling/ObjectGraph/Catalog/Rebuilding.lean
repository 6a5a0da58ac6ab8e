import ObjectGraph.Catalog.Codec
import ObjectGraph.Rebuild.Session

/-! How nodes of the catalog are filled from records: every number is replaced by its node, field by
field. A lenient node leaves out what is absent or refused, and keeps a log. -/
namespace ObjectGraph.Catalog

open Rebuild (Hook Address)

inductive Outcome where
  | node
  | nil
  | refused (e : Graph.Error)
  deriving DecidableEq, Repr

/-- A rebuilt node, with the log of its edges if it is lenient. -/
structure Built where
  item : Content Address
  log : List Outcome := []
  deriving DecidableEq, Repr

def Built.empty (k : Kind) : Built := ⟨.empty k, []⟩

def finish (item : Content Address) : Hook Kind Built := .assign ⟨item, []⟩ .done

/-- Sets a node without its only reference, then resolves that. -/
def fillOption (kind : Kind) (id : RecordId) (item : Option Address → Content Address) :
    Hook Kind Built :=
  .assign ⟨item none, []⟩ (.call (.resolve kind id (.empty kind)) (.orFail fun node =>
    finish (item node)))

/-- Sets a node without its list of references, then resolves that. -/
def fillAll (kind : Kind) (ids : List RecordId) (item : List Address → Content Address) :
    Hook Kind Built :=
  .assign ⟨item [], []⟩ (.call (.all kind ids) (.orFail fun nodes => finish (item nodes)))

/-- Follows edges in order, behind those in `edges` and their outcomes in `log`, last first. -/
def fillLenient (label : String) : (ids : List RecordId) → (edges : List Address) →
    (log : List Outcome) → Hook Kind Built
  | [], edges, log => .assign ⟨.lenient label edges.reverse, log.reverse⟩ .done
  | id :: ids, edges, log =>
      .call (.resolve .lenient id (.empty .lenient)) fun
        | .ok (some node) => fillLenient label ids (node :: edges) (.node :: log)
        | .ok none => fillLenient label ids edges (.nil :: log)
        | .error e => fillLenient label ids edges (.refused e :: log)

def Record.fill : Record → Hook Kind Built
  | .peer label other => fillOption .peer other (.peer label)
  | .player name rating deck => fillOption .deck deck (.player name rating)
  | .deck title owner => fillOption .player owner (.deck title)
  | .vertex tag edges => fillAll .vertex edges (.vertex tag)
  | .ability name archetype => finish (.ability name archetype)
  | .card name cost abilities => fillAll .ability abilities (.card name cost)
  | .cardList abilities cards =>
      .call (.all .ability abilities) (.orFail fun abilities =>
        fillAll .card cards (.cardList abilities))
  | .lenient label edges => fillLenient label edges [] []

def rebuildSchema : Rebuild.Schema Kind Built Record where
  empty := .empty
  hook _ r := r.fill

abbrev Rebuilding := Rebuild.Session Kind Built

/-- What the node at an address holds. Beyond the last one there are peers without a name. -/
def Rebuilding.built (s : Rebuilding) (node : Address) : Built :=
  match s.nodes[node]? with
  | some n => n.content
  | none => .empty .peer

end ObjectGraph.Catalog
