import ObjectGraph.Catalog.Flattening
import ObjectGraph.Catalog.Heap
import ObjectGraph.Catalog.Rebuilding
import ObjectGraph.Container.Envelope

/-! Flattens a graph into an envelope and rebuilds it from there, under one codec and one set of
limits. -/
namespace ObjectGraph.Catalog

structure Copy where
  container : Container
  envelope : Bytes
  /-- The container as the envelope gives it. -/
  reread : Container
  session : Rebuilding
  root : Rebuild.Address

inductive CopyError where
  | serialize (e : Graph.Error)
  | intoContainer (e : Graph.Error)
  | toBytes (e : Container.Error)
  | ofBytes (e : Container.Error)
  | start (e : Graph.Error)
  | rebuild (e : Graph.Error)

structure Calls where
  encodes : Nat := 0
  decodes : Nat := 0

def reopen (c : Codec Kind Record) (limits : Limits) (kind : Kind) (encodes : Nat)
    (container : Container) (envelope : Bytes) : Except CopyError Copy × Calls :=
  match Container.ofBytes limits envelope with
  | .error e => (.error (.ofBytes e), { encodes })
  | .ok reread =>
      match Rebuild.Session.start reread limits with
      | .error e => (.error (.start e), { encodes })
      | .ok (session : Rebuilding) =>
          match session.request rebuildSchema c (.root kind (.empty kind)) with
          | (.error e, session) => (.error (.rebuild e), ⟨encodes, session.decodes⟩)
          | (.ok root, session) =>
              (.ok ⟨container, envelope, reread, session, root⟩, ⟨encodes, session.decodes⟩)

def copy (c : Codec Kind Record) (limits : Limits) (names : Bool) (h : Heap) (root : Nat) :
    Except CopyError Copy × Calls :=
  let session : Flatten.Session Nat Record := { limits }
  match session.serialize flattenSchema h.cell root with
  | (.error e, _) => (.error (.serialize e), {})
  | (.ok _, session) =>
      match session.finish c names with
      | (.error e, encodes) => (.error (.intoContainer e), { encodes })
      | (.ok container, encodes) =>
          match container.toBytes with
          | .error e => (.error (.toBytes e), { encodes })
          | .ok envelope =>
              reopen c limits (h.cell root).content.kind encodes container envelope

end ObjectGraph.Catalog
