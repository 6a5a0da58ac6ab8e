import ObjectGraph.Bytes
import ObjectGraph.Text.Hex
import ObjectGraph.Text.Printable
import ObjectGraph.Text.Quoted
import ObjectGraph.Text.Utf8
import ObjectGraph.Binary64
import ObjectGraph.Binary64.Rounding
import ObjectGraph.Decimal.Shortest
import ObjectGraph.Decimal.Style
import ObjectGraph.Cbor.Value
import ObjectGraph.Cbor.Encode
import ObjectGraph.Cbor.Decode
import ObjectGraph.Cbor.Metered
import ObjectGraph.Json.Lexer
import ObjectGraph.Json.Number
import ObjectGraph.Json.Skip
import ObjectGraph.Layout
import ObjectGraph.Layout.Mismatch
import ObjectGraph.Layout.Cbor
import ObjectGraph.Layout.Json
import ObjectGraph.Encoding
import ObjectGraph.Codec
import ObjectGraph.RecordId
import ObjectGraph.Limits
import ObjectGraph.Limits.Document
import ObjectGraph.Wire.Error
import ObjectGraph.Wire.Item
import ObjectGraph.Wire.Writer
import ObjectGraph.Wire.Reader
import ObjectGraph.Wire.Cursor
import ObjectGraph.Container
import ObjectGraph.Container.Envelope
import ObjectGraph.Container.Document
import ObjectGraph.Graph.Error
import ObjectGraph.Borrow
import ObjectGraph.Numbering
import ObjectGraph.Memory
import ObjectGraph.Custody
import ObjectGraph.Registry
import ObjectGraph.NodeTable
import ObjectGraph.Flatten.Hook
import ObjectGraph.Flatten.Session
import ObjectGraph.Rebuild.Hook
import ObjectGraph.Rebuild.Session
import ObjectGraph.Catalog.Kind
import ObjectGraph.Catalog.Item
import ObjectGraph.Catalog.Scalar
import ObjectGraph.Catalog.Codec
import ObjectGraph.Catalog.Flattening
import ObjectGraph.Catalog.Rebuilding
import ObjectGraph.Catalog.Heap
import ObjectGraph.Catalog.Fixtures
import ObjectGraph.Catalog.Listing
import ObjectGraph.Catalog.RoundTrip
import ObjectGraph.Handles.Heap
import ObjectGraph.Handles
import ObjectGraph.Proofs.Outcomes
import ObjectGraph.Proofs.Text.Utf8
import ObjectGraph.Proofs.Binary64.Widths
import ObjectGraph.Proofs.Cbor.Head
import ObjectGraph.Proofs.Cbor.Float
import ObjectGraph.Proofs.Cbor.Encode
import ObjectGraph.Proofs.Cbor.Grammar
import ObjectGraph.Proofs.Cbor.Reading
import ObjectGraph.Proofs.Cbor.Equivalence
import ObjectGraph.Proofs.Cbor.ReadBack
import ObjectGraph.Proofs.Cbor.Canonical
import ObjectGraph.Proofs.Wire.Fields
import ObjectGraph.Proofs.Wire.Programs
import ObjectGraph.Proofs.Container.Envelope
import ObjectGraph.Proofs.Container.Acceptance
import ObjectGraph.Proofs.Container.Delimiting
import ObjectGraph.Proofs.Layout.Slots
import ObjectGraph.Proofs.Layout.Cbor
import ObjectGraph.Proofs.Json.Words
import ObjectGraph.Proofs.Layout.Json
import ObjectGraph.Proofs.Layout.Objects
import ObjectGraph.Proofs.Limits.Document
import ObjectGraph.Proofs.Graph.Search
import ObjectGraph.Proofs.Graph.Walk
import ObjectGraph.Proofs.NodeTable
import ObjectGraph.Proofs.Numbering
import ObjectGraph.Proofs.Custody
import ObjectGraph.Proofs.Registry
import ObjectGraph.Proofs.Rebuild.Poison
import ObjectGraph.Proofs.Rebuild.Parts
import ObjectGraph.Proofs.Rebuild.Bookkeeping
import ObjectGraph.Proofs.Rebuild.Faults
import ObjectGraph.Proofs.Rebuild.Frozen
import ObjectGraph.Proofs.Catalog.References
import ObjectGraph.Proofs.Catalog.Codec
import ObjectGraph.Proofs.Catalog.Preorder
import ObjectGraph.Proofs.Catalog.Packing
import ObjectGraph.Proofs.Catalog.Filling
import ObjectGraph.Proofs.Catalog.Discovery
import ObjectGraph.Proofs.Catalog.Denotation
import ObjectGraph.Proofs.Catalog.RoundTrip
import ObjectGraph.Proofs.Catalog.Verdict
import ObjectGraph.Proofs.Flatten.Renaming
import ObjectGraph.Proofs.Catalog.Canonical
import ObjectGraph.Proofs.Flatten.Parts
import ObjectGraph.Proofs.Flatten.Growth
import ObjectGraph.Proofs.Flatten.Entry
import ObjectGraph.Proofs.Flatten.Roots
import ObjectGraph.Proofs.Flatten.Opening
import ObjectGraph.Proofs.Flatten.Hooks
import ObjectGraph.Proofs.Flatten.Faults
import ObjectGraph.Proofs.Json.Skip
import ObjectGraph.Proofs.Layout.Foreign
import ObjectGraph.Proofs.Catalog.Normalisation
import ObjectGraph.Proofs.Cbor.Writable
import ObjectGraph.Proofs.Cbor.Delimiting
import ObjectGraph.Proofs.Binary64.Values
import ObjectGraph.Proofs.Cbor.Syntax
import ObjectGraph.Proofs.Rebuild.Twins
import ObjectGraph.Proofs.Rebuild.Names
import ObjectGraph.Proofs.Flatten.Sources
import ObjectGraph.Proofs.Catalog.Sources
import ObjectGraph.Proofs.Catalog.Names
import ObjectGraph.Proofs.Catalog.Hooks
import ObjectGraph.Proofs.Catalog.Faults
import ObjectGraph.Proofs.Encoding
import ObjectGraph.Catalog.Dismantling
import ObjectGraph.Proofs.Catalog.Dismantling
import ObjectGraph.Placement
import ObjectGraph.Proofs.Handles.Actions
import ObjectGraph.Proofs.Handles.Cycles
import ObjectGraph.Proofs.Limits.Usable
import ObjectGraph.Proofs.Placement
import ObjectGraph.Proofs.Catalog.Meshes
import ObjectGraph.Proofs.Wire.Cursor
import ObjectGraph.Proofs.Cbor.Size
import ObjectGraph.Proofs.Flatten.Fallbacks
import ObjectGraph.Proofs.Rebuild.Fallbacks
import ObjectGraph.Proofs.Fallbacks
