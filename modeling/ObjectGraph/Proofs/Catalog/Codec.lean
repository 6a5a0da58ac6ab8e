import ObjectGraph.Catalog.Codec
import ObjectGraph.Proofs.Layout.Foreign

/-! Records of the catalog survive both of their byte forms (`Catalog.decode_of_encode`), which tell
their types apart (`Catalog.kind_of_decode`). -/
namespace ObjectGraph

theorem Encoding.decode_of_encode {e : Encoding} {l : Layout} (hl : l.Faithful) {xs : l.Val}
    {bs : Bytes} (h : e.encode (.fields l) xs = .ok bs) (hb : bs.length < 2 ^ 64) :
    e.decode (.fields l) bs = .ok xs := by
  cases e with
  | cbor =>
    have hbytes : Cbor.encode (l.toCbor xs) = .ok bs := by
      simp only [encode, Form.toCbor] at h
      rcases hc : Cbor.encode (l.toCbor xs) with fault | bs' <;> rw [hc] at h <;> cases h
      rfl
    obtain ⟨v, hv, hx⟩ := Layout.ofCbor_decode hl xs hbytes hb
    have hform : (Form.fields l).ofCbor v = .ok xs := hx
    simp only [decode, hv, Except.mapError, bind, Except.bind, hform]
  | json =>
    obtain rfl : l.toJson xs = bs := Except.ok.inj h
    simp only [decode, Layout.ofJson_toJson hl, Except.mapError]

namespace Catalog

theorem Record.faithful_layout (k : Kind) : (layout k).Faithful where
  names := by cases k <;> decide
  shapes f hf := by
    cases k <;> simp only [layout, fields, List.mem_cons, List.not_mem_nil, or_false] at hf <;>
      rcases hf with rfl | rfl | rfl <;> trivial

/-- A record is decoded from its bytes as what it was. -/
theorem decode_of_encode {e : Encoding} {r : Record} {bs : Bytes} {m : Nat}
    (h : (codec e).encode m r = .ok bs) (hb : bs.length < 2 ^ 64) (n : Nat) :
    (codec e).decode n r.kind bs = .ok r := by
  have hfields := Encoding.decode_of_encode (Record.faithful_layout r.kind) h hb
  simp only [codec, hfields, Except.map, Record.ofFields_toFields]

/-- Each record type has a field that a record of another type lacks. -/
theorem Record.lacks_layout {k k' : Kind} (h : k ≠ k') : (layout k).Lacks (layout k') where
  shapes := by
    have hall : ∀ k ∈ Kind.all, ∀ k' ∈ Kind.all, ∀ f ∈ fields k, ∀ g ∈ fields k',
        g.name = f.name → g.shape = f.shape := by decide
    exact hall k k.mem_all k' k'.mem_all
  missing := by
    have hall : ∀ k ∈ Kind.all, ∀ k' ∈ Kind.all, k ≠ k' → ∃ g ∈ fields k',
        g.name ∉ (fields k).map Field.name ∧ g.leftOut?.isNone := by decide
    obtain ⟨g, hg, hname, hneeds⟩ := hall k k.mem_all k' k'.mem_all h
    exact ⟨g, hg, hname, Option.isNone_iff_eq_none.1 hneeds⟩

/-- The bytes of a record are decoded as its own type alone. -/
theorem kind_of_decode {e : Encoding} {r r' : Record} {bs : Bytes} {m n : Nat} {k : Kind}
    (h : (codec e).encode m r = .ok bs) (hb : bs.length < 2 ^ 64)
    (hd : (codec e).decode n k bs = .ok r') : k = r.kind := by
  by_contra hne
  obtain ⟨xs, hxs, -⟩ := map_eq_ok.1 hd
  exact Encoding.decode_of_lacks (Record.faithful_layout r.kind) (Record.faithful_layout k)
    (Record.lacks_layout (Ne.symm hne)) h hb xs hxs

end Catalog
end ObjectGraph
