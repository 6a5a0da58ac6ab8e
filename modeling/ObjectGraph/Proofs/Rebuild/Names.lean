import ObjectGraph.Proofs.Rebuild.Twins

/-! What type names can do to a session: nothing while they are not checked and no hook acts on them
(`Schema.Blind.lockstep`), and nothing as long as every record is looked up under the name that the
container has for it (`Pairing.named`). -/
namespace ObjectGraph.Rebuild

variable {κ ν ρ α : Type}

namespace Pairing

open Session

variable {P : Pairing κ ν} [NodeType κ] {s s' : Session κ ν}

omit [NodeType κ] in
theorem eq_of_start {c : Container} {limits : Limits} (hs : start c limits = .ok s) :
    s.container = c ∧ s.limits = limits := by
  unfold start at hs
  split at hs <;> cases hs
  exact ⟨rfl, rfl⟩

/-- What a caller sees of two sessions, but for names: whether they have failed, which records have
nodes, and what these are. -/
structure LooksLike (Same : ν → ν → Prop) (s s' : Session κ ν) : Prop where
  failed : s.failed = s'.failed
  materialized : s.materializedCount = s'.materializedCount
  entries : ∀ id, s.table.entry? id = s'.table.entry? id
  nodes : ∀ node : Address, Option.Rel (fun n n' => n.kind = n'.kind ∧ Same n.content n'.content)
    s.nodes[node]? s'.nodes[node]?

theorem Twins.looksLike (h : P.Twins s s') : LooksLike P.Same s s' where
  failed := h.failed
  materialized := by rw [materializedCount, materializedCount, h.table]
  entries id := by rw [h.table]
  nodes node := by
    have hn := h.nodes node
    generalize s.nodes[node]? = x at hn ⊢
    generalize s'.nodes[node]? = y at hn ⊢
    cases hn with
    | none => exact .none
    | some hn => exact .some ⟨hn.kind, hn.content⟩

/-- Two sessions that do not check names, on the records of the first. -/
def between {Same : ν → ν → Prop} (hrefl : ∀ content, Same content content)
    (s s' : Session κ ν) : Pairing κ ν where
  records := s.container.records
  names := s.typeName?
  names' := s'.typeName?
  Admits _ _ := True
  Same := Same
  same_refl := hrefl

/-- Two sessions on one container. A look-up is admitted under the name that the container has for
the record, if it has one. -/
def named (s : Session κ ν) : Pairing κ ν where
  records := s.container.records
  names := s.typeName?
  names' := s.typeName?
  Admits kind id := ∀ name, s.typeName? id = some name → name = typeName kind
  Same := Eq
  same_refl _ := rfl

theorem checkTypeName_of_named {kind : κ} {id : RecordId} {index : Nat}
    (hi : id.index? = some index)
    (ha : ∀ name, s.typeName? id = some name → name = typeName kind) :
    s.checkTypeName kind id index = .ok () := by
  unfold checkTypeName
  split
  · next found _ hfound =>
    have hname : s.typeName? id = some found := by simp [Session.typeName?, hi, hfound]
    rw [if_pos (ha found hname)]
  · rfl

theorem checkTypeName_of_unverified (hv : s.limits.verifyTypeNames = false) (kind : κ)
    (id : RecordId) (index : Nat) : s.checkTypeName kind id index = .ok () := by
  unfold checkTypeName
  rw [hv]

omit [NodeType κ] in
theorem Retold.eq {e e' : Graph.Error} (h : P.Retold e e') (hn : P.names = P.names') : e = e' := by
  cases h with
  | same => rfl
  | mismatch => rw [hn]

/-- Sessions that know the same names and go through the same steps differ in their limits only. -/
theorem Twins.eq (h : P.Twins s s') (hn : P.names = P.names') (hsame : P.Same = Eq)
    (hc : s.container = s'.container) : s' = { s with limits := s'.limits } := by
  have htrace : s.trace = s'.trace := by
    refine List.forall₂_eq_eq_eq ▸ h.trace.imp fun e e' he => ?_
    cases he with
    | same => rfl
    | refused failed he => rw [he.eq hn]
  have hnodes : s.nodes = s'.nodes := by
    refine Array.ext_getElem? fun node => ?_
    have hnode := h.nodes node
    generalize s.nodes[node]? = x at hnode ⊢
    generalize s'.nodes[node]? = y at hnode ⊢
    cases hnode with
    | none => rfl
    | @some n n' hlike =>
      obtain ⟨hkind, hcontent, hbusy⟩ := hlike
      rw [hsame] at hcontent
      cases n
      cases n'
      cases hkind
      cases hcontent
      cases hbusy
      rfl
  rw [hc, h.table, hnodes, h.depth, h.failed, htrace]

theorem Lockstep.eq {r r' : Except Graph.Error α × Session κ ν} (h : P.Lockstep r r')
    (hn : P.names = P.names') (hsame : P.Same = Eq) (hc : r.2.container = r'.2.container) :
    r'.1 = r.1 ∧ r'.2 = { r.2 with limits := r'.2.limits } := by
  refine ⟨?_, h.twins.eq hn hsame hc⟩
  cases h with
  | ok => rfl
  | error he => rw [he.eq hn]

end Pairing

/-- No hook acts on the names of types, neither those that a session tells nor those in a refusal,
but to put them into contents where the relation does not see them. -/
structure Schema.Blind (schema : Schema κ ν ρ) (Same : ν → ν → Prop) : Prop where
  refl : ∀ content, Same content content
  tracks : ∀ P : Pairing κ ν, P.Same = Same → (∀ kind id, P.Admits kind id) →
    ∀ start record, P.Tracks (schema.hook start record) (schema.hook start record)

namespace Schema.Blind

open Session

variable [NodeType κ] [DecidableEq κ] {schema : Schema κ ν ρ} {Same : ν → ν → Prop}
  {c c' : Container} {limits : Limits} {s s' : Session κ ν}

/-- Sessions on the same records that do not check names are answered alike, whatever names each of
them knows. -/
theorem lockstep (hb : schema.Blind Same) (codec : Codec κ ρ) (hv : limits.verifyTypeNames = false)
    (hrecords : c.records = c'.records) (hs : start c limits = .ok s)
    (hs' : start c' limits = .ok s') (calls : List (Call κ ν)) :
    let P := Pairing.between hb.refl s s'
    P.Twins (s.after schema codec calls) (s'.after schema codec calls) ∧
      ∀ call, P.Lockstep ((s.after schema codec calls).request schema codec call)
        ((s'.after schema codec calls).request schema codec call) := by
  intro P
  obtain ⟨hc, hl⟩ := Pairing.eq_of_start hs
  obtain ⟨hc', hl'⟩ := Pairing.eq_of_start hs'
  have htracked : P.Tracked schema codec := fun _ _ _ _ _ start record _ _ _ _ =>
    hb.tracks P rfl (fun _ _ => trivial) start record
  have hfirst : P.Twins s s' := by
    refine Pairing.twins_of_start hs hs' ⟨hc ▸ rfl, ?_⟩ ⟨rfl, rfl⟩ rfl fun _ _ => ⟨?_, ?_⟩
    · rw [← hrecords, ← hc]
      rfl
    · exact Pairing.checkTypeName_of_unverified (hl ▸ hv) _ _ _
    · exact Pairing.checkTypeName_of_unverified (hl' ▸ hv) _ _ _
  have hall (call : Call κ ν) : call.Asks P.Admits := call.asks_of_all fun _ _ => trivial
  have htwins := Pairing.twins_after htracked calls (fun call _ => hall call) hfirst
  exact ⟨htwins, fun call => Pairing.lockstep_request htracked (hall call) htwins⟩

end Schema.Blind
end ObjectGraph.Rebuild
