import ObjectGraph.Limits.Document
import ObjectGraph.Proofs.Catalog.Packing
import ObjectGraph.Proofs.Cbor.Encode
import ObjectGraph.Proofs.Flatten.Entry
import ObjectGraph.Proofs.Rebuild.Parts

/-! Which limits some graph can be flattened and rebuilt under. No record is encoded as nothing, so
one byte is the least that a limit on records must leave (`usable_iff`), and one byte is enough
for a flag. -/
namespace ObjectGraph

open Flatten.Session (serialize)

/-- A graph of one node, of any type: how nodes of its type become records and are filled from
them, how records are mapped to CBOR items and back, what the node holds, and what the one that is
rebuilt holds at first. -/
structure LoneNode where
  Kind : Type
  [decidableKind : DecidableEq Kind]
  [namedKind : NodeType Kind]
  Content : Type
  Built : Type
  Record : Type
  flatten : Flatten.Schema Unit Content Record
  rebuild : Rebuild.Schema Kind Built Record
  toItem : Record → Except Encoding.Error Cbor.Value
  ofItem : Kind → Cbor.Value → Except Encoding.Error Record
  content : Content
  kind : Kind
  start : Built

attribute [instance] LoneNode.decidableKind LoneNode.namedKind

namespace LoneNode

def codec (g : LoneNode) : Codec g.Kind g.Record := .cbor g.toItem g.ofItem

def heap (g : LoneNode) (_ : Unit) : Flatten.Cell g.Content := { content := g.content }

/-- The node is flattened under the limits, and rebuilt under them from its container. -/
def Survives (g : LoneNode) (limits : Limits) : Prop :=
  ∃ id s c, ∃ d d' : Rebuild.Session g.Kind g.Built, ∃ node,
    serialize g.flatten g.heap () { limits } = (.ok id, s) ∧
    s.intoContainer g.codec false = .ok c ∧
    Rebuild.Session.start c limits = .ok d ∧
    d.request g.rebuild g.codec (.root g.kind g.start) = (.ok node, d')

end LoneNode

/-- Limits that some graph of one node goes through under. -/
def Limits.Usable (limits : Limits) : Prop := ∃ g : LoneNode, g.Survives limits

namespace LoneNode

variable {g : LoneNode} {limits : Limits}

theorem codec_ne_nil (calls : Nat) {r : g.Record} {bs : Bytes}
    (h : g.codec.encode calls r = .ok bs) : bs ≠ [] := by
  obtain ⟨v, -, hv⟩ := bind_eq_ok.1 h
  exact Cbor.encode_ne_nil (mapError_eq_ok.1 hv)

/-- A root is refused where there is no number for it, or no hook may run. -/
theorem limits_of_serialize {id : RecordId} {s : Flatten.Session Unit g.Record}
    (h : serialize g.flatten g.heap () { limits } = (.ok id, s)) :
    limits.maxRecords ≠ 0 ∧ limits.maxDepth ≠ 0 := by
  have hvisit : Flatten.Session.visit g.flatten g.heap limits.maxDepth.toNat ()
      { limits, rootTaken := true } = (.ok id, s) := h
  constructor
  · rintro hzero
    have hrefused : ({} : Numbering Unit).register () limits.maxRecords =
        .error (.tooManyObjects limits.maxRecords) := by
      rw [Numbering.register_first, if_pos hzero]
    cases hlevels : limits.maxDepth.toNat with
    | zero =>
      rw [hlevels] at hvisit
      cases hvisit
    | succ levels =>
      rw [hlevels, Flatten.Session.visit, Flatten.Session.known] at hvisit
      simp only [Numbering.lookup, List.lookup_nil, Flatten.Session.welcome, hrefused] at hvisit
      cases hvisit
  · intro hzero
    rw [hzero] at hvisit
    cases hvisit

theorem maxRecordLen_ne_zero {s : Flatten.Session Unit g.Record} (hs : s.limits = limits)
    {c : Container} (hc : s.intoContainer g.codec false = .ok c) (hempty : c.records ≠ []) :
    limits.maxRecordLen ≠ 0 := by
  intro hzero
  obtain ⟨bs, hbs⟩ := List.exists_mem_of_ne_nil _ hempty
  obtain ⟨k, hk⟩ := List.mem_iff_getElem?.1 hbs
  obtain ⟨p, -, hencode, hshort⟩ := (Flatten.Session.packed_of_intoContainer hc).1.records k bs hk
  have hlength := List.length_pos_iff.2 (codec_ne_nil k hencode)
  rw [hs, hzero] at hshort
  exact absurd (hlength.trans_le hshort) (lt_irrefl 0)

/-- An empty container has no root. -/
theorem records_of_request {c : Container} {d d' : Rebuild.Session g.Kind g.Built}
    {node : Rebuild.Address} (hstart : Rebuild.Session.start c limits = .ok d)
    (h : d.request g.rebuild g.codec (.root g.kind g.start) = (.ok node, d')) :
    c.records ≠ [] := by
  intro hnone
  have hd : d.container = c := by
    unfold Rebuild.Session.start at hstart
    split at hstart <;> cases hstart
    rfl
  have hempty : d.container.isEmpty = true := by rw [hd, Container.isEmpty, hnone]; rfl
  simp only [Rebuild.Session.request, Rebuild.Session.perform, Rebuild.Session.answer, hempty,
    if_true] at h
  cases h

theorem toNat_pos {x : UInt64} (h : x ≠ 0) : 0 < x.toNat :=
  Nat.pos_of_ne_zero fun hzero => h (UInt64.toNat_inj.1 hzero)

/-- A node that refers to nothing and holds a flag, which is also its record. -/
def flag : LoneNode where
  Kind := Unit
  namedKind := ⟨fun _ => "Flag"⟩
  Content := Bool
  Built := Bool
  Record := Bool
  flatten := ⟨fun _ => "Flag", .done⟩
  rebuild := ⟨fun _ => false, fun _ r => .assign r .done⟩
  toItem x := .ok (Shape.bool.toCbor x)
  ofItem _ v := (Shape.bool.ofCbor v).mapError .layout
  content := false
  kind := ()
  start := false

def flagContainer : Container := { records := [[0xf4]] }

def flagSession (limits : Limits) : Flatten.Session Unit flag.Record where
  limits := limits
  numbering := { assigned := [((), .root)], last := some .root }
  records := #[some ⟨"Flag", false⟩]
  rootTaken := true
  trace := [.left .root, .entered .root 0]

theorem serialize_flag (hrecords : limits.maxRecords ≠ 0) (hdepth : limits.maxDepth ≠ 0) :
    serialize flag.flatten flag.heap () { limits } =
      (.ok .root, flagSession limits) := by
  obtain ⟨levels, hlevels⟩ := Nat.exists_eq_add_one.2 (toNat_pos hdepth)
  have hregister : ({} : Numbering Unit).register () limits.maxRecords =
      .ok (.root, { assigned := [((), .root)], last := some .root }) := by
    rw [Numbering.register_first, if_neg hrecords]
  simp only [serialize, hlevels, Flatten.Session.visit, Flatten.Session.known, Numbering.lookup,
    List.lookup_nil, Flatten.Session.welcome, hregister]
  rfl

theorem intoContainer_flag (hlength : limits.maxRecordLen ≠ 0) :
    (flagSession limits).intoContainer flag.codec false = .ok flagContainer := by
  have hfits : Flatten.Session.encodeRecord flag.codec limits 0 .root
      ⟨"Flag", false⟩ = .ok [0xf4] := by
    have hencode : flag.codec.encode 0 false = .ok [0xf4] := rfl
    simp only [Flatten.Session.encodeRecord, hencode]
    exact if_neg (not_lt.2 (toNat_pos hlength))
  have hroot : (RecordId.ofIndex? 0).getD .nil = .root := rfl
  have hslot : ((flagSession limits).records[0]?).join =
      some ⟨"Flag", false⟩ := rfl
  have hrows : Flatten.Session.encodeRecords flag.codec (flagSession limits) 1 0 [] =
      (.ok [("Flag", [0xf4])], 1) := by
    simp only [Flatten.Session.encodeRecords, hroot, hslot]
    rw [show (flagSession limits).limits = limits from rfl, hfits]
    rfl
  have hcount : (flagSession limits).objectCount = 1 := rfl
  simp only [Flatten.Session.intoContainer, Flatten.Session.finish, hcount, hrows]
  rfl

def flagOpened (limits : Limits) : Rebuild.Session flag.Kind flag.Built :=
  { limits, container := flagContainer, table := .withCapacity 1 }

theorem start_flag (hrecords : limits.maxRecords ≠ 0) (hlength : limits.maxRecordLen ≠ 0) :
    Rebuild.Session.start flagContainer limits = .ok (flagOpened limits) := by
  have hvalid : flagContainer.validate limits = .ok () := by
    refine Container.validate_eq_ok rfl rfl ?_ fun bs hbs => ?_
    · exact Nat.pos_of_ne_zero fun hzero => hrecords (UInt32.toNat_inj.1 hzero)
    · obtain rfl := List.mem_singleton.1 hbs
      exact toNat_pos hlength
  simp only [Rebuild.Session.start, hvalid]
  rfl

theorem request_flag (hdepth : limits.maxDepth ≠ 0) :
    ∃ node d', (flagOpened limits).request flag.rebuild flag.codec
      (.root flag.kind flag.start) = (.ok node, d') := by
  obtain ⟨levels, hlevels⟩ := Nat.exists_eq_add_one.2 (toNat_pos hdepth)
  -- There are no type names to be checked, whatever the limits say of them.
  have hname : (flagOpened limits).checkTypeName flag.kind .root 0 = .ok () := by
    unfold Rebuild.Session.checkTypeName
    cases (flagOpened limits).limits.verifyTypeNames <;> rfl
  have hlookUp : (flagOpened limits).lookUp flag.kind .root = .inr [0xf4] := by
    have hindex : RecordId.root.index? = some 0 := rfl
    have hempty : (flagOpened limits).table.get flag.kind .root = .ok none := rfl
    have hrecord : (flagOpened limits).container.records[0]? = some [0xf4] := rfl
    simp only [Rebuild.Session.lookUp, hindex, hempty, hrecord, hname]
  have hdecode : flag.codec.decode (flagOpened limits).decodes flag.kind [0xf4] =
      .ok false := rfl
  have hmaxDepth : (flagOpened limits).limits.maxDepth.toNat = levels + 1 := hlevels
  have hresolve := Rebuild.Session.resolve_eq_guard flag.rebuild flag.codec (levels + 1)
  refine ⟨0, ?_⟩
  simp only [Rebuild.Session.request, hmaxDepth, hresolve, Rebuild.Session.perform,
    Rebuild.Session.answer, Rebuild.Session.guard, Rebuild.Session.find_eq, hlookUp, hdecode,
    Rebuild.Session.freshAt]
  exact ⟨_, rfl⟩

theorem survives_flag (hrecords : limits.maxRecords ≠ 0) (hdepth : limits.maxDepth ≠ 0)
    (hlength : limits.maxRecordLen ≠ 0) : flag.Survives limits := by
  obtain ⟨node, d', hrequest⟩ := request_flag hdepth
  exact ⟨_, _, _, _, d', node, serialize_flag hrecords hdepth, intoContainer_flag hlength,
    start_flag hrecords hlength, hrequest⟩

end LoneNode

namespace Limits

/-- Limits can be used exactly if they leave room for a record, for a hook, and for a byte. -/
theorem usable_iff (limits : Limits) :
    limits.Usable ↔ limits.maxRecords ≠ 0 ∧ limits.maxDepth ≠ 0 ∧ limits.maxRecordLen ≠ 0 := by
  constructor
  · rintro ⟨g, id, s, c, d, d', node, hserialize, hcontainer, hstart, hrequest⟩
    obtain ⟨hrecords, hdepth⟩ := LoneNode.limits_of_serialize hserialize
    have hlimits : s.limits = limits := by
      have hkeeps := (Flatten.Session.keeps_visit g.flatten g.heap limits.maxDepth.toNat ()
        { limits, rootTaken := true }).limits
      rwa [show Flatten.Session.visit g.flatten g.heap limits.maxDepth.toNat ()
        { limits, rootTaken := true } = (.ok id, s) from hserialize] at hkeeps
    have hne : c.records ≠ [] := LoneNode.records_of_request hstart hrequest
    exact ⟨hrecords, hdepth, LoneNode.maxRecordLen_ne_zero hlimits hcontainer hne⟩
  · rintro ⟨hrecords, hdepth, hlength⟩
    exact ⟨.flag, LoneNode.survives_flag hrecords hdepth hlength⟩

theorem nonzero_of_validate {limits : Limits} (h : limits.validate = .ok ()) :
    limits.maxRecords ≠ 0 ∧ limits.maxDepth ≠ 0 := by
  unfold validate at h
  split_ifs at h with hrecords _ hdepth
  exact ⟨hrecords, hdepth⟩

theorem validate_of_ofDocument {bs : Bytes} {limits : Limits} (h : ofDocument bs = .ok limits) :
    limits.validate = .ok () := by
  obtain ⟨x, -, hx⟩ := bind_eq_ok.1 h
  obtain ⟨⟨⟩, hvalid, hlimits⟩ := bind_eq_ok.1 hx
  cases hlimits
  exact mapError_eq_ok.1 hvalid

/-- Limits that pass the check are sure to leave room for a record and for a hook, but not for a
byte: they can be used exactly if they do. Limits read from a document have passed the check. -/
theorem accepted_usable_iff (limits : Limits) :
    (limits.validate = .ok () → (limits.Usable ↔ limits.maxRecordLen ≠ 0)) ∧
    ∀ bs : Bytes, ofDocument bs = .ok limits → limits.validate = .ok () := by
  constructor
  · intro hvalid
    obtain ⟨hrecords, hdepth⟩ := nonzero_of_validate hvalid
    rw [usable_iff]
    exact ⟨fun h => h.2.2, fun hlength => ⟨hrecords, hdepth, hlength⟩⟩
  · intro bs h
    exact validate_of_ofDocument h

/-- An empty document gives limits that can be used, and so do limits of one byte to a record. -/
theorem usable_of_empty_document :
    (ofDocument (Utf8.ofString "\x7b\x7d") = .ok {} ∧ Usable {}) ∧
    validate { maxRecordLen := 1 } = .ok () ∧ Usable { maxRecordLen := 1 } := by
  have hdocument : ofDocument (Utf8.ofString "\x7b\x7d") = .ok {} := by decide +kernel
  have hvalid : validate { maxRecordLen := 1 } = .ok () := by decide
  obtain ⟨husable, hread⟩ := accepted_usable_iff {}
  refine ⟨⟨hdocument, (husable (hread _ hdocument)).2 (by decide)⟩, hvalid, ?_⟩
  exact ((accepted_usable_iff _).1 hvalid).2 (by decide)

/-- The check passes limits of no bytes to a record, and no graph goes through under them. -/
theorem not_every_accepted_usable :
    ¬ ∀ limits : Limits, limits.validate = .ok () → limits.Usable := by
  intro hall
  have husable : Usable { maxRecordLen := 0 } := hall _ (by decide)
  obtain ⟨-, -, hlength⟩ := (usable_iff _).1 husable
  exact hlength rfl

end Limits
end ObjectGraph
