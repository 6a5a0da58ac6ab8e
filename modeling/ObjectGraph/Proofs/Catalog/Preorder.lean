import ObjectGraph.Catalog.Flattening
import ObjectGraph.Proofs.Catalog.References
import ObjectGraph.Proofs.Graph.Walk

/-! A pass over a graph of catalog nodes is its depth-first preorder: numbers are positions in the
order of discovery, and the first node in that order that breaks a limit, or is being written to,
fails the pass (`serialize_of_clear`, `serialize_of_fault`). -/
namespace ObjectGraph

open ObjectGraph.Graph (Runs Search Walk visitAll firstFault)

namespace Numbering

variable {α : Type} [DecidableEq α]

/-- A numbering of exactly these nodes. -/
structure Lists (n : Numbering α) (number : α → RecordId) (nodes : List α) : Prop where
  lookup : ∀ a, n.lookup a = if a ∈ nodes then some (number a) else none
  next : n.next = nodes.length
  size : n.size = nodes.length

theorem lists_nil (number : α → RecordId) : ({} : Numbering α).Lists number [] where
  lookup _ := rfl
  next := rfl
  size := rfl

variable {n : Numbering α} {number : α → RecordId} {nodes : List α} {node : α} (limit : UInt32)

theorem Lists.register_full (h : n.Lists number nodes) (hn : node ∉ nodes)
    (hl : limit.toNat ≤ nodes.length) : n.register node limit = .error (.tooManyObjects limit) := by
  have hnext := h.next
  simp only [register, h.lookup, if_neg hn]
  rw [if_pos (.inl (hnext ▸ hl))]

/-- Below the limit, a new node gets its position as its number. -/
theorem Lists.register_new (h : n.Lists number nodes) (hn : node ∉ nodes)
    (hl : nodes.length < limit.toNat) :
    ∃ m : Numbering α, n.register node limit = .ok (⟨UInt32.ofNat nodes.length⟩, m) ∧
      (number node = ⟨UInt32.ofNat nodes.length⟩ → m.Lists number (nodes ++ [node])) := by
  have hnext := h.next
  have hlimit := limit.toNat_lt
  have hnil : RecordId.nil.raw.toNat = 2 ^ 32 - 1 := by decide
  refine ⟨⟨(node, ⟨UInt32.ofNat nodes.length⟩) :: n.assigned, some ⟨UInt32.ofNat nodes.length⟩⟩,
    ?_, fun hnumber => ⟨fun a => ?_, ?_, ?_⟩⟩
  · simp only [register, h.lookup, if_neg hn]
    rw [if_neg (by omega), hnext]
  · have hold := h.lookup a
    by_cases ha : a = node
    · subst ha
      simp [Numbering.lookup, hnumber]
    · unfold Numbering.lookup at hold ⊢
      rw [List.lookup_cons, beq_eq_false_iff_ne.2 ha, hold]
      simp [ha]
  · have hraw : (UInt32.ofNat nodes.length).toNat = nodes.length := by
      rw [UInt32.toNat_ofNat']
      omega
    simp [Numbering.next, hraw]
  · have hsize := h.size
    simp only [Numbering.size] at hsize ⊢
    simp [hsize]

end Numbering

namespace Catalog

open Flatten (Cell Hook Pending Session)
open Flatten.Session (runHook visit)

variable {α : Type} [DecidableEq α]

/-- The number of a node: its position in the order of discovery. -/
def position (order : List (α × Nat)) (node : α) : RecordId :=
  ⟨UInt32.ofNat ((order.map Prod.fst).idxOf node)⟩

theorem position_discovered {order seen : List (α × Nat)} {p : α × Nat}
    (hd : (order.map Prod.fst).Nodup) (hp : seen ++ [p] <+: order) :
    position order p.1 = ⟨UInt32.ofNat seen.length⟩ := by
  have hfront := hp.map Prod.fst
  have hk : ((seen ++ [p]).map Prod.fst)[seen.length]? = some p.1 := by simp
  unfold position
  rw [Graph.idxOf_of_prefix (hfront.sublist.nodup hd) hfront hk]

section Hooks

omit [DecidableEq α]

variable {visit : Session.Visit α Record} {s s' : Session α Record}

theorem runHook_serializeAll (next : Except Graph.Error (List RecordId) → Hook α Record)
    (nodes : List α) (ids : List RecordId) :
    runHook visit (.serializeAll nodes ids next) s =
      match visitAll visit nodes s with
      | (.error e, s) => runHook visit (next (.error e)) s
      | (.ok more, s) => runHook visit (next (.ok (ids.reverse ++ more))) s := by
  induction nodes generalizing ids s with
  | nil => simp [Hook.serializeAll, visitAll]
  | cons node nodes ih =>
    unfold Hook.serializeAll
    rw [runHook, visitAll]
    rcases visit node s with ⟨e | id, t⟩
    · rfl
    · dsimp only
      rw [ih]
      rcases visitAll visit nodes t with ⟨e | more, u⟩
      · rfl
      · simp

variable (visit) in
/-- The hook of a node that is not lenient gives up where a target is refused, and else replaces
every target by its number. -/
theorem runHook_flatten {c : Content α} (hc : c.kind ≠ .lenient) (s : Session α Record) :
    match visitAll visit c.targets s with
    | (.error e, s') => runHook visit c.flatten s = (.error e, s')
    | (.ok ids, s') => ∀ number : α → RecordId, ids = c.targets.map number →
        runHook visit c.flatten s = (.ok (c.toRecord number), s') := by
  cases c with
  | lenient => exact absurd rfl hc
  | ability =>
    intro number _
    rfl
  | peer _ other | player _ _ other | deck _ other =>
    cases other with
    | none =>
      intro number _
      rfl
    | some node =>
      simp only [Content.targets, Option.toList, Graph.visitAll_singleton, Content.flatten,
        Hook.serializeOption, runHook]
      rcases visit node s with ⟨e | id, t⟩
      · rfl
      · intro number hid
        obtain rfl : id = number node := by simpa using hid
        rfl
  | vertex _ nodes | card _ _ nodes =>
    simp only [Content.targets, Content.flatten, runHook_serializeAll]
    rcases visitAll visit nodes s with ⟨e | ids, t⟩
    · rfl
    · rintro number rfl
      rfl
  | cardList abilities cards =>
    simp only [Content.targets, Graph.visitAll_append, Content.flatten, runHook_serializeAll]
    rcases hfirst : visitAll visit abilities s with ⟨e | ids, t⟩
    · rfl
    · simp only [Hook.orFail, runHook_serializeAll]
      rcases visitAll visit cards t with ⟨e | ids', u⟩
      · rfl
      · intro number hids
        rw [List.map_append] at hids
        obtain ⟨rfl, rfl⟩ := List.append_inj hids (by simp [Graph.length_of_visitAll hfirst])
        rfl

end Hooks

section Pass

variable (heap : α → Cell (Content α)) (limits : Limits) (whole : List (α × Nat))

/-- Why a pass refuses a new node at a position of the order of discovery and at its depth. -/
def violation (index : Nat) (p : α × Nat) : Option Graph.Error :=
  if limits.maxDepth.toNat ≤ p.2 then some (.depthLimit limits.maxDepth)
  else if limits.maxRecords.toNat ≤ index then some (.tooManyObjects limits.maxRecords)
  else if (heap p.1).borrow.isExclusive then some (.nodeBorrowed ⟨UInt32.ofNat index⟩)
  else none

def recordOf (node : α) : Pending Record :=
  ⟨(heap node).content.kind.typeName, (heap node).content.toRecord (position whole)⟩

/-- A pass that has numbered `seen`, of which the hooks of `opened` are under way. -/
structure Numbered (seen : List (α × Nat)) (opened : List α) (s : Session α Record) : Prop where
  limits : s.limits = limits
  numbering : s.numbering.Lists (position whole) (seen.map Prod.fst)
  underway : ∀ a ∈ opened, a ∈ seen.map Prod.fst
  size : s.records.size = seen.length
  records : ∀ (k : Nat) (p : α × Nat), seen[k]? = some p →
    s.records[k]? = some (if p.1 ∈ opened then none else some (recordOf heap whole p.1))

def pass : Walk α RecordId Graph.Error (Session α Record) where
  targets node := (heap node).content.targets
  Admits _ := True
  limit := limits.maxDepth.toNat
  visit := visit flattenSchema heap
  check seen p := violation heap limits seen.length p
  answer := position whole
  whole := whole
  Stage := Numbered heap limits whole

variable {heap limits whole} {seen : List (α × Nat)} {opened : List α} {s : Session α Record}
  {node : α}

theorem Numbered.lookup_met (h : Numbered heap limits whole seen opened s)
    (hn : node ∈ seen.map Prod.fst) : s.numbering.lookup node = some (position whole node) := by
  rw [h.numbering.lookup, if_pos hn]

theorem Numbered.lookup_new (h : Numbered heap limits whole seen opened s)
    (hn : node ∉ seen.map Prod.fst) : s.numbering.lookup node = none := by
  rw [h.numbering.lookup, if_neg hn]

/-- A visit of a node without a number, where a further hook is allowed. -/
theorem visit_new (h : Numbered heap limits whole seen opened s) (hn : node ∉ seen.map Prod.fst)
    (levels : Nat) :
    visit flattenSchema heap (levels + 1) node s =
      Session.welcome flattenSchema heap (visit flattenSchema heap levels) node s := by
  unfold visit
  rw [Session.known, h.lookup_new hn]

/-- What a visit does once the node has its number. -/
theorem welcome_new {visit : Session.Visit α Record} {numbering : Numbering α}
    (hr : s.numbering.register node s.limits.maxRecords =
      .ok (⟨UInt32.ofNat seen.length⟩, numbering))
    (hl : seen.length < limits.maxRecords.toNat) :
    Session.welcome flattenSchema heap visit node s =
      match Session.produce flattenSchema visit ⟨UInt32.ofNat seen.length⟩ (heap node)
          { s with numbering, records := s.records.push none } with
      | (.error e, s) => (.error e, s)
      | (.ok record, s) => (.ok ⟨UInt32.ofNat seen.length⟩,
          s.store seen.length ⟨(heap node).content.kind.typeName, record⟩) := by
  have hlimit := limits.maxRecords.toNat_lt
  have hraw : (UInt32.ofNat seen.length).toNat = seen.length := by
    rw [UInt32.toNat_ofNat']
    omega
  have hindex : (⟨UInt32.ofNat seen.length⟩ : RecordId).index? = some seen.length := by
    refine RecordId.index?_eq_some.2 ⟨?_, hraw⟩
    intro hc
    have hnil := congrArg (fun id => id.raw.toNat) hc
    have hmax : RecordId.nil.raw.toNat = 2 ^ 32 - 1 := by decide
    simp only [hraw, hmax] at hnil
    omega
  unfold Session.welcome
  rw [hr]
  dsimp only
  rw [hindex]
  dsimp only
  rcases Session.produce flattenSchema visit ⟨UInt32.ofNat seen.length⟩ (heap node) _ with
    ⟨e | record, t⟩ <;> rfl

omit [DecidableEq α] in
theorem produce_of_runHook {visit : Session.Visit α Record} {id : RecordId}
    {cell : Cell (Content α)} (hb : cell.borrow.isExclusive = false)
    {outcome : Except Graph.Error Record} {s' : Session α Record}
    (h : runHook visit cell.content.flatten (s.enter id) = (outcome, s')) :
    Session.produce flattenSchema visit id cell s = (outcome, s'.leave id) := by
  unfold Session.produce
  rw [hb]
  simp only [Bool.false_eq_true, if_false, flattenSchema, h]

/-- A node that has just got its number has no record yet. -/
theorem Numbered.push (h : Numbered heap limits whole seen opened s)
    (hn : node ∉ seen.map Prod.fst) {numbering : Numbering α} (depth : Nat)
    (hl : numbering.Lists (position whole) (seen.map Prod.fst ++ [node])) :
    Numbered heap limits whole (seen ++ [(node, depth)]) (node :: opened)
      { s with numbering, records := s.records.push none } where
  limits := h.limits
  numbering := by simpa using hl
  underway a ha := by
    rcases List.mem_cons.1 ha with rfl | ha
    · simp
    · rw [List.map_append]
      exact List.mem_append_left _ (h.underway a ha)
  size := by simp [h.size]
  records k p hk := by
    rw [Array.getElem?_push, h.size]
    rcases Nat.lt_trichotomy k seen.length with hlt | rfl | hgt
    · rw [List.getElem?_append_left hlt] at hk
      have hne : p.1 ≠ node := fun he => hn (he ▸ List.mem_map_of_mem (List.mem_of_getElem? hk))
      rw [if_neg (by omega), h.records k p hk]
      simp [hne]
    · obtain rfl : (node, depth) = p := by simpa using hk
      simp
    · rw [List.getElem?_eq_none (by simp; omega)] at hk
      cases hk

/-- A node whose hook is done has its record. -/
theorem Numbered.store {more : List (α × Nat)} {depth : Nat} {record : Pending Record}
    (h : Numbered heap limits whole (seen ++ (node, depth) :: more) (node :: opened) s)
    (hd : ((seen ++ (node, depth) :: more).map Prod.fst).Nodup)
    (ho : ∀ a ∈ opened, a ∈ seen.map Prod.fst) (hr : record = recordOf heap whole node) :
    Numbered heap limits whole (seen ++ (node, depth) :: more) opened
      (s.store seen.length record) where
  limits := h.limits
  numbering := h.numbering
  underway a ha := h.underway a (List.mem_cons_of_mem _ ha)
  size := by simp [Session.store, h.size]
  records k p hk := by
    have hmid : (seen ++ (node, depth) :: more)[seen.length]? = some (node, depth) := by simp
    have hsize := h.size
    simp only [Session.store, Array.getElem?_setIfInBounds]
    by_cases hks : seen.length = k
    · subst hks
      obtain rfl : (node, depth) = p := by simpa using hk
      have hfree : node ∉ opened := by
        intro hm
        rw [List.map_append, List.nodup_append] at hd
        exact hd.2.2 _ (ho node hm) _ (by simp) rfl
      rw [if_pos rfl, if_pos (by simp [hsize]), if_neg hfree, hr]
    · have hne : p.1 ≠ node := by
        intro he
        have hk' : ((seen ++ (node, depth) :: more).map Prod.fst)[k]? = some node := by
          rw [List.getElem?_map, hk, Option.map_some, he]
        have hmid' : ((seen ++ (node, depth) :: more).map Prod.fst)[seen.length]? = some node := by
          rw [List.getElem?_map, hmid, Option.map_some]
        exact hks ((List.getElem?_inj (by simp) hd).1 (hmid'.trans hk'.symm))
      rw [if_neg hks, h.records k p hk]
      simp [hne]

theorem Numbered.enter (h : Numbered heap limits whole seen opened s) (id : RecordId) :
    Numbered heap limits whole seen opened (s.enter id) :=
  ⟨h.limits, h.numbering, h.underway, h.size, h.records⟩

theorem Numbered.leave (h : Numbered heap limits whole seen opened s) (id : RecordId) :
    Numbered heap limits whole seen opened (s.leave id) :=
  ⟨h.limits, h.numbering, h.underway, h.size, h.records⟩

omit [DecidableEq α] in
theorem violation_eq_none {index : Nat} {p : α × Nat} :
    violation heap limits index p = none ↔ p.2 < limits.maxDepth.toNat ∧
      index < limits.maxRecords.toNat ∧ (heap p.1).borrow.isExclusive = false := by
  unfold violation
  split_ifs with hd hr hb
  · simp [hd]
  · simp [hr]
  · simp [hb]
  · simp [hb]
    omega

/-- The first violation of a new node is the fault of its visit. -/
theorem visit_violation (h : Numbered heap limits whole seen opened s)
    (hn : node ∉ seen.map Prod.fst) {levels : Nat} {e : Graph.Error}
    (hl : levels + opened.length = limits.maxDepth.toNat)
    (hc : violation heap limits seen.length (node, opened.length) = some e) :
    ∃ s', visit flattenSchema heap levels node s = (.error e, s') := by
  unfold violation at hc
  cases levels with
  | zero =>
    rw [if_pos (show limits.maxDepth.toNat ≤ opened.length by omega)] at hc
    obtain rfl := Option.some.inj hc
    use s
    unfold visit
    rw [Session.known, h.lookup_new hn, Session.tooDeep, h.limits]
  | succ levels =>
    rw [if_neg (show ¬ limits.maxDepth.toNat ≤ opened.length by omega)] at hc
    rw [visit_new h hn]
    by_cases hr : limits.maxRecords.toNat ≤ seen.length
    · rw [if_pos hr] at hc
      obtain rfl := Option.some.inj hc
      have hfull := h.numbering.register_full s.limits.maxRecords hn
        (by rwa [List.length_map, h.limits])
      use s
      unfold Session.welcome
      rw [hfull, h.limits]
    · rw [if_neg hr] at hc
      have hroom : seen.length < limits.maxRecords.toNat := by omega
      obtain ⟨numbering, hreg, -⟩ := h.numbering.register_new s.limits.maxRecords hn
        (by rwa [List.length_map, h.limits])
      rw [List.length_map] at hreg
      rw [welcome_new hreg hroom]
      by_cases hb : (heap node).borrow.isExclusive
      · rw [if_pos hb] at hc
        obtain rfl := Option.some.inj hc
        unfold Session.produce
        rw [if_pos hb]
        exact ⟨_, rfl⟩
      · rw [if_neg hb] at hc
        cases hc

theorem pass_obeys (hs : ∀ node, (heap node).content.kind ≠ .lenient)
    (hd : (whole.map Prod.fst).Nodup) (levels : Nat) :
    (pass heap limits whole).Obeys levels (visit flattenSchema heap levels) where
  met {seen opened s node} h _ hn := by
    refine ⟨s, ?_, h⟩
    cases levels <;> rw [visit, Session.known, h.lookup_met hn] <;> rfl
  refused {seen opened s node e} h _ hl hn hc := visit_violation h hn hl hc
  opens {seen opened s node} h _ hl hn hc hp := by
    obtain ⟨hdepth, hroom, hfree⟩ := violation_eq_none.1 hc
    replace hdepth : opened.length < limits.maxDepth.toNat := hdepth
    replace hl : levels + opened.length = limits.maxDepth.toNat := hl
    obtain ⟨inner, rfl⟩ : ∃ inner, levels = inner + 1 := ⟨levels - 1, by omega⟩
    have hpos : position whole node = ⟨UInt32.ofNat seen.length⟩ := position_discovered hd hp
    obtain ⟨numbering, hreg, hlists⟩ := h.numbering.register_new s.limits.maxRecords hn
      (by rwa [List.length_map, h.limits])
    rw [List.length_map] at hreg hlists
    have hentered := (h.push hn opened.length (hlists hpos)).enter ⟨UInt32.ofNat seen.length⟩
    refine ⟨inner, _, visitAll (visit flattenSchema heap inner) (heap node).content.targets _, rfl,
      hentered, .of_visitAll _ (Walk.keeps_refl _ _ _) _ _, ?_⟩
    have hhook := runHook_flatten (visit flattenSchema heap inner) (hs node)
      (Session.enter { s with numbering, records := s.records.push none }
        ⟨UInt32.ofNat seen.length⟩)
    rw [visit_new h hn, welcome_new hreg hroom]
    rcases hall : visitAll (visit flattenSchema heap inner) (heap node).content.targets
      (Session.enter _ _) with ⟨e | ids, s'⟩ <;> rw [hall] at hhook
    · rw [produce_of_runHook hfree hhook]
      exact ⟨_, rfl⟩
    · intro hids more hp' hend
      rw [produce_of_runHook hfree (hhook _ hids)]
      refine ⟨_, by rw [← hpos]; rfl, ?_⟩
      exact (hend.leave _).store (hp'.map Prod.fst |>.sublist.nodup hd) h.underway rfl

variable (heap limits) in
/-- A pass over nodes that are not lenient is a lawful walk. -/
theorem pass_lawful (hs : ∀ node, (heap node).content.kind ≠ .lenient)
    (hd : (whole.map Prod.fst).Nodup) : (pass heap limits whole).Lawful where
  obeys := pass_obeys hs hd
  closed _ _ _ := trivial

end Pass

/-- A heap has finitely many nodes that refer to others, so every search in it ends. -/
theorem Heap.exists_search (h : Heap) (root : Nat) :
    ∃ order, Search h.targets 0 [root] [] order := by
  let world : Set Nat :=
    insert root {node | node ∈ h.cells.toList.flatMap fun c => c.content.targets}
  have hfinite : world.Finite := (List.finite_toSet _).insert root
  refine Search.exists_of_finite hfinite (fun a _ b hb => ?_) 0 (fun a ha => ?_) []
  · rcases h.cell_cases a with hc | hc
    · exact .inr (List.mem_flatMap.2 ⟨h.cell a, Array.mem_toList_iff.2 hc, hb⟩)
    · unfold Heap.targets at hb
      rw [hc] at hb
      cases hb
  · exact .inl (List.mem_singleton.1 ha)

theorem position_root {targets : Nat → List Nat} {root : Nat} {order : List (Nat × Nat)}
    (ho : Search targets 0 [root] [] order) : position order root = .root := by
  cases ho with
  | met known _ => cases known
  | new _ _ _ => simp [position, RecordId.root]

section Outcome

variable {h : TypedHeap} {limits : Limits} {root : Nat} {order : List (Nat × Nat)}

variable (limits) in
/-- The visit of the root ends as the walk through the whole search. -/
theorem visit_root_ends (ho : Search h.targets 0 [root] [] order) :
    (pass h.cell limits order).Ends [root] [] order []
      (visitAll (visit flattenSchema h.cell limits.maxDepth.toNat) [root]
        { limits, rootTaken := true }) := by
  have hlawful := pass_lawful h.cell limits h.strict (ho.nodup (by simp))
  refine Walk.run hlawful ho (hlawful.obeys _) rfl rfl (fun _ _ => trivial) List.prefix_rfl
    (by simp [pass]) ?_ (.of_visitAll _ (Walk.keeps_refl _ _ _) _ _)
  exact ⟨rfl, Numbering.lists_nil _, by simp, rfl, by simp⟩

/-- The first violation in the order of discovery is the fault of the pass. -/
theorem serialize_of_fault (ho : Search h.targets 0 [root] [] order) {e : Graph.Error}
    (hf : firstFault (pass h.cell limits order).check [] order = some e) :
    (Session.serialize flattenSchema h.cell root { limits }).1 = .error e := by
  have hends := visit_root_ends limits ho
  rw [Graph.visitAll_singleton] at hends
  simp only [Session.serialize, Bool.false_eq_true, if_false]
  rcases hv : visit flattenSchema h.cell limits.maxDepth.toNat root { limits, rootTaken := true }
    with ⟨e' | id, s⟩ <;> rw [hv] at hends
  · have hf' : firstFault (pass h.cell limits order).check [] order = some e' := hends
    rw [hf, Option.some.injEq] at hf'
    rw [hf']
  · have hf' : firstFault (pass h.cell limits order).check [] order = none := hends.1
    rw [hf] at hf'
    cases hf'

/-- Without a violation every node discovered is numbered and has its record. -/
theorem serialize_of_clear (ho : Search h.targets 0 [root] [] order)
    (hf : firstFault (pass h.cell limits order).check [] order = none) :
    ∃ s, Session.serialize flattenSchema h.cell root { limits } = (.ok .root, s) ∧
      Numbered h.cell limits order order [] s := by
  have hends := visit_root_ends limits ho
  rw [Graph.visitAll_singleton] at hends
  simp only [Session.serialize, Bool.false_eq_true, if_false]
  rcases hv : visit flattenSchema h.cell limits.maxDepth.toNat root { limits, rootTaken := true }
    with ⟨e | id, s⟩ <;> rw [hv] at hends
  · have hf' : firstFault (pass h.cell limits order).check [] order = some e := hends
    rw [hf] at hf'
    cases hf'
  · obtain ⟨-, hid, hstage⟩ := hends
    have hroot : id = position order root := by simpa [pass] using hid
    exact ⟨s, by rw [hroot, position_root ho], hstage⟩

/-- A pass that gives an answer has met no violation. -/
theorem clear_of_serialize (ho : Search h.targets 0 [root] [] order) {id : RecordId}
    {s : Session Nat Record}
    (hs : Session.serialize flattenSchema h.cell root { limits } = (.ok id, s)) :
    firstFault (pass h.cell limits order).check [] order = none ∧
      Numbered h.cell limits order order [] s := by
  cases hfault : firstFault (pass h.cell limits order).check [] order with
  | some fault =>
    have hrefused := serialize_of_fault ho hfault
    rw [hs] at hrefused
    cases hrefused
  | none =>
    obtain ⟨s', hs', hnumbered⟩ := serialize_of_clear ho hfault
    rw [hs] at hs'
    cases hs'
    exact ⟨rfl, hnumbered⟩

/-- The records of a pass that is over, in order. -/
theorem Numbered.toList_records {s : Session Nat Record}
    (hs : Numbered h.cell limits order order [] s) :
    s.records.toList = order.map fun p => some (recordOf h.cell order p.1) := by
  apply List.ext_getElem?
  intro k
  rw [Array.getElem?_toList, List.getElem?_map]
  cases hk : order[k]? with
  | none =>
    rw [List.getElem?_eq_none_iff] at hk
    exact Array.getElem?_eq_none (by rw [hs.size]; exact hk)
  | some p =>
    rw [hs.records k p hk]
    simp

end Outcome

/-- A pass lists the reachable nodes in depth-first preorder. -/
theorem serialize_preorder (h : TypedHeap) (limits : Limits) (root : Nat) :
    ∃ order, Search h.targets 0 [root] [] order ∧ (order.map Prod.fst).Nodup ∧
      (∀ node, node ∈ order.map Prod.fst ↔ Graph.Reaches h.targets root node) ∧
      ((∀ k p, order[k]? = some p → violation h.cell limits k p = none) →
        ∃ s, Session.serialize flattenSchema h.cell root { limits } = (.ok .root, s) ∧
          s.objectCount = {node | Graph.Reaches h.targets root node}.ncard ∧
          s.records.toList = order.map fun p => some (recordOf h.cell order p.1)) ∧
      (∀ k p e, order[k]? = some p → violation h.cell limits k p = some e →
        (∀ j < k, ∀ q, order[j]? = some q → violation h.cell limits j q = none) →
        (Session.serialize flattenSchema h.cell root { limits }).1 = .error e) := by
  obtain ⟨order, ho⟩ := h.exists_search root
  have hnodup : (order.map Prod.fst).Nodup := ho.nodup (by simp)
  have hreach : ∀ node, node ∈ order.map Prod.fst ↔ Graph.Reaches h.targets root node :=
    fun node => (ho.mem_iff_reaches node).trans (by simp)
  have hindex : ∀ k p, order[k]? = some p → ([] ++ order.take k).length = k := by
    intro k p hk
    obtain ⟨hlt, -⟩ := List.getElem?_eq_some_iff.1 hk
    simp only [List.nil_append, List.length_take]
    omega
  refine ⟨order, ho, hnodup, hreach, ?_, ?_⟩
  · intro hclear
    have hnone : firstFault (pass h.cell limits order).check [] order = none := by
      apply Graph.firstFault_eq_none.2
      intro k p hk
      simp only [pass, hindex k p hk]
      exact hclear k p hk
    obtain ⟨s, hs, hstage⟩ := serialize_of_clear ho hnone
    refine ⟨s, hs, ?_, hstage.toList_records⟩
    have hcount := ho.ncard_reached
    simp only [List.mem_singleton, exists_eq_left] at hcount
    unfold Session.objectCount
    rw [hstage.numbering.size, List.length_map, hcount]
  · intro k p e hk he hbefore
    apply serialize_of_fault ho
    apply Graph.firstFault_eq_some hk
    · simp only [pass, hindex k p hk]
      exact he
    · intro j hj q hq
      simp only [pass, hindex j q hq]
      exact hbefore j hj q hq

end Catalog
end ObjectGraph
