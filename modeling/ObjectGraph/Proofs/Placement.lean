import ObjectGraph.Catalog.Scalar
import ObjectGraph.Placement
import ObjectGraph.Proofs.Custody
import ObjectGraph.Proofs.NodeTable

/-! What a table of nodes holds after any use of it. The first node that is put at a number stays
there, and nothing else is let in (`Sound.step`), so all that the table answers can be told from
what it was asked before (`holdings_run`). -/
namespace ObjectGraph

open Memory (Node Address)

namespace Placement

variable {κ : Type} [DecidableEq κ] [NodeType κ] {records : Nat} {s t : Placement κ}
  {events : List (Action κ × Answer)} {n : Node} {id : RecordId}

/-- The actions of a run with the answers to them, and how it ends. -/
def run : Placement κ → List (Action κ) → Option (List (Action κ × Answer) × Placement κ)
  | s, [] => some ([], s)
  | s, action :: actions => do
      let (answer, t) ← s.step action
      let (events, u) ← t.run actions
      some ((action, answer) :: events, u)

def kindsOf (events : List (Action κ × Answer)) : List κ :=
  events.filterMap fun
    | (.create kind _, _) => some kind
    | _ => none

/-- The first node that was to be put at a number. -/
def firstAt (events : List (Action κ × Answer)) (id : RecordId) : Option Node :=
  events.findSome? fun
    | (.insert n id', _) => if id' = id then some n else none
    | _ => none

/-- What was put where, each time that the table took a node. -/
def placements (events : List (Action κ × Answer)) : List (RecordId × Node) :=
  events.filterMap fun
    | (.insert n id, .flag true) => some (id, n)
    | _ => none

/-- Whether a table has a slot for a number. It has none for the absent reference. -/
def HasSlot (records : Nat) (id : RecordId) : Prop :=
  ∃ index, id.index? = some index ∧ index < records

instance (records : Nat) (id : RecordId) : Decidable (HasSlot records id) :=
  decidable_of_iff ((id.index?).any (· < records) = true) (by
    simp [HasSlot, Option.any_eq_true])

/-- The node of a number, to which the first one was to be put that there was a slot for. -/
def placed (records : Nat) (events : List (Action κ × Answer)) (id : RecordId) : Option Node :=
  if HasSlot records id then firstAt events id else none

omit [DecidableEq κ] [NodeType κ] in
theorem placed_append (records : Nat) (events more : List (Action κ × Answer)) (id : RecordId) :
    placed records (events ++ more) id = (placed records events id).or (placed records more id) := by
  unfold placed firstAt
  split
  · exact List.findSome?_append
  · rfl

/-- A table that holds what it was the first to be given. -/
structure Sound (records : Nat) (events : List (Action κ × Answer)) (s : Placement κ) : Prop where
  keeps : s.custody.Keeps ((placements events).map Prod.snd)
  made : s.kinds.length = s.custody.memory.cells.length
  kinds : s.kinds = kindsOf events
  capacity : s.table.capacity = records
  nodup : ((placements events).map Prod.fst).Nodup
  filled : s.table.filled = (placements events).length
  given : ∀ {id n}, placed records events id = some n ↔ (id, n) ∈ placements events
  entry : ∀ id, s.table.entry? id =
    (placed records events id).bind fun n => (s.kinds[n]?).map fun kind => (kind, n)

omit [DecidableEq κ] [NodeType κ] in
theorem sound_withCapacity (records : Nat) : Sound records [] (withCapacity records : Placement κ) where
  keeps := Custody.keeps_empty
  made := rfl
  kinds := rfl
  capacity := Array.size_replicate
  nodup := .nil
  filled := rfl
  given := by simp [placed, firstAt, placements]
  entry id := by simp [placed, firstAt, withCapacity]

section Steps

omit [DecidableEq κ] [NodeType κ]

/-- Nodes that are used, or in the table, have types. -/
theorem Sound.exists_kind (h : Sound records events s) (hn : 0 < s.custody.handles n) :
    ∃ kind, s.kinds[n]? = some kind :=
  ⟨_, List.getElem?_eq_getElem (h.made ▸ Memory.lt_of_handles hn)⟩

theorem Sound.pos_of_placed (h : Sound records events s)
    (hp : placed records events id = some n) : 0 < s.custody.handles n :=
  h.keeps.pos_of_kept (List.mem_map_of_mem (h.given.1 hp))

theorem Sound.entry_eq_none_iff (h : Sound records events s) :
    s.table.entry? id = none ↔ placed records events id = none := by
  rw [h.entry id]
  rcases hp : placed records events id with _ | n
  · exact iff_of_true rfl rfl
  · obtain ⟨kind, hkind⟩ := h.exists_kind (h.pos_of_placed hp)
    simp [hkind]

/-- An event that puts no node where none was. -/
theorem Sound.pass (h : Sound records events s) {e : Action κ × Answer}
    (hkinds : kindsOf [e] = []) (hplacements : placements [e] = [])
    (hplaced : ∀ id, placed records events id = none →
      placed records [e] id = none) : Sound records (events ++ [e]) s := by
  have hall : placements (events ++ [e]) = placements events := by
    rw [placements, List.filterMap_append]
    exact (congrArg _ hplacements).trans (List.append_nil _)
  have hsame : ∀ id, placed records (events ++ [e]) id =
      placed records events id := by
    intro id
    rw [placed_append]
    rcases hp : placed records events id with _ | n
    · rw [hplaced id hp]; rfl
    · rfl
  exact {
    keeps := hall ▸ h.keeps
    made := h.made
    kinds := by
      rw [h.kinds, kindsOf, kindsOf, List.filterMap_append]
      exact ((congrArg _ hkinds).trans (List.append_nil _)).symm
    capacity := h.capacity
    nodup := hall ▸ h.nodup
    filled := hall ▸ h.filled
    given := fun {id n} => by rw [hsame, hall]; exact h.given
    entry := fun id => by rw [hsame]; exact h.entry id }

/-- Handles come and go outside. -/
theorem Sound.of_custody (h : Sound records events s) {custody : Custody}
    (hkeeps : custody.Keeps ((placements events).map Prod.snd))
    (hmade : custody.memory.cells.length = s.custody.memory.cells.length) :
    Sound records events { s with custody } :=
  { h with keeps := hkeeps, made := h.made.trans hmade.symm }

theorem Sound.create (h : Sound records events s) {kind : κ} {a : Address} {custody : Custody}
    (hc : s.custody.create? a = some (n, custody)) :
    Sound records (events ++ [(.create kind a, .made n)])
      { s with custody, kinds := s.kinds ++ [kind] } := by
  have hall : placements (events ++ [(.create kind a, .made n)]) = placements events := by
    simp [placements]
  have hsame : ∀ id, placed records (events ++ [(.create kind a, .made n)]) id =
      placed records events id := by
    intro id
    simp [placed, firstAt, List.findSome?_append]
  have hmade := Custody.length_cells_create hc
  exact {
    keeps := hall ▸ h.keeps.create hc
    made := by simp [h.made, hmade]
    kinds := by simp [h.kinds, kindsOf]
    capacity := h.capacity
    nodup := hall ▸ h.nodup
    filled := hall ▸ h.filled
    given := fun {id n} => by rw [hsame, hall]; exact h.given
    entry := fun id => by
      rw [hsame, h.entry id]
      rcases hp : placed records events id with _ | m
      · rfl
      · obtain ⟨kind', hkind⟩ := h.exists_kind (h.pos_of_placed hp)
        have hlt := (List.getElem?_eq_some_iff.1 hkind).1
        simp only [Option.bind_some]
        rw [List.getElem?_append_left hlt] }

theorem Sound.insert (h : Sound records events s) {kind : κ} (hout : n ∈ s.custody.outside)
    (hkind : s.kinds[n]? = some kind) {index : Nat} (hi : id.index? = some index)
    (hc : index < records) (hp : placed records events id = none) :
    Sound records (events ++ [(.insert n id, .flag true)])
      { s with table := (s.table.insert id kind n).2, custody := s.custody.keep n } := by
  have hall : placements (events ++ [(.insert n id, .flag true)]) =
      placements events ++ [(id, n)] := by
    simp [placements]
  have hslot : HasSlot records id := ⟨index, hi, hc⟩
  have hempty := h.entry_eq_none_iff.2 hp
  have hroom : index < s.table.capacity := h.capacity ▸ hc
  have hsame : ∀ id', placed records (events ++ [(.insert n id, .flag true)]) id' =
      if id' = id then some n else placed records events id' := by
    intro id'
    rw [placed_append]
    by_cases hid : id' = id
    · subst hid
      rw [hp, if_pos rfl, Option.none_or]
      simp [placed, firstAt, hslot]
    · simp [placed, firstAt, hid, Ne.symm hid]
  exact {
    keeps := by
      rw [hall, List.map_append]
      exact h.keeps.keep hout
    made := h.made.trans (Memory.length_cells_retain _ _).symm
    kinds := by simp [h.kinds, kindsOf]
    capacity := (NodeTable.capacity_insert _ _ _ _).trans h.capacity
    nodup := by
      rw [hall, List.map_append, List.nodup_append]
      refine ⟨h.nodup, List.nodup_singleton _, ?_⟩
      rintro id₁ hid₁ id₂ hid₂ rfl
      obtain rfl := List.mem_singleton.1 hid₂
      obtain ⟨⟨_, m⟩, hm, rfl⟩ := List.mem_map.1 hid₁
      rw [h.given.2 hm] at hp
      cases hp
    filled := by
      rw [hall, List.length_append, ← h.filled]
      exact NodeTable.filled_insert hi hempty hroom kind n
    given := fun {id' m} => by
      rw [hsame, hall, List.mem_append, List.mem_singleton, ← h.given]
      split
      · next hid => simp [hid, hp, eq_comm]
      · next hid => simp [hid]
    entry := fun id' => by
      rw [NodeTable.entry?_insert hi hempty hroom, hsame, h.entry id']
      split
      · simp [hkind]
      · rfl }

end Steps

inductive Inserts (records : Nat) (events : List (Action κ × Answer)) (s : Placement κ) (n : Node)
    (id : RecordId) : Answer → Placement κ → Prop
  | taken {kind : κ} {index : Nat} : s.kinds[n]? = some kind → id.index? = some index →
      index < records → placed records events id = none →
      Inserts records events s n id (.flag true)
        { s with table := (s.table.insert id kind n).2, custody := s.custody.keep n }
  | refused : ¬ (HasSlot records id ∧ placed records events id = none) →
      Inserts records events s n id (.flag false) s

theorem Sound.step_insert (h : Sound records events s) (hout : n ∈ s.custody.outside)
    (id : RecordId) : ∃ answer t, s.step (.insert n id) = some (answer, t) ∧
      Inserts records events s n id answer t := by
  obtain ⟨kind, hkind⟩ := h.exists_kind (h.keeps.pos_of_outside hout)
  have hkind? : s.kind? n = some kind := by rw [kind?, if_pos hout, hkind]
  simp only [step, hkind?, Option.map_some]
  by_cases hnew : HasSlot records id ∧ placed records events id = none
  · obtain ⟨⟨index, hi, hc⟩, hp⟩ := hnew
    have htaken := NodeTable.insert_taken hi (h.entry_eq_none_iff.2 hp) (h.capacity ▸ hc) kind n
    refine ⟨_, _, rfl, ?_⟩
    rw [htaken]
    exact .taken hkind hi hc hp
  · have hrefused : s.table.insert id kind n = (false, s.table) :=
      NodeTable.insert_refused (fun index hi hc he =>
        hnew ⟨⟨index, hi, h.capacity ▸ hc⟩, h.entry_eq_none_iff.1 he⟩) kind n
    rw [hrefused]
    exact ⟨_, _, rfl, .refused hnew⟩

inductive Gets (records : Nat) (events : List (Action κ × Answer)) (s : Placement κ) (kind : κ)
    (id : RecordId) : Answer → Placement κ → Prop
  | found {n : Node} : placed records events id = some n → s.kinds[n]? = some kind →
      Gets records events s kind id (.node (some n)) { s with custody := s.custody.hand n }
  | mismatch {n : Node} : placed records events id = some n → s.kinds[n]? ≠ some kind →
      Gets records events s kind id
        (.refused (.typeMismatch id (typeName kind) "a node of another type")) s
  | absent : placed records events id = none → Gets records events s kind id (.node none) s

theorem Sound.step_get (h : Sound records events s) (kind : κ) (id : RecordId) :
    ∃ answer t, s.step (.get kind id) = some (answer, t) ∧
      Gets records events s kind id answer t := by
  have hentry := h.entry id
  simp only [step, NodeTable.get]
  rcases hp : placed records events id with _ | n
  · rw [hp] at hentry
    rw [hentry]
    exact ⟨_, _, rfl, .absent hp⟩
  · obtain ⟨found, hfound⟩ := h.exists_kind (h.pos_of_placed hp)
    rw [hp, Option.bind_some, hfound] at hentry
    rw [hentry]
    by_cases hkind : found = kind
    · subst hkind
      simp only [Option.map_some, if_true]
      exact ⟨_, _, rfl, .found hp hfound⟩
    · simp only [Option.map_some, if_neg hkind]
      refine ⟨_, _, rfl, .mismatch hp ?_⟩
      rw [hfound]
      exact fun hsame => hkind (Option.some.inj hsame)

/-- Whatever is done, the table holds what it was the first to be given. -/
theorem Sound.step (h : Sound records events s) {action : Action κ} {answer : Answer}
    (hs : s.step action = some (answer, t)) : Sound records (events ++ [(action, answer)]) t := by
  cases action with
  | create kind a =>
    obtain ⟨⟨n, custody⟩, hc, ⟨⟩⟩ := Option.map_eq_some_iff.1 hs
    exact h.create hc
  | clone n =>
    obtain ⟨custody, hc, ⟨⟩⟩ := Option.map_eq_some_iff.1 hs
    have hkept := h.of_custody (h.keeps.clone hc) (Custody.length_cells_clone hc)
    exact hkept.pass rfl rfl fun id _ => by simp [placed, firstAt]
  | drop n =>
    obtain ⟨custody, hc, ⟨⟩⟩ := Option.map_eq_some_iff.1 hs
    have hkept := h.of_custody (h.keeps.drop hc) (Custody.length_cells_drop hc)
    exact hkept.pass rfl rfl fun id _ => by simp [placed, firstAt]
  | insert n id =>
    have hout : n ∈ s.custody.outside := by
      obtain ⟨kind, hkind, -⟩ := Option.map_eq_some_iff.1 hs
      rw [kind?] at hkind
      split at hkind
      · assumption
      · cases hkind
    obtain ⟨_, _, hs', hinserts⟩ := h.step_insert hout id
    rw [hs] at hs'
    cases hs'
    cases hinserts with
    | taken hkind hi hc hp => exact h.insert hout hkind hi hc hp
    | refused hnot =>
      refine h.pass rfl rfl fun id' hp => ?_
      by_cases hslot : HasSlot records id'
      · have hne : id ≠ id' := by
          rintro rfl
          exact hnot ⟨hslot, hp⟩
        simp [placed, firstAt, hne]
      · exact if_neg hslot
  | get kind id =>
    obtain ⟨_, _, hs', hgets⟩ := h.step_get kind id
    rw [hs] at hs'
    cases hs'
    cases hgets with
    | found hp hkind =>
      have hkept := h.of_custody (h.keeps.hand (h.pos_of_placed hp)) (Memory.length_cells_retain _ _)
      exact hkept.pass rfl rfl fun id _ => by simp [placed, firstAt]
    | mismatch => exact h.pass rfl rfl fun id _ => by simp [placed, firstAt]
    | absent => exact h.pass rfl rfl fun id _ => by simp [placed, firstAt]
  | contains id =>
    cases hs
    exact h.pass rfl rfl fun id _ => by simp [placed, firstAt]

theorem Sound.run (h : Sound records events s) {actions : List (Action κ)}
    {more : List (Action κ × Answer)} (hr : s.run actions = some (more, t)) :
    Sound records (events ++ more) t := by
  induction actions generalizing s events more with
  | nil =>
    cases hr
    rwa [List.append_nil]
  | cons action actions ih =>
    obtain ⟨⟨answer, u⟩, hs, hr⟩ := Option.bind_eq_some_iff.1 hr
    obtain ⟨⟨rest, v⟩, hr, ⟨⟩⟩ := Option.bind_eq_some_iff.1 hr
    have hrest := ih (h.step hs) hr
    rwa [List.append_assoc] at hrest

omit [DecidableEq κ] [NodeType κ] in
/-- The table counts the numbers it has nodes for. -/
theorem Sound.filled_eq (h : Sound records events s) :
    s.table.filled = {id | s.table.contains id = true}.ncard := by
  have hset : {id | s.table.contains id = true} =
      (((placements events).map Prod.fst).toFinset : Set RecordId) := by
    ext id
    rw [List.coe_toFinset, Set.mem_ofPred_eq, Set.mem_ofPred_eq, NodeTable.contains,
      Option.isSome_iff_ne_none, ne_eq, h.entry_eq_none_iff, ← ne_eq, Option.ne_none_iff_exists',
      List.mem_map]
    constructor
    · rintro ⟨n, hp⟩
      exact ⟨_, h.given.1 hp, rfl⟩
    · rintro ⟨⟨_, n⟩, hm, rfl⟩
      exact ⟨n, h.given.2 hm⟩
  rw [hset, Set.ncard_coe_finset, List.toFinset_card_of_nodup h.nodup, List.length_map, h.filled]

/-- What a table answers that was used in a certain way. -/
structure Holdings (records : Nat) (events : List (Action κ × Answer)) (s : Placement κ) : Prop where
  capacity : s.table.capacity = records
  /-- The first node for a number that there is a slot for is let in, with one handle more to it.
  Any other one changes nothing. -/
  insert : ∀ n ∈ s.custody.outside, ∀ id,
    if HasSlot records id ∧ firstAt events id = none then
      ∃ t, s.step (.insert n id) = some (.flag true, t) ∧ t.custody.outside = s.custody.outside ∧
        ∀ k, t.custody.handles k = s.custody.handles k + if k = n then 1 else 0
    else s.step (.insert n id) = some (.flag false, s)
  contains : ∀ id, s.step (.contains id) = some (.flag (placed records events id).isSome, s)
  filled : s.table.filled = {id | s.table.contains id = true}.ncard
  typed : ∀ id n, placed records events id = some n → ∃ kind, (kindsOf events)[n]? = some kind
  /-- At its own type, the node that was let in is handed out. -/
  found : ∀ id n kind, placed records events id = some n → (kindsOf events)[n]? = some kind →
    ∃ t, s.step (.get kind id) = some (.node (some n), t) ∧ t.table = s.table ∧
      t.custody.outside = n :: s.custody.outside ∧
      ∀ k, t.custody.handles k = s.custody.handles k + if k = n then 1 else 0
  mismatch : ∀ id n kind, placed records events id = some n → (kindsOf events)[n]? ≠ some kind →
    s.step (.get kind id) =
      some (.refused (.typeMismatch id (typeName kind) "a node of another type"), s)
  absent : ∀ id kind, placed records events id = none → s.step (.get kind id) = some (.node none, s)
  /-- There is a handle for each time that a node was let in, besides those outside. -/
  handles : ∀ n, s.custody.handles n =
    s.custody.outside.count n + ((placements events).map Prod.snd).count n
  /-- Nodes in the table are not freed. -/
  alive : ∀ id n, placed records events id = some n → (s.custody.memory.address? n).isSome

/-- Whatever nodes of whatever types are put at whatever numbers: each number that there is a slot
for keeps the first node put at it, found at its own type alone, and all else is refused without a
trace. -/
theorem holdings_run {actions : List (Action κ)}
    (hr : run (withCapacity records) actions = some (events, s)) : Holdings records events s := by
  have h : Sound records events s := (sound_withCapacity records).run hr
  have hretain : ∀ {n}, 0 < s.custody.handles n → ∀ k, (s.custody.memory.retain n).handles k =
      s.custody.handles k + if k = n then 1 else 0 := by
    intro n hn k
    rw [Memory.handles_retain hn, Custody.handles]
    simp only [eq_comm]
  refine {
    capacity := h.capacity
    insert := fun n hout id => ?_
    contains := fun id => ?_
    filled := h.filled_eq
    typed := fun id n hp => h.kinds ▸ h.exists_kind (h.pos_of_placed hp)
    found := fun id n kind hp hkind => ?_
    mismatch := fun id n kind hp hkind => ?_
    absent := fun id kind hp => ?_
    handles := h.keeps
    alive := fun id n hp => Memory.isSome_address?.2 (h.pos_of_placed hp) }
  · obtain ⟨answer, t, hs, hinserts⟩ := h.step_insert hout id
    have hfirst : HasSlot records id ∧ firstAt events id = none ↔
        HasSlot records id ∧ placed records events id = none :=
      and_congr_right fun hslot => by rw [placed, if_pos hslot]
    rw [if_congr hfirst rfl rfl]
    cases hinserts with
    | taken hkind hi hc hp =>
      rw [if_pos ⟨⟨_, hi, hc⟩, hp⟩]
      exact ⟨_, hs, rfl, hretain (h.keeps.pos_of_outside hout)⟩
    | refused hnot => rwa [if_neg hnot]
  · have hsame : s.table.contains id = (placed records events id).isSome := by
      rw [NodeTable.contains, Bool.eq_iff_iff, Option.isSome_iff_ne_none, Option.isSome_iff_ne_none,
        ne_eq, h.entry_eq_none_iff]
    rw [step, hsame]
  · rw [← h.kinds] at hkind
    obtain ⟨answer, t, hs, hgets⟩ := h.step_get kind id
    cases hgets with
    | found hp' hkind' =>
      obtain rfl := Option.some.inj (hp.symm.trans hp')
      exact ⟨_, hs, rfl, rfl, hretain (h.pos_of_placed hp)⟩
    | mismatch hp' hkind' =>
      obtain rfl := Option.some.inj (hp.symm.trans hp')
      exact absurd hkind hkind'
    | absent hp' => cases hp.symm.trans hp'
  · rw [← h.kinds] at hkind
    obtain ⟨answer, t, hs, hgets⟩ := h.step_get kind id
    cases hgets with
    | found hp' hkind' =>
      obtain rfl := Option.some.inj (hp.symm.trans hp')
      exact absurd hkind' hkind
    | mismatch => exact hs
    | absent hp' => cases hp.symm.trans hp'
  · obtain ⟨answer, t, hs, hgets⟩ := h.step_get kind id
    cases hgets with
    | found hp' => cases hp.symm.trans hp'
    | mismatch hp' => cases hp.symm.trans hp'
    | absent => exact hs

/-- In a table of two slots: the absent reference and a number beyond have no slot, a filled slot
lets no second node in, one node may be at two numbers, and it stays when its handles outside are
dropped. -/
theorem holdings_run_shared : ∃ events s,
    run (withCapacity 2) [.create Catalog.Scalar.byte 8, .create .text 16, .insert 0 .nil,
      .insert 0 ⟨2⟩, .insert 1 ⟨1⟩, .insert 0 ⟨1⟩, .get .byte ⟨1⟩, .insert 1 ⟨0⟩, .drop 1, .get .text ⟨1⟩,
      .drop 1] = some (events, s) ∧
    events.map Prod.snd = [.made 0, .made 1, .flag false, .flag false, .flag true, .flag false,
      .refused (.typeMismatch ⟨1⟩ "u8" "a node of another type"), .flag true, .done, .node (some 1),
      .done] ∧
    s.custody.handles 1 = 2 ∧ Holdings 2 events s := by
  have hrun : run (withCapacity 2) [.create Catalog.Scalar.byte 8, .create .text 16, .insert 0 .nil,
      .insert 0 ⟨2⟩, .insert 1 ⟨1⟩, .insert 0 ⟨1⟩, .get .byte ⟨1⟩, .insert 1 ⟨0⟩, .drop 1, .get .text ⟨1⟩,
      .drop 1] = some _ := rfl
  exact ⟨_, _, hrun, rfl, rfl, holdings_run hrun⟩

end Placement
end ObjectGraph
