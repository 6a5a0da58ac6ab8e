import Mathlib.Tactic
import Mathlib.Data.Set.Card
import Mathlib.Logic.Relation

/-! Depth-first search. A graph is given by the targets of its nodes. The search lists nodes in the
order of their discovery, each with its depth; from no nodes at first it finds exactly the reachable
ones, each once (`Search.mem_iff_reaches`, `Search.nodup`). -/
namespace ObjectGraph.Graph

variable {α β ε : Type} {targets : α → List α}

/-- From `nodes` in order, at one depth and with `seen` discovered before, the search discovers
`found`. A new node is discovered before what its targets lead to, and that before its successors in
the list. -/
inductive Search (targets : α → List α) :
    (depth : Nat) → (nodes : List α) → (seen found : List (α × Nat)) → Prop where
  | done {depth : Nat} {seen : List (α × Nat)} : Search targets depth [] seen []
  | met {depth : Nat} {node : α} {nodes : List α} {seen found : List (α × Nat)}
      (known : node ∈ seen.map Prod.fst) (rest : Search targets depth nodes seen found) :
      Search targets depth (node :: nodes) seen found
  | new {depth : Nat} {node : α} {nodes : List α} {seen inner found : List (α × Nat)}
      (fresh : node ∉ seen.map Prod.fst)
      (below : Search targets (depth + 1) (targets node) (seen ++ [(node, depth)]) inner)
      (rest : Search targets depth nodes (seen ++ (node, depth) :: inner) found) :
      Search targets depth (node :: nodes) seen ((node, depth) :: (inner ++ found))

def Refers (targets : α → List α) (a b : α) : Prop := b ∈ targets a

def Reaches (targets : α → List α) : α → α → Prop := Relation.ReflTransGen (Refers targets)

namespace Search

variable {depth : Nat} {nodes more : List α} {seen found found' : List (α × Nat)}

/-- The order of discovery is determined. -/
theorem unique (h : Search targets depth nodes seen found)
    (h' : Search targets depth nodes seen found') : found = found' := by
  induction h generalizing found' with
  | done => cases h'; rfl
  | met known _ ih =>
    cases h' with
    | met _ rest => exact ih rest
    | new fresh _ _ => exact absurd known fresh
  | new fresh _ _ ihBelow ihRest =>
    cases h' with
    | met known _ => exact absurd known fresh
    | new _ below rest =>
      obtain rfl := ihBelow below
      rw [ihRest rest]

theorem of_append (h : Search targets depth (nodes ++ more) seen found) :
    ∃ first last, found = first ++ last ∧ Search targets depth nodes seen first ∧
      Search targets depth more (seen ++ first) last := by
  induction nodes generalizing seen found with
  | nil => exact ⟨[], found, rfl, .done, by simpa using h⟩
  | cons node nodes ih =>
    cases h with
    | met known rest =>
      obtain ⟨first, last, rfl, hfirst, hlast⟩ := ih rest
      exact ⟨first, last, rfl, .met known hfirst, hlast⟩
    | new fresh below rest =>
      obtain ⟨first, last, rfl, hfirst, hlast⟩ := ih rest
      exact ⟨_, last, by simp, .new fresh below hfirst, by simpa using hlast⟩

/-- The node asked for is discovered first. -/
theorem first {a : α} (h : Search targets depth [a] [] found) : found[0]? = some (a, depth) := by
  cases h with
  | met known _ => cases known
  | new _ _ _ => rfl

/-- Nothing is discovered twice. -/
theorem nodup (h : Search targets depth nodes seen found) (hs : (seen.map Prod.fst).Nodup) :
    ((seen ++ found).map Prod.fst).Nodup := by
  induction h with
  | done => simpa using hs
  | met _ _ ih => exact ih hs
  | @new depth node nodes seen inner found fresh _ _ ihBelow ihRest =>
    have hnode : ((seen ++ [(node, depth)]).map Prod.fst).Nodup := by
      rw [List.map_append, List.nodup_append]
      refine ⟨hs, by simp, ?_⟩
      rintro a ha b hb rfl
      simp only [List.map_cons, List.map_nil, List.mem_singleton] at hb
      exact fresh (hb ▸ ha)
    have hbelow := ihBelow hnode
    rw [List.append_assoc] at hbelow
    have hrest := ihRest hbelow
    simpa using hrest

/-- Every node asked for is discovered, or was before. -/
theorem covers (h : Search targets depth nodes seen found) {a : α} (ha : a ∈ nodes) :
    a ∈ (seen ++ found).map Prod.fst := by
  induction h with
  | done => cases ha
  | met known _ ih =>
    rcases List.mem_cons.1 ha with rfl | ha
    · rw [List.map_append]
      exact List.mem_append_left _ known
    · exact ih ha
  | new _ _ _ _ ih =>
    rcases List.mem_cons.1 ha with rfl | ha
    · simp
    · simpa using ih ha

/-- With a node, its targets are discovered, or were before. -/
theorem closed (h : Search targets depth nodes seen found) {a b : α}
    (ha : a ∈ found.map Prod.fst) (hb : b ∈ targets a) : b ∈ (seen ++ found).map Prod.fst := by
  induction h with
  | done => cases ha
  | met _ _ ih => exact ih ha
  | @new depth node nodes seen inner found _ below _ ihBelow ihRest =>
    have hinner : ∀ c, c ∈ ((seen ++ [(node, depth)]) ++ inner).map Prod.fst →
        c ∈ (seen ++ (node, depth) :: (inner ++ found)).map Prod.fst := by
      intro c hc
      simp only [List.map_append, List.map_cons, List.map_nil, List.mem_append, List.mem_cons]
        at hc ⊢
      tauto
    simp only [List.map_cons, List.map_append, List.mem_cons, List.mem_append] at ha
    rcases ha with rfl | ha | ha
    · exact hinner b (below.covers hb)
    · exact hinner b (ihBelow ha)
    · simpa using ihRest ha

theorem reaches (h : Search targets depth nodes seen found) {b : α}
    (hb : b ∈ found.map Prod.fst) : ∃ a ∈ nodes, Reaches targets a b := by
  induction h with
  | done => cases hb
  | met _ _ ih =>
    obtain ⟨a, ha, hr⟩ := ih hb
    exact ⟨a, List.mem_cons_of_mem _ ha, hr⟩
  | @new depth node nodes seen inner found _ _ _ ihBelow ihRest =>
    simp only [List.map_cons, List.map_append, List.mem_cons, List.mem_append] at hb
    rcases hb with rfl | hb | hb
    · exact ⟨b, by simp, .refl⟩
    · obtain ⟨a, ha, hr⟩ := ihBelow hb
      exact ⟨node, by simp, .head ha hr⟩
    · obtain ⟨a, ha, hr⟩ := ihRest hb
      exact ⟨a, List.mem_cons_of_mem _ ha, hr⟩

/-- A search from the start finds the nodes that are reached from those asked for. -/
theorem mem_iff_reaches (h : Search targets depth nodes [] found) (b : α) :
    b ∈ found.map Prod.fst ↔ ∃ a ∈ nodes, Reaches targets a b := by
  refine ⟨h.reaches, ?_⟩
  rintro ⟨a, ha, hr⟩
  induction hr with
  | refl => exact h.covers ha
  | tail _ hb ih => exact h.closed ih hb

/-- A search from the start finds as many nodes as are reached. -/
theorem ncard_reached (h : Search targets depth nodes [] found) :
    {b | ∃ a ∈ nodes, Reaches targets a b}.ncard = found.length := by
  classical
  have hset : {b | ∃ a ∈ nodes, Reaches targets a b} = ((found.map Prod.fst).toFinset : Set α) := by
    ext b
    rw [List.coe_toFinset]
    exact (h.mem_iff_reaches b).symm
  have hnodup : (found.map Prod.fst).Nodup := h.nodup (by simp)
  rw [hset, Set.ncard_coe_finset, List.toFinset_card_of_nodup hnodup, List.length_map]

/-- A search ends where finitely many nodes can be met. -/
theorem exists_of_finite {world : Set α} (hf : world.Finite)
    (hc : ∀ a ∈ world, ∀ b ∈ targets a, b ∈ world) (depth : Nat) {nodes : List α}
    (hn : ∀ a ∈ nodes, a ∈ world) (seen : List (α × Nat)) :
    ∃ found, Search targets depth nodes seen found := by
  induction hm : (world \ {a | a ∈ seen.map Prod.fst}).ncard using Nat.strongRecOn
    generalizing depth nodes seen with
  | ind m ih =>
    induction nodes generalizing seen with
    | nil => exact ⟨[], .done⟩
    | cons node nodes ihNodes =>
      by_cases hk : node ∈ seen.map Prod.fst
      · obtain ⟨found, hfound⟩ := ihNodes (fun a ha => hn a (List.mem_cons_of_mem _ ha)) seen hm
        exact ⟨found, .met hk hfound⟩
      -- A new node leaves fewer undiscovered ones, below it and behind it.
      have hless : ∀ more, (world \ {a | a ∈ (seen ++ (node, depth) :: more).map Prod.fst}).ncard
          < m := by
        intro more
        rw [← hm]
        refine Set.ncard_lt_ncard ⟨fun a ha => ⟨ha.1, fun hs => ha.2 ?_⟩, fun hsub => ?_⟩
          (hf.subset Set.sdiff_subset)
        · rw [Set.mem_ofPred_eq, List.map_append]
          exact List.mem_append_left _ hs
        · refine (hsub ⟨hn node (by simp), hk⟩).2 ?_
          simp
      obtain ⟨inner, hinner⟩ := ih _ (hless []) (depth + 1) (hc node (hn node (by simp)))
        (seen ++ [(node, depth)]) rfl
      obtain ⟨found, hfound⟩ := ih _ (hless inner) depth
        (fun a ha => hn a (List.mem_cons_of_mem _ ha)) (seen ++ (node, depth) :: inner) rfl
      exact ⟨_, .new hk hinner hfound⟩

/-- A map that separates the nodes discovered, and takes their targets to targets, takes the search
along. -/
theorem map {targets' : β → List β} (f : α → β) (h : Search targets depth nodes seen found)
    (hi : Set.InjOn f {a | a ∈ (seen ++ found).map Prod.fst})
    (ht : ∀ a ∈ found.map Prod.fst, targets' (f a) = (targets a).map f) :
    Search targets' depth (nodes.map f) (seen.map (Prod.map f id)) (found.map (Prod.map f id)) := by
  induction h with
  | done => exact .done
  | @met depth node nodes seen found known _ ih =>
    refine .met ?_ (ih hi ht)
    obtain ⟨p, hp, rfl⟩ := List.mem_map.1 known
    exact List.mem_map.2 ⟨Prod.map f id p, List.mem_map_of_mem hp, rfl⟩
  | @new depth node nodes seen inner found fresh _ _ ihBelow ihRest =>
    have hbelow := ihBelow (hi.mono fun a ha => by
        simp only [Set.mem_ofPred_eq, List.map_append, List.map_cons, List.map_nil, List.mem_append,
          List.mem_cons] at ha ⊢
        tauto) fun a ha => ht a (by simp [ha])
    have hrest := ihRest (hi.mono fun a ha => by simpa using ha) fun a ha => ht a (by simp [ha])
    rw [← ht node (by simp)] at hbelow
    have hfresh : f node ∉ (seen.map (Prod.map f id)).map Prod.fst := by
      intro hm
      obtain ⟨q, hq, he⟩ := List.mem_map.1 hm
      obtain ⟨p, hp, rfl⟩ := List.mem_map.1 hq
      have hmem : p.1 ∈ seen.map Prod.fst := List.mem_map_of_mem hp
      have hsame : p.1 = node := by
        refine hi ?_ (by simp) he
        rw [Set.mem_ofPred_eq, List.map_append]
        exact List.mem_append_left _ hmem
      exact fresh (hsame ▸ hmem)
    rw [List.map_append] at hbelow hrest
    have hnew := Search.new hfresh hbelow hrest
    simpa using hnew

end Search

/-- A discovered node stands at some position. -/
theorem exists_getElem?_of_mem {found : List (α × Nat)} {a : α} (h : a ∈ found.map Prod.fst) :
    ∃ (k : Nat) (p : α × Nat), found[k]? = some p ∧ p.1 = a := by
  obtain ⟨p, hp, rfl⟩ := List.mem_map.1 h
  obtain ⟨k, hk⟩ := List.mem_iff_getElem?.1 hp
  exact ⟨k, p, hk, rfl⟩

/-- In a list that begins with different elements, each of those stands at its own position. -/
theorem idxOf_of_prefix [DecidableEq α] {front whole : List α} (hd : front.Nodup)
    (hp : front <+: whole) {k : Nat} {a : α} (hk : front[k]? = some a) : whole.idxOf a = k := by
  obtain ⟨hlt, rfl⟩ := List.getElem?_eq_some_iff.1 hk
  obtain ⟨rest, rfl⟩ := hp
  rw [List.idxOf_append_of_mem (List.getElem_mem hlt), hd.idxOf_getElem k hlt]

/-- In a list with one more element at its end, that stands at its own position. -/
theorem getElem?_snoc {front : List α} {a b : α} {k : Nat} :
    (front ++ [a])[k]? = some b ↔ front[k]? = some b ∨ k = front.length ∧ a = b := by
  rcases Nat.lt_trichotomy k front.length with hlt | rfl | hgt
  · rw [List.getElem?_append_left hlt]
    simp [hlt.ne]
  · simp
  · rw [List.getElem?_eq_none (by simp; omega), List.getElem?_eq_none (by omega)]
    simp [hgt.ne']

/-- The first fault that a check finds in the nodes discovered, each judged by those before it. -/
def firstFault (check : (seen : List (α × Nat)) → α × Nat → Option ε) :
    (seen found : List (α × Nat)) → Option ε
  | _, [] => none
  | seen, p :: found => (check seen p).or (firstFault check (seen ++ [p]) found)

theorem firstFault_append (check : List (α × Nat) → α × Nat → Option ε)
    (seen found more : List (α × Nat)) :
    firstFault check seen (found ++ more) =
      (firstFault check seen found).or (firstFault check (seen ++ found) more) := by
  induction found generalizing seen with
  | nil => simp [firstFault]
  | cons p found ih => simp [firstFault, ih, Option.or_assoc]

/-- The nodes up to a position are judged first. -/
theorem firstFault_cons_take {seen found : List (α × Nat)} {p : α × Nat} (k : Nat) :
    seen ++ (p :: found).take (k + 1) = seen ++ [p] ++ found.take k := by
  simp

theorem firstFault_eq_none {check : List (α × Nat) → α × Nat → Option ε}
    {seen found : List (α × Nat)} :
    firstFault check seen found = none ↔
      ∀ k p, found[k]? = some p → check (seen ++ found.take k) p = none := by
  induction found generalizing seen with
  | nil => simp [firstFault]
  | cons q found ih =>
    unfold firstFault
    rw [Option.or_eq_none_iff, ih]
    constructor
    · rintro ⟨hq, hrest⟩ k p hk
      cases k with
      | zero =>
        obtain rfl : q = p := by simpa using hk
        simpa using hq
      | succ k =>
        rw [firstFault_cons_take]
        exact hrest k p (by simpa using hk)
    · intro h
      refine ⟨by simpa using h 0 q rfl, fun k p hk => ?_⟩
      rw [← firstFault_cons_take]
      exact h (k + 1) p (by simpa using hk)

theorem firstFault_eq_some {check : List (α × Nat) → α × Nat → Option ε}
    {seen found : List (α × Nat)} {k : Nat} {p : α × Nat} {e : ε} (hk : found[k]? = some p)
    (hp : check (seen ++ found.take k) p = some e)
    (hb : ∀ j < k, ∀ q, found[j]? = some q → check (seen ++ found.take j) q = none) :
    firstFault check seen found = some e := by
  induction found generalizing seen k with
  | nil => simp at hk
  | cons q found ih =>
    cases k with
    | zero =>
      obtain rfl : q = p := by simpa using hk
      have hq : check seen q = some e := by simpa using hp
      simp [firstFault, hq]
    | succ k =>
      have hq : check seen q = none := by simpa using hb 0 (by omega) q rfl
      unfold firstFault
      rw [hq, Option.none_or]
      apply ih (by simpa using hk) (by rwa [firstFault_cons_take] at hp)
      intro j hj r hr
      rw [← firstFault_cons_take]
      exact hb (j + 1) (by omega) r (by simpa using hr)

end ObjectGraph.Graph
