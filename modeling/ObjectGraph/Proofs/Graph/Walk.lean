import ObjectGraph.Proofs.Graph.Search

/-! Programs that walk a graph. A program whose visits do what a depth-first search does, node by
node, walks through the whole search, up to the first node that its check refuses (`Walk.run`). -/
namespace ObjectGraph.Graph

/-- Visits nodes one after another, up to the first refusal. -/
def visitAll {α β ε σ : Type} (visit : α → σ → Except ε β × σ) :
    (nodes : List α) → σ → Except ε (List β) × σ
  | [], s => (.ok [], s)
  | node :: nodes, s =>
      match visit node s with
      | (.error e, s) => (.error e, s)
      | (.ok b, s) =>
          match visitAll visit nodes s with
          | (.error e, s) => (.error e, s)
          | (.ok bs, s) => (.ok (b :: bs), s)

theorem visitAll_singleton {α β ε σ : Type} (visit : α → σ → Except ε β × σ) (node : α) (s : σ) :
    visitAll visit [node] s =
      match visit node s with
      | (.error e, s) => (.error e, s)
      | (.ok b, s) => (.ok [b], s) := by
  rcases h : visit node s with ⟨e | b, t⟩ <;> simp [visitAll, h]

theorem visitAll_append {α β ε σ : Type} (visit : α → σ → Except ε β × σ) (nodes more : List α)
    (s : σ) :
    visitAll visit (nodes ++ more) s =
      match visitAll visit nodes s with
      | (.error e, s) => (.error e, s)
      | (.ok bs, s) =>
          match visitAll visit more s with
          | (.error e, s) => (.error e, s)
          | (.ok bs', s) => (.ok (bs ++ bs'), s) := by
  induction nodes generalizing s with
  | nil =>
    rw [List.nil_append, visitAll]
    dsimp only
    split <;> simp [*]
  | cons node nodes ih =>
    rw [List.cons_append, visitAll, visitAll]
    rcases visit node s with ⟨e | b, t⟩
    · rfl
    · dsimp only
      rw [ih]
      rcases visitAll visit nodes t with ⟨e | bs, u⟩
      · rfl
      · dsimp only
        rcases visitAll visit more u with ⟨e | bs', v⟩ <;> rfl

theorem length_of_visitAll {α β ε σ : Type} {visit : α → σ → Except ε β × σ} {nodes : List α}
    {s s' : σ} {bs : List β} (h : visitAll visit nodes s = (.ok bs, s')) :
    bs.length = nodes.length := by
  induction nodes generalizing s bs with
  | nil =>
    cases h
    rfl
  | cons node nodes ih =>
    unfold visitAll at h
    rcases hv : visit node s with ⟨e | b, t⟩
    · rw [hv] at h
      cases h
    · rw [hv] at h
      dsimp only at h
      rcases hr : visitAll visit nodes t with ⟨e | bs', u⟩
      · rw [hr] at h
        cases h
      · rw [hr] at h
        cases h
        simp [ih hr]

/-- A program that visits nodes one after another, up to the first refusal. Before each visit and
after the last it pauses, which takes it from one state to another. -/
inductive Runs {α β ε σ : Type} (visit : α → σ → Except ε β × σ) (pause : σ → σ → Prop) :
    (nodes : List α) → σ → Except ε (List β) × σ → Prop
  | done {s t : σ} (h : pause s t) : Runs visit pause [] s (.ok [], t)
  | refused {node : α} {nodes : List α} {s t u : σ} {e : ε} (h : pause s t)
      (hv : visit node t = (.error e, u)) : Runs visit pause (node :: nodes) s (.error e, u)
  | granted {node : α} {nodes : List α} {s t u v : σ} {b : β} {bs : List β} (h : pause s t)
      (hv : visit node t = (.ok b, u)) (rest : Runs visit pause nodes u (.ok bs, v)) :
      Runs visit pause (node :: nodes) s (.ok (b :: bs), v)
  | later {node : α} {nodes : List α} {s t u v : σ} {b : β} {e : ε} (h : pause s t)
      (hv : visit node t = (.ok b, u)) (rest : Runs visit pause nodes u (.error e, v)) :
      Runs visit pause (node :: nodes) s (.error e, v)

namespace Runs

variable {α β ε σ : Type} {visit : α → σ → Except ε β × σ} {pause : σ → σ → Prop}

variable (visit) in
theorem of_visitAll (hr : ∀ s, pause s s) (nodes : List α) (s : σ) :
    Runs visit pause nodes s (visitAll visit nodes s) := by
  induction nodes generalizing s with
  | nil => exact .done (hr s)
  | cons node nodes ih =>
    unfold visitAll
    rcases hv : visit node s with ⟨e | b, t⟩
    · exact .refused (hr s) hv
    · have hrest := ih t
      dsimp only
      rcases hw : visitAll visit nodes t with ⟨e | bs, u⟩ <;> rw [hw] at hrest
      · exact .later (hr s) hv hrest
      · exact .granted (hr s) hv hrest

theorem after_pause (ht : ∀ s t u, pause s t → pause t u → pause s u) {nodes : List α} {s t : σ}
    {outcome : Except ε (List β) × σ} (h : pause s t) (hr : Runs visit pause nodes t outcome) :
    Runs visit pause nodes s outcome := by
  cases hr with
  | done h' => exact .done (ht _ _ _ h h')
  | refused h' hv => exact .refused (ht _ _ _ h h') hv
  | granted h' hv rest => exact .granted (ht _ _ _ h h') hv rest
  | later h' hv rest => exact .later (ht _ _ _ h h') hv rest

/-- A program that goes on with more nodes where it was not refused. -/
theorem append_ok (ht : ∀ s t u, pause s t → pause t u → pause s u) {nodes more : List α}
    {s t u : σ} {bs bs' : List β} (h : Runs visit pause nodes s (.ok bs, t))
    (h' : Runs visit pause more t (.ok bs', u)) :
    Runs visit pause (nodes ++ more) s (.ok (bs ++ bs'), u) := by
  generalize ho : (Except.ok bs, t) = outcome at h
  induction h generalizing bs with
  | done h =>
    cases ho
    exact after_pause ht h h'
  | refused => cases ho
  | granted h hv _ ih =>
    cases ho
    exact .granted h hv (ih rfl)
  | later => cases ho

theorem append_error (ht : ∀ s t u, pause s t → pause t u → pause s u) {nodes more : List α}
    {s t u : σ} {bs : List β} {e : ε} (h : Runs visit pause nodes s (.ok bs, t))
    (h' : Runs visit pause more t (.error e, u)) :
    Runs visit pause (nodes ++ more) s (.error e, u) := by
  generalize ho : (Except.ok bs, t) = outcome at h
  induction h generalizing bs with
  | done h =>
    cases ho
    exact after_pause ht h h'
  | refused => cases ho
  | granted h hv _ ih =>
    cases ho
    exact .later h hv (ih rfl)
  | later => cases ho

theorem error_append {nodes more : List α} {s t : σ} {e : ε}
    (h : Runs visit pause nodes s (.error e, t)) :
    Runs visit pause (nodes ++ more) s (.error e, t) := by
  generalize ho : (Except.error e, t) = outcome at h
  induction h with
  | done => cases ho
  | refused h hv =>
    cases ho
    exact .refused h hv
  | granted => cases ho
  | later h hv _ ih =>
    cases ho
    exact .later h hv (ih rfl)

end Runs

/-- A program over states `σ` that walks a graph of nodes `α` and answers for each with a `β`. -/
structure Walk (α β ε σ : Type) where
  targets : α → List α
  /-- The nodes that the program treats by the rules. -/
  Admits : α → Prop
  /-- How many visits may be under way. -/
  limit : Nat
  /-- A visit, with so many more allowed inside it. -/
  visit : (levels : Nat) → α → σ → Except ε β × σ
  /-- Why a new node is refused at its depth, after those in `seen`. -/
  check : (seen : List (α × Nat)) → α × Nat → Option ε
  answer : α → β
  /-- All that the search discovers from the start. -/
  whole : List (α × Nat)
  /-- The state once `seen` are discovered, while the visits of `opened` are under way. -/
  Stage : (seen : List (α × Nat)) → (opened : List α) → σ → Prop

namespace Walk

variable {α β ε σ : Type}

/-- A pause at a stage: it changes nothing that the stages from there on tell. -/
def Keeps (w : Walk α β ε σ) (seen : List (α × Nat)) (opened : List α) (s t : σ) : Prop :=
  ∀ more, w.Stage (seen ++ more) opened s → w.Stage (seen ++ more) opened t

theorem keeps_refl (w : Walk α β ε σ) (seen : List (α × Nat)) (opened : List α) (s : σ) :
    w.Keeps seen opened s s :=
  fun _ h => h

theorem keeps_trans (w : Walk α β ε σ) (seen : List (α × Nat)) (opened : List α) (s t u : σ)
    (h : w.Keeps seen opened s t) (h' : w.Keeps seen opened t u) : w.Keeps seen opened s u :=
  fun more hs => h' more (h more hs)

theorem Keeps.stage {w : Walk α β ε σ} {base seen : List (α × Nat)} {opened : List α} {s t : σ}
    (h : w.Keeps base opened s t) (hb : base <+: seen) (hs : w.Stage seen opened s) :
    w.Stage seen opened t := by
  obtain ⟨more, rfl⟩ := hb
  exact h more hs

/-- How a visit with so many `levels` inside it answers. A new node is opened, its targets are
visited, and it is closed. -/
structure Obeys (w : Walk α β ε σ) (levels : Nat) (visit : α → σ → Except ε β × σ) : Prop where
  met : ∀ {seen opened s node}, w.Stage seen opened s → w.Admits node → node ∈ seen.map Prod.fst →
    ∃ s', visit node s = (.ok (w.answer node), s') ∧ w.Stage seen opened s'
  refused : ∀ {seen opened s node e}, w.Stage seen opened s → w.Admits node →
    levels + opened.length = w.limit → node ∉ seen.map Prod.fst →
    w.check seen (node, opened.length) = some e → ∃ s', visit node s = (.error e, s')
  opens : ∀ {seen opened s node}, w.Stage seen opened s → w.Admits node →
    levels + opened.length = w.limit → node ∉ seen.map Prod.fst →
    w.check seen (node, opened.length) = none →
    seen ++ [(node, opened.length)] <+: w.whole →
    ∃ inner inside outcome, levels = inner + 1 ∧
      w.Stage (seen ++ [(node, opened.length)]) (node :: opened) inside ∧
      Runs (w.visit inner) (w.Keeps (seen ++ [(node, opened.length)]) (node :: opened))
        (w.targets node) inside outcome ∧
      match outcome with
      | (.error e, _) => ∃ s', visit node s = (.error e, s')
      | (.ok bs, s') => bs = (w.targets node).map w.answer →
          ∀ more, seen ++ (node, opened.length) :: more <+: w.whole →
            w.Stage (seen ++ (node, opened.length) :: more) (node :: opened) s' →
            ∃ s'', visit node s = (.ok (w.answer node), s'') ∧
              w.Stage (seen ++ (node, opened.length) :: more) opened s''

/-- A walk whose visits, at every level, obey the rules. -/
structure Lawful (w : Walk α β ε σ) : Prop where
  obeys : ∀ levels, w.Obeys levels (w.visit levels)
  closed : ∀ {node}, w.Admits node → ∀ target ∈ w.targets node, w.Admits target

/-- How a walk from a stage ends, if it is to discover `found`: refused at the first fault, or with
all of them discovered. -/
def Ends (w : Walk α β ε σ) (nodes : List α) (seen found : List (α × Nat)) (opened : List α) :
    Except ε (List β) × σ → Prop
  | (.error e, _) => firstFault w.check seen found = some e
  | (.ok bs, s) => firstFault w.check seen found = none ∧ bs = nodes.map w.answer ∧
      w.Stage (seen ++ found) opened s

/-- How one visit from a stage ends, if it is to discover `found`. -/
def Finds (w : Walk α β ε σ) (node : α) (seen found : List (α × Nat)) (opened : List α) :
    Except ε β × σ → Prop
  | (.error e, _) => firstFault w.check seen found = some e
  | (.ok b, s) => firstFault w.check seen found = none ∧ b = w.answer node ∧
      w.Stage (seen ++ found) opened s

section Steps

variable {w : Walk α β ε σ} {levels : Nat} {visit : α → σ → Except ε β × σ} {node : α}
  {nodes opened : List α} {seen first rest inner : List (α × Nat)} {s : σ}

theorem Obeys.finds_met (hv : w.Obeys levels visit) (hs : w.Stage seen opened s)
    (ha : w.Admits node) (known : node ∈ seen.map Prod.fst) :
    w.Finds node seen [] opened (visit node s) := by
  obtain ⟨t, hvisit, ht⟩ := hv.met hs ha known
  rw [hvisit]
  exact ⟨rfl, rfl, by rwa [List.append_nil]⟩

/-- A new node is refused at a fault in it or below it, or closed behind all that it leads to. -/
theorem Obeys.finds_new (hv : w.Obeys levels visit) (hs : w.Stage seen opened s)
    (ha : w.Admits node) (hl : levels + opened.length = w.limit) (fresh : node ∉ seen.map Prod.fst)
    (hp : seen ++ (node, opened.length) :: inner <+: w.whole)
    (hbelow : ∀ {levels' inside outcome}, levels = levels' + 1 →
      w.Stage (seen ++ [(node, opened.length)]) (node :: opened) inside →
      Runs (w.visit levels') (w.Keeps (seen ++ [(node, opened.length)]) (node :: opened))
        (w.targets node) inside outcome →
      w.Ends (w.targets node) (seen ++ [(node, opened.length)]) inner (node :: opened) outcome) :
    w.Finds node seen ((node, opened.length) :: inner) opened (visit node s) := by
  have hfault : firstFault w.check seen ((node, opened.length) :: inner) =
      (w.check seen (node, opened.length)).or
        (firstFault w.check (seen ++ [(node, opened.length)]) inner) := rfl
  cases hc : w.check seen (node, opened.length) with
  | some e =>
    obtain ⟨t, hvisit⟩ := hv.refused hs ha hl fresh hc
    rw [hvisit]
    unfold Finds
    rw [hfault, hc]
    rfl
  | none =>
    rw [hc, Option.none_or] at hfault
    have hpNode : seen ++ [(node, opened.length)] <+: w.whole := by
      apply List.IsPrefix.trans _ hp
      exact (List.prefix_append_right_inj seen).2 (by simp)
    obtain ⟨levels', inside, outcome, hlevels, hstage, hruns, hcloses⟩ :=
      hv.opens hs ha hl fresh hc hpNode
    have hends := hbelow hlevels hstage hruns
    obtain ⟨e | bs, u⟩ := outcome
    · obtain ⟨t, hvisit⟩ := hcloses
      rw [hvisit]
      exact hfault.trans hends
    · obtain ⟨hnone, hbs, hend⟩ := hends
      rw [List.append_assoc, List.singleton_append] at hend
      obtain ⟨t, hvisit, hclosed⟩ := hcloses hbs inner hp hend
      rw [hvisit]
      exact ⟨hfault.trans hnone, rfl, hclosed⟩

/-- A walk goes on behind its first node with what that did not discover. -/
theorem ends_cons {pause : σ → σ → Prop} (hpause : ∀ t, pause s t → w.Stage seen opened t)
    (hnode : ∀ t, w.Stage seen opened t → w.Finds node seen first opened (visit node t))
    (hrest : ∀ {t outcome}, w.Stage (seen ++ first) opened t →
      Runs visit pause nodes t outcome → w.Ends nodes (seen ++ first) rest opened outcome)
    {outcome : Except ε (List β) × σ} (hr : Runs visit pause (node :: nodes) s outcome) :
    w.Ends (node :: nodes) seen (first ++ rest) opened outcome := by
  have hfault := firstFault_append w.check seen first rest
  cases hr with
  | refused h hvisit =>
    have hsome := hnode _ (hpause _ h)
    rw [hvisit] at hsome
    unfold Finds at hsome
    unfold Ends
    rw [hfault, hsome]
    rfl
  | granted h hvisit hruns =>
    have hfound := hnode _ (hpause _ h)
    rw [hvisit] at hfound
    obtain ⟨hnone, rfl, hstage⟩ := hfound
    obtain ⟨hnone', rfl, hend⟩ := hrest hstage hruns
    rw [hnone, hnone'] at hfault
    exact ⟨hfault, rfl, by rwa [List.append_assoc] at hend⟩
  | later h hvisit hruns =>
    have hfound := hnode _ (hpause _ h)
    rw [hvisit] at hfound
    obtain ⟨hnone, rfl, hstage⟩ := hfound
    have hsome := hrest hstage hruns
    unfold Ends at hsome ⊢
    rw [hfault, hnone, hsome]
    rfl

end Steps

/-- A lawful walk is the search, cut at its first fault. -/
theorem run {w : Walk α β ε σ} (hw : w.Lawful) {depth levels : Nat} {nodes opened : List α}
    {base seen found : List (α × Nat)} (h : Search w.targets depth nodes seen found)
    {visit : α → σ → Except ε β × σ} (hv : w.Obeys levels visit) (hd : opened.length = depth)
    (hl : levels + depth = w.limit) (ha : ∀ node ∈ nodes, w.Admits node) (hb : base <+: seen)
    (hp : seen ++ found <+: w.whole) {s : σ} (hs : w.Stage seen opened s)
    {outcome : Except ε (List β) × σ} (hr : Runs visit (w.Keeps base opened) nodes s outcome) :
    w.Ends nodes seen found opened outcome := by
  -- The levels, the states and the base of the pauses change with each visit below a node.
  induction h generalizing levels visit base opened s outcome with
  | done =>
    cases hr with
    | done h => exact ⟨rfl, rfl, by rw [List.append_nil]; exact h.stage hb hs⟩
  | met known _ ih =>
    exact ends_cons (fun t h => h.stage hb hs)
      (fun t ht => hv.finds_met ht (ha _ List.mem_cons_self) known)
      (fun ht hruns => by
        rw [List.append_nil] at ht ⊢
        exact ih hv hd hl (fun n hn => ha n (List.mem_cons_of_mem _ hn)) hb hp ht hruns) hr
  | @new depth node nodes seen inner found fresh _ _ ihBelow ihRest =>
    subst hd
    have hsplit : seen ++ (node, opened.length) :: (inner ++ found) =
        (seen ++ (node, opened.length) :: inner) ++ found := by simp
    rw [hsplit] at hp
    have hpNode := (List.prefix_append _ _).trans hp
    have hadmits := ha node List.mem_cons_self
    exact ends_cons (fun t h => h.stage hb hs)
      (fun t ht => hv.finds_new ht hadmits hl fresh hpNode fun hlevels hstage hruns =>
        ihBelow (hw.obeys _) rfl (by omega) (hw.closed hadmits) List.prefix_rfl
          (by simpa using hpNode) hstage hruns)
      (fun ht hruns => ihRest hv rfl hl (fun n hn => ha n (List.mem_cons_of_mem _ hn))
        (hb.trans (List.prefix_append _ _)) hp ht hruns) hr

end Walk
end ObjectGraph.Graph
