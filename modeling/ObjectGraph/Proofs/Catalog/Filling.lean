import ObjectGraph.Proofs.Catalog.References
import ObjectGraph.Proofs.NodeTable
import ObjectGraph.Proofs.Rebuild.Parts

/-! How the hooks of catalog nodes fill them. Whatever its type, a hook resolves the links of the
record in order, up to the first refusal, and with all of them resolved it puts their nodes where
the record has numbers (`fills_record`). -/
namespace ObjectGraph.Catalog

open ObjectGraph.Graph (Runs visitAll)
open Rebuild (Address Call Event Hook Session)
open Rebuild.Session (resolve require runHook)

abbrev Ref := RecordId × Kind

/-- Resolves a reference that must not be absent. `start` is what a new node holds at first. -/
def visitRef (e : Encoding) (start : Kind → Built) (levels : Nat) (ref : Ref) (s : Rebuilding) :
    Except Graph.Error Address × Rebuilding :=
  match resolve rebuildSchema (codec e) levels ref.2 ref.1 (start ref.2) s with
  | (.error e, s) => (.error e, s)
  | (.ok none, s) => (.error (.nilReference (typeName ref.2)), s)
  | (.ok (some node), s) => (.ok node, s)

theorem require_eq_visitRef (e : Encoding) (levels : Nat) (kind : Kind) (id : RecordId)
    (s : Rebuilding) :
    require rebuildSchema (resolve rebuildSchema (codec e) levels) kind id s =
      visitRef e .empty levels (id, kind) s := by
  unfold require visitRef
  have hempty : rebuildSchema.empty kind = Built.empty kind := rfl
  rw [hempty]
  rcases resolve rebuildSchema (codec e) levels kind id (.empty kind) s with
    ⟨fault | node | node, t⟩ <;> rfl

section Hooks

variable {e : Encoding} {levels : Nat} {s s' : Rebuilding}

theorem visitAll_map {α β γ ε σ : Type} (visit : α → σ → Except ε β × σ) (f : γ → α)
    (nodes : List γ) (s : σ) :
    visitAll visit (nodes.map f) s = visitAll (fun c => visit (f c)) nodes s := by
  induction nodes generalizing s with
  | nil => rfl
  | cons c nodes ih =>
    rw [List.map_cons, visitAll, visitAll]
    rcases visit (f c) s with ⟨e | b, t⟩
    · rfl
    · dsimp only
      rw [ih]

variable (e levels) in
theorem perform_all (kind : Kind) (ids : List RecordId) (s : Rebuilding) :
    s.perform rebuildSchema (resolve rebuildSchema (codec e) levels) (.all kind ids) =
      match visitAll (visitRef e .empty levels) (ids.map (·, kind)) s with
      | (.error fault, s) => (.error fault, s.note (.refused fault s.failed))
      | (.ok nodes, s) => (.ok nodes, s) := by
  rw [visitAll_map]
  simp only [Session.perform, Session.answer, Session.requireAll_eq]
  have hrequire : require rebuildSchema (resolve rebuildSchema (codec e) levels) kind =
      fun id => visitRef e .empty levels (id, kind) :=
    funext fun id => funext fun s => require_eq_visitRef e levels kind id s
  rw [hrequire]
  rcases visitAll (fun id => visitRef e .empty levels (id, kind)) ids s with ⟨fault | nodes, t⟩ <;>
    rfl

variable (e levels) in
theorem perform_resolve {id : RecordId} (hid : id ≠ .nil) (kind : Kind) (s : Rebuilding) :
    s.perform rebuildSchema (resolve rebuildSchema (codec e) levels)
        (.resolve kind id (.empty kind)) =
      match visitRef e .empty levels (id, kind) s with
      | (.error fault, s) => (.error fault, s.note (.refused fault s.failed))
      | (.ok node, s) => (.ok (some node), s) := by
  simp only [Session.perform, Session.answer, visitRef]
  rcases h : resolve rebuildSchema (codec e) levels kind id (.empty kind) s with
    ⟨fault | node | node, t⟩
  · rfl
  · exact absurd ((Session.poisons_resolve rebuildSchema (codec e) levels).absent h) hid
  · rfl

variable (e levels) in
theorem perform_resolve_nil (kind : Kind) (hs : s.failed = false) :
    s.perform rebuildSchema (resolve rebuildSchema (codec e) levels)
        (.resolve kind .nil (.empty kind)) = (.ok none, s.note (.resolved .nil none)) := by
  have hnil := (Session.poisons_resolve rebuildSchema (codec e) levels).nil kind (.empty kind) hs
  simp only [Session.perform, Session.answer, hnil]

/-- How the hook of a node resolves its links and fills the node. Between two resolutions it only
pauses; if none of them is refused, the node holds the content with every link in its place. -/
def Fills (e : Encoding) (levels : Nat) (pause : Rebuilding → Rebuilding → Prop) (node : Address)
    (hook : Hook Kind Built) (links : List Ref)
    (content : (RecordId → Address) → Content Address) (s : Rebuilding) : Prop :=
  ∃ outcome, Runs (visitRef e .empty levels) pause links s outcome ∧
    match outcome with
    | (.error fault, _) => ∃ s',
        runHook rebuildSchema (resolve rebuildSchema (codec e) levels) node hook s =
          (.error fault, s')
    | (.ok nodes, s') => ∀ place : RecordId → Address, nodes = links.map (fun l => place l.1) →
        runHook rebuildSchema (resolve rebuildSchema (codec e) levels) node hook s =
          (.ok (), s'.assign node ⟨content place, []⟩)

variable {pause : Rebuilding → Rebuilding → Prop} {node : Address}

variable (e levels) in
theorem fills_option (hrefl : ∀ s, pause s s)
    (htrans : ∀ s t u, pause s t → pause t u → pause s u)
    (hassign : ∀ s content, pause s (s.assign node content))
    (hnil : ∀ s, pause s (s.note (.resolved .nil none))) (hs : s.failed = false) (kind : Kind)
    (id : RecordId) (item : Option Address → Content Address) :
    Fills e levels pause node (fillOption kind id item) (Record.optional kind id)
      (fun place => item (if id.isNil then none else some (place id))) s := by
  by_cases hid : id = .nil
  · subst hid
    have hperform := perform_resolve_nil e levels kind
      (show (s.assign node ⟨item none, []⟩).failed = false from hs)
    refine ⟨(.ok [], _), .done (htrans _ _ _ (hassign s ⟨item none, []⟩) (hnil _)), ?_⟩
    intro place _
    simp only [fillOption, runHook, hperform]
    rfl
  · have hperform := perform_resolve e levels hid kind
      (s.assign node ⟨item none, []⟩)
    rw [Record.optional_of_ne_nil hid]
    rcases hv : visitRef e .empty levels (id, kind) (s.assign node ⟨item none, []⟩) with
      ⟨fault | n, t⟩ <;> rw [hv] at hperform
    · refine ⟨(.error fault, t), .refused (hassign ..) hv, ?_⟩
      simp only [fillOption, runHook, hperform]
      exact ⟨_, rfl⟩
    · refine ⟨(.ok [n], t), .granted (hassign ..) hv (.done (hrefl t)), ?_⟩
      intro place hn
      obtain rfl : n = place id := by simpa using hn
      simp only [fillOption, runHook, hperform]
      simp [Hook.orFail, finish, runHook, RecordId.isNil, hid]

variable (e levels) in
theorem fills_all (hrefl : ∀ s, pause s s)
    (htrans : ∀ s t u, pause s t → pause t u → pause s u)
    (hassign : ∀ s content, pause s (s.assign node content)) (kind : Kind)
    (ids : List RecordId) (item : List Address → Content Address) :
    Fills e levels pause node (fillAll kind ids item) (ids.map (·, kind))
      (fun place => item (ids.map place)) s := by
  have hperform := perform_all e levels kind ids (s.assign node ⟨item [], []⟩)
  have hruns := Runs.of_visitAll (visitRef e .empty levels) hrefl (ids.map (·, kind))
    (s.assign node ⟨item [], []⟩)
  refine ⟨_, hruns.after_pause htrans (hassign ..), ?_⟩
  rcases hv : visitAll (visitRef e .empty levels) (ids.map (·, kind))
    (s.assign node ⟨item [], []⟩) with ⟨fault | nodes, t⟩ <;> rw [hv] at hperform
  · simp only [fillAll, runHook, hperform]
    exact ⟨_, rfl⟩
  · intro place hn
    rw [List.map_map] at hn
    obtain rfl : nodes = ids.map place := hn
    simp only [fillAll, runHook, hperform]
    rfl

variable (e levels) in
/-- The hook of a record that is not lenient. -/
theorem fills_record (hrefl : ∀ s, pause s s)
    (htrans : ∀ s t u, pause s t → pause t u → pause s u)
    (hassign : ∀ s content, pause s (s.assign node content))
    (hnil : ∀ s, pause s (s.note (.resolved .nil none))) (hs : s.failed = false) {r : Record}
    (hr : r.kind ≠ .lenient) :
    Fills e levels pause node r.fill r.links (fun place => r.toContent place) s := by
  cases r with
  | lenient => exact absurd rfl hr
  | ability name archetype => exact ⟨(.ok [], s), .done (hrefl s), fun place _ => rfl⟩
  | peer | player | deck => exact fills_option e levels hrefl htrans hassign hnil hs _ _ _
  | vertex | card => exact fills_all e levels hrefl htrans hassign _ _ _
  | cardList abilities cards =>
    have hperform := perform_all e levels .ability abilities s
    have hruns := Runs.of_visitAll (visitRef e .empty levels) hrefl
      (abilities.map (·, .ability)) s
    rcases hv : visitAll (visitRef e .empty levels) (abilities.map (·, .ability)) s with
      ⟨fault | nodes, t⟩ <;> rw [hv] at hperform hruns
    · refine ⟨_, hruns.error_append, ?_⟩
      simp only [Record.fill, runHook, hperform]
      exact ⟨_, rfl⟩
    · obtain ⟨⟨fault | nodes', u⟩, hrest, hfills⟩ :=
        fills_all e levels (s := t) hrefl htrans hassign .card cards (.cardList nodes)
      · refine ⟨_, hruns.append_error htrans hrest, ?_⟩
        simp only [Record.fill, runHook, hperform]
        exact hfills
      · refine ⟨_, hruns.append_ok htrans hrest, ?_⟩
        intro place hn
        have hlen := Graph.length_of_visitAll hv
        simp only [Record.links, List.map_append, List.map_map] at hn hlen
        obtain ⟨hnodes, hnodes'⟩ := List.append_inj hn (by simpa using hlen)
        simp only [Record.fill, runHook, hperform]
        have hfilled := hfills place (by rw [hnodes', List.map_map])
        rw [hnodes] at hfilled ⊢
        exact hfilled

end Hooks

end ObjectGraph.Catalog
