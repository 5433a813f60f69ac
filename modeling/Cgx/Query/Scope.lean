import Cgx.Core.Edge
import Cgx.Query.Contract

open cgx.core walks

namespace cgx.query

/-- An edge record without its dense id. -/
def unnumbered (edge : EdgeRecord) : EdgeRecord :=
  { edge with id := ⟨0⟩ }

/-- `view'` has the edges of `view` and possibly more, none of which is of the given
kinds. Edges are compared up to their dense ids. -/
def ExtendsOutside (kinds : List EdgeKind) (view view' : GraphView) : Prop :=
  (∀ e ∈ view.edges, ∃ e' ∈ view'.edges, unnumbered e' = unnumbered e) ∧
    ∀ e' ∈ view'.edges, e'.kind ∈ kinds → ∃ e ∈ view.edges, unnumbered e = unnumbered e'

/-- `view'` is `view` with edges added, or with edges deleted, whose kinds are not
among the given ones. -/
structure EditedOutside (kinds : List EdgeKind) (view view' : GraphView) : Prop where
  nodes : view'.nodes = view.nodes
  candidates : view'.candidates = view.candidates
  edges : ExtendsOutside kinds view view' ∨ ExtendsOutside kinds view' view

/-- The negative scope of a neighbor answer is true of it. -/
def NeighborScopeHolds (view : GraphView) (walker : PathWalker) (anchor : NodeId)
    (dir : Direction) : Prop :=
  ∀ scope, (for_neighbors view walker anchor dir (neighbor_walk view anchor walker dir)).scope =
    some scope → ∀ view', EditedOutside scope.searched_edge_kinds view view' →
      ∀ n, n ∈ (neighbor_walk view' anchor walker dir).map (fun r => r.node.id) ↔
        n ∈ (neighbor_walk view anchor walker dir).map (fun r => r.node.id)

/-- The negative scope of a reachability answer is true of it. -/
def ReachScopeHolds (view : GraphView) (walker : PathWalker) (source target : NodeId) : Prop :=
  ∀ scope, (for_reaches view walker source (reaches view source target walker)).scope = some scope →
    ∀ view', EditedOutside scope.searched_edge_kinds view view' →
      (reaches view' source target walker).reachable = (reaches view source target walker).reachable

/-- The negative scope of an `unused` answer is true of it. -/
def UnusedScopeHolds (view : GraphView) (walker : PathWalker) (entrypoints : List NodeId)
    (kinds : List SymbolKind) : Prop :=
  ∀ scope, (for_unused view walker (entrypoint_roots view entrypoints)).scope = some scope →
    ∀ view', EditedOutside scope.searched_edge_kinds view view' →
      unused view' entrypoints kinds walker = unused view entrypoints kinds walker

/-- The same walk over the kinds that its scope lists. -/
def PathWalker.listed (walker : PathWalker) : PathWalker :=
  { walker with filter := { walker.filter with kinds := some (searched_kinds walker.filter) } }

section edits

variable {walker : PathWalker} {view view' : GraphView} {dir : Direction} {kinds : List EdgeKind}

theorem EditedOutside.exists_edge (hedit : EditedOutside kinds view view') {e : EdgeRecord}
    (he : e ∈ view'.edges) (hkind : e.kind ∈ kinds) :
    ∃ e₁ ∈ view.edges, unnumbered e₁ = unnumbered e := by
  obtain ⟨_, hlisted⟩ | ⟨hall, _⟩ := hedit.edges
  · exact hlisted e he hkind
  · exact hall e he

theorem EditedOutside.symm (hedit : EditedOutside kinds view view') :
    EditedOutside kinds view' view :=
  ⟨hedit.nodes.symm, hedit.candidates.symm, hedit.edges.symm⟩

/-- What a walk reads of an edge does not depend on its id. -/
private theorem fields_of_unnumbered {e e' : EdgeRecord} (h : unnumbered e' = unnumbered e) :
    e'.src = e.src ∧ e'.dst = e.dst ∧ e'.kind = e.kind ∧ e'.condition = e.condition ∧
      e'.confidence = e.confidence ∧ e'.candidate_group = e.candidate_group := by
  unfold unnumbered at h
  rw [EdgeRecord.mk.injEq] at h
  obtain ⟨_, hsrc, hdst, hkind, hcondition, hconfidence, _, _, _, _, _, _, hgroup, _⟩ := h
  exact ⟨hsrc, hdst, hkind, hcondition, hconfidence, hgroup⟩

private theorem over_cap_congr {filter : EdgeFilter} {e e' : EdgeRecord}
    (hcandidates : view'.candidates = view.candidates) (he : unnumbered e' = unnumbered e) :
    view'.over_cap filter e' = view.over_cap filter e := by
  obtain ⟨_, _, _, _, _, hgroup⟩ := fields_of_unnumbered he
  unfold GraphView.over_cap GraphView.candidate_group_size
  rw [hcandidates, hgroup]

private theorem admits_congr {filter : EdgeFilter} {e e' : EdgeRecord}
    (he : unnumbered e' = unnumbered e) : filter.admits e' = filter.admits e := by
  obtain ⟨_, _, hkind, hcondition, hconfidence, _⟩ := fields_of_unnumbered he
  unfold EdgeFilter.admits
  rw [hkind, hconfidence, hcondition]

/-- An edit outside the listed kinds keeps every step of the listed walk. -/
theorem EditedOutside.follows_listed (hedit : EditedOutside (searched_kinds walker.filter) view view')
    {x y : NodeId} (h : walker.listed.Follows view' dir x y) : walker.listed.Follows view dir x y := by
  obtain ⟨er, her, rfl, hrange⟩ := h
  obtain ⟨hmem, horigin, hpeer, hxrange, hadmits, hcap⟩ := GraphView.mem_neighbors.mp her
  have hkind : er.edge.kind ∈ searched_kinds walker.filter := by
    simpa [EdgeFilter.admits_kind, PathWalker.listed] using (EdgeFilter.admits_iff.mp hadmits).1
  obtain ⟨e, he, hsame⟩ := hedit.exists_edge hmem hkind
  obtain ⟨hsrc, hdst, _⟩ := fields_of_unnumbered hsame
  have hcount : view'.node_count = view.node_count := congrArg List.length hedit.nodes
  have horigin' : dir.origin e = dir.origin er.edge := by cases dir <;> assumption
  have hpeer' : dir.peer e = dir.peer er.edge := by cases dir <;> assumption
  refine ⟨⟨e, er.peer⟩, GraphView.mem_neighbors.mpr ⟨he, ?_, ?_, hcount ▸ hxrange, ?_, ?_⟩, rfl,
    hcount ▸ hrange⟩
  · exact horigin'.trans horigin
  · exact hpeer.trans hpeer'.symm
  · rw [admits_congr hsame, hadmits]
  · rw [over_cap_congr hedit.candidates.symm hsame, hcap]

theorem listed_eq_of_kinds (h : walker.filter.kinds ≠ none) : walker.listed = walker := by
  obtain ⟨⟨floor, condition, kinds, cap⟩, depth, paths, steps⟩ := walker
  cases kinds with
  | none => exact absurd rfl h
  | some kinds => rfl

theorem follows_of_listed {x y : NodeId} (h : walker.listed.Follows view dir x y) :
    walker.Follows view dir x y := by
  obtain ⟨er, her, hpeer, hrange⟩ := h
  obtain ⟨hmem, horigin, hpeer', hxrange, hadmits, hcap⟩ := GraphView.mem_neighbors.mp her
  obtain ⟨hkind, hconfidence, hcondition⟩ := EdgeFilter.admits_iff.mp hadmits
  refine ⟨er, GraphView.mem_neighbors.mpr ⟨hmem, horigin, hpeer', hxrange, ?_, hcap⟩, hpeer, hrange⟩
  refine EdgeFilter.admits_iff.mpr ⟨?_, hconfidence, hcondition⟩
  have hlisted : er.edge.kind ∈ searched_kinds walker.filter := by
    simpa [EdgeFilter.admits_kind, PathWalker.listed] using hkind
  unfold EdgeFilter.admits_kind
  unfold searched_kinds at hlisted
  cases hkinds : walker.filter.kinds with
  | some kinds =>
    rw [hkinds] at hlisted
    simpa using hlisted
  | none =>
    rw [hkinds] at hlisted
    simp only [List.mem_cons, List.not_mem_nil, or_false] at hlisted
    rcases hlisted with h | h | h | h | h | h <;> simp [h, EdgeKind.is_call]

/-- With explicit kinds an edit outside them changes no step of the walk. -/
theorem EditedOutside.follows_iff (hkinds : walker.filter.kinds ≠ none)
    (hedit : EditedOutside (searched_kinds walker.filter) view view') :
    walker.Follows view' dir = walker.Follows view dir := by
  have hlisted := listed_eq_of_kinds hkinds
  funext x y
  refine propext ⟨fun h => ?_, fun h => ?_⟩
  · rw [← hlisted] at h ⊢
    exact hedit.follows_listed h
  · rw [← hlisted] at h ⊢
    refine EditedOutside.follows_listed ?_ h
    exact hedit.symm

/-- A walk whose limit is zero stays where it is. -/
theorem reached_of_limit_zero {R : NodeId → NodeId → Prop} (hdepth : walker.max_depth = some 0)
    {x y : NodeId} : ReachedWithin R walker.limit x y ↔ x = y := by
  unfold ReachedWithin PathWalker.limit
  rw [hdepth]
  constructor
  · rintro ⟨k, hk, hwalk⟩
    have hzero : k = 0 := by simpa using hk
    subst hzero
    exact Walk.zero_iff.mp hwalk
  · rintro rfl
    exact ⟨0, by simp, .refl x⟩

theorem within_one (hdepth : walker.max_depth ≠ some 0) : within walker.limit 1 = true := by
  unfold PathWalker.limit
  cases hmax : walker.max_depth with
  | none => rfl
  | some depth =>
    rw [Option.map_some, within_some]
    have hne : depth ≠ 0 := by
      rintro rfl
      exact hdepth hmax
    have hpos : depth.toNat ≠ 0 := fun h => hne (UInt32.toNat_inj.mp h)
    omega

/-- Nothing is reached from a node outside the view. -/
theorem reached_of_out_of_range {limit : Option Nat} {x y : NodeId}
    (hrange : view.node_count ≤ x.index)
    (h : ReachedWithin (walker.Follows view dir) limit x y) : x = y := by
  obtain ⟨k, _, hwalk⟩ := h
  by_contra hne
  obtain ⟨z, er, her, _⟩ := hwalk.exists_step_of_ne hne
  have hlt := (GraphView.mem_neighbors.mp her).2.2.2.1
  omega

end edits

section spawn

variable {walker : PathWalker} {view : GraphView} {dir : Direction}

/-- A spawn edge from `x` to `y`, against the direction of the walk if it is backward. -/
def spawn_edge (dir : Direction) (condition : EdgeCondition) (x y : NodeId) : EdgeRecord :=
  { (default : EdgeRecord) with
    src := match dir with
      | .Forward => x
      | .Backward => y
    dst := match dir with
      | .Forward => y
      | .Backward => x
    kind := .Spawns
    condition := condition
    confidence := .Certain }

def GraphView.add_edge (view : GraphView) (edge : EdgeRecord) : GraphView :=
  { view with edges := view.edges ++ [edge] }

def GraphView.without_spawns (view : GraphView) : GraphView :=
  { view with edges := view.edges.filter fun edge => edge.kind ≠ .Spawns }

theorem spawns_not_searched (hkinds : walker.filter.kinds = none) :
    EdgeKind.Spawns ∉ searched_kinds walker.filter := by
  simp [searched_kinds, hkinds]

/-- The default scope does not list the spawn edges that the default walk follows. -/
theorem exists_edit_following (dir : Direction) (hkinds : walker.filter.kinds = none) {x y : NodeId}
    (hx : x.index < view.node_count) (hy : y.index < view.node_count) :
    ∃ view', EditedOutside (searched_kinds walker.filter) view view' ∧
      walker.Follows view' dir x y := by
  obtain ⟨condition, hcondition⟩ := walker.filter.condition.exists_admits
  set edge := spawn_edge dir condition x y with hedge
  refine ⟨view.add_edge edge, ⟨rfl, rfl, .inl ⟨?_, ?_⟩⟩, ⟨edge, y⟩, ?_, rfl, hy⟩
  · intro e he
    exact ⟨e, List.mem_append_left _ he, rfl⟩
  · intro e he hkind
    obtain he | he := List.mem_append.mp he
    · exact ⟨e, he, rfl⟩
    · rw [List.mem_singleton.mp he] at hkind
      exact absurd hkind (spawns_not_searched hkinds)
  · refine GraphView.mem_neighbors.mpr ⟨List.mem_append_right _ (List.mem_singleton_self _), ?_, ?_, hx,
      ?_, ?_⟩
    · cases dir <;> rfl
    · cases dir <;> rfl
    · refine EdgeFilter.admits_iff.mpr ⟨?_, Confidence.not_Certain_lt _, hcondition⟩
      unfold EdgeFilter.admits_kind
      rw [hkinds]
      rfl
    · unfold GraphView.over_cap
      cases walker.filter.max_candidates <;> rfl

theorem edited_without_spawns (view : GraphView) (hkinds : walker.filter.kinds = none) :
    EditedOutside (searched_kinds walker.filter) view view.without_spawns := by
  refine ⟨rfl, rfl, .inr ⟨?_, ?_⟩⟩
  · intro e he
    exact ⟨e, (List.mem_filter.mp he).1, rfl⟩
  · intro e he hkind
    refine ⟨e, List.mem_filter.mpr ⟨he, ?_⟩, rfl⟩
    have hne : e.kind ≠ .Spawns := by
      intro hspawns
      rw [hspawns] at hkind
      exact spawns_not_searched hkinds hkind
    simpa using hne

/-- Without spawn edges the default walk follows its listed kinds only. -/
theorem listed_of_follows_without_spawns {x y : NodeId}
    (h : walker.Follows view.without_spawns dir x y) (hkinds : walker.filter.kinds = none) :
    walker.listed.Follows view dir x y := by
  obtain ⟨er, her, hpeer, hrange⟩ := h
  obtain ⟨hmem, horigin, hpeer', hxrange, hadmits, hcap⟩ := GraphView.mem_neighbors.mp her
  obtain ⟨hedge, hnotspawn⟩ := List.mem_filter.mp hmem
  obtain ⟨hkind, hconfidence, hcondition⟩ := EdgeFilter.admits_iff.mp hadmits
  refine ⟨er, GraphView.mem_neighbors.mpr ⟨hedge, horigin, hpeer', hxrange, ?_, hcap⟩, hpeer, hrange⟩
  refine EdgeFilter.admits_iff.mpr ⟨?_, hconfidence, hcondition⟩
  have hne : er.edge.kind ≠ .Spawns := by simpa using hnotspawn
  unfold EdgeFilter.admits_kind at hkind ⊢
  rw [hkinds] at hkind
  simp only [PathWalker.listed, searched_kinds, hkinds]
  cases hcase : er.edge.kind <;> simp_all [EdgeKind.is_call]

end spawn

/-- When the scope of an empty neighbor answer is true: the kinds are explicit, or
no step can be added at all. -/
def NeighborScopeSafe (view : GraphView) (walker : PathWalker) (anchor : NodeId) : Prop :=
  walker.filter.kinds ≠ none ∨ walker.max_depth = some 0 ∨ view.node_count ≤ anchor.index ∨
    view.node_count ≤ 1

/-- When the scope of a negative reachability answer is true. -/
def ReachScopeSafe (view : GraphView) (walker : PathWalker) (source target : NodeId) : Prop :=
  walker.filter.kinds ≠ none ∨ walker.max_depth = some 0 ∨ view.node_count ≤ source.index ∨
    view.node_count ≤ target.index

/-- When the scope of an `unused` answer is true: the kinds are explicit, or no step
can be added, or the listed kinds alone reach every symbol asked about. -/
def UnusedScopeSafe (view : GraphView) (walker : PathWalker) (roots : List NodeId)
    (kinds : List SymbolKind) : Prop :=
  walker.filter.kinds ≠ none ∨ walker.max_depth = some 0 ∨
    (∀ root ∈ roots, view.node_count ≤ root.index) ∨
    ∀ node ∈ view.nodes, (kinds = [] ∨ node.kind ∈ kinds) →
      ∃ root ∈ roots, ReachedWithin (walker.listed.Follows view .Forward) walker.limit root node.id

theorem scope_of_neighbors {view : GraphView} {walker : PathWalker} {anchor : NodeId}
    {dir : Direction} {scope : NegativeScope}
    (h : (for_neighbors view walker anchor dir (neighbor_walk view anchor walker dir)).scope =
      some scope) :
    neighbor_walk view anchor walker dir = [] ∧
      scope.searched_edge_kinds = searched_kinds walker.filter := by
  unfold for_neighbors ApproximationContract.assemble at h
  dsimp only at h
  split at h
  · rename_i hempty
    cases h
    exact ⟨List.isEmpty_iff.mp hempty, rfl⟩
  · simp at h

theorem scope_of_reaches {view : GraphView} {walker : PathWalker} {source target : NodeId}
    {scope : NegativeScope}
    (h : (for_reaches view walker source (reaches view source target walker)).scope = some scope) :
    (reaches view source target walker).reachable = false ∧
      scope.searched_edge_kinds = searched_kinds walker.filter := by
  have hsome := reaches_witness_isSome view source target walker
  unfold for_reaches at h
  cases hwitness : (reaches view source target walker).witness with
  | some witness => simp [hwitness, ApproximationContract.assemble] at h
  | none =>
    rw [hwitness] at h hsome
    cases h
    exact ⟨hsome.symm, rfl⟩

theorem neighbor_scope_holds_iff {view : GraphView} {walker : PathWalker} {anchor : NodeId}
    {dir : Direction} (hempty : neighbor_walk view anchor walker dir = []) :
    NeighborScopeHolds view walker anchor dir ↔ NeighborScopeSafe view walker anchor := by
  constructor
  · intro hholds
    by_contra hexposed
    simp only [NeighborScopeSafe, not_or, not_not, not_le] at hexposed
    obtain ⟨hkinds, hdepth, hrange, hcount⟩ := hexposed
    -- a spawn edge to any other node enters the answer
    obtain ⟨other, hother, hne⟩ : ∃ other : NodeId, other.index < view.node_count ∧ other ≠ anchor := by
      by_cases hzero : anchor.index = 0
      · refine ⟨NodeId.ofIndex 1, ?_, fun h => ?_⟩
        · rw [NodeId.index_ofIndex (by omega)]
          exact hcount
        · rw [← h, NodeId.index_ofIndex (by omega)] at hzero
          omega
      · refine ⟨NodeId.ofIndex 0, ?_, fun h => ?_⟩
        · rw [NodeId.index_ofIndex (by omega)]
          omega
        · rw [← h, NodeId.index_ofIndex (by omega)] at hzero
          omega
    obtain ⟨view', hedit, hfollows⟩ :=
      exists_edit_following dir hkinds hrange hother
    have hscope : (for_neighbors view walker anchor dir
        (neighbor_walk view anchor walker dir)).scope = some (scope_of walker) := by
      simp [for_neighbors, hempty, ApproximationContract.assemble]
    have hmem := (hholds _ hscope view' hedit other).mp
      (mem_neighbor_walk_iff.mpr ⟨hne, 1, within_one hdepth, .single hfollows⟩)
    simp [hempty] at hmem
  · intro hsafe scope hscope view' hedit n
    obtain ⟨_, hlist⟩ := scope_of_neighbors hscope
    rw [hlist] at hedit
    rw [mem_neighbor_walk_iff, mem_neighbor_walk_iff]
    have hcount : view'.node_count = view.node_count := congrArg List.length hedit.nodes
    obtain hkinds | hdepth | hrange | hsmall := hsafe
    · rw [hedit.follows_iff hkinds]
    · rw [reached_of_limit_zero hdepth, reached_of_limit_zero hdepth]
    · constructor
      · rintro ⟨hne, hreached⟩
        exact absurd (reached_of_out_of_range (hcount ▸ hrange) hreached).symm hne
      · rintro ⟨hne, hreached⟩
        exact absurd (reached_of_out_of_range hrange hreached).symm hne
    · -- with one node there is no other node to reach
      have honly : ∀ {v : GraphView}, v.node_count ≤ 1 →
          ¬ (n ≠ anchor ∧ ReachedWithin (walker.Follows v dir) walker.limit anchor n) := by
        rintro v hv ⟨hne, k, _, hwalk⟩
        cases k with
        | zero => exact hne (Walk.zero_iff.mp hwalk).symm
        | succ k =>
          obtain ⟨y, _, _, _, _, hn⟩ := Walk.succ_iff.mp hwalk
          obtain ⟨z, er, her, _⟩ := hwalk.exists_step_of_ne (Ne.symm hne)
          have hanchor := (GraphView.mem_neighbors.mp her).2.2.2.1
          exact hne (NodeId.ext_index (by omega))
      exact ⟨fun h => absurd h (honly (hcount ▸ hsmall)), fun h => absurd h (honly hsmall)⟩

theorem reach_scope_holds_iff {view : GraphView} {walker : PathWalker} {source target : NodeId}
    (hunreachable : (reaches view source target walker).reachable = false) :
    ReachScopeHolds view walker source target ↔ ReachScopeSafe view walker source target := by
  have hnot : ¬ ReachedWithin (walker.Follows view .Forward) walker.limit source target := by
    rw [← reaches_reachable_iff, hunreachable]
    simp
  have hwitness : (reaches view source target walker).witness = none := by
    have hsome := reaches_witness_isSome view source target walker
    rw [hunreachable] at hsome
    simpa using hsome
  constructor
  · intro hholds
    by_contra hexposed
    simp only [ReachScopeSafe, not_or, not_not, not_le] at hexposed
    obtain ⟨hkinds, hdepth, hsource, htarget⟩ := hexposed
    obtain ⟨view', hedit, hfollows⟩ :=
      exists_edit_following .Forward hkinds hsource htarget
    have hscope : (for_reaches view walker source (reaches view source target walker)).scope =
        some (scope_of walker) := by
      simp [for_reaches, hwitness, ApproximationContract.assemble]
    have hsame := hholds _ hscope view' hedit
    have hreached := reaches_reachable_iff.mpr
      (⟨1, within_one hdepth, .single hfollows⟩ : ReachedWithin _ walker.limit source target)
    rw [hreached, hunreachable] at hsame
    cases hsame
  · intro hsafe scope hscope view' hedit
    obtain ⟨_, hlist⟩ := scope_of_reaches hscope
    rw [hlist] at hedit
    have hcount : view'.node_count = view.node_count := congrArg List.length hedit.nodes
    rw [hunreachable, Bool.eq_false_iff, ne_eq, reaches_reachable_iff]
    intro hreached
    apply hnot
    obtain hkinds | hdepth | hsource | htarget := hsafe
    · rwa [hedit.follows_iff hkinds] at hreached
    · exact (reached_of_limit_zero hdepth).mpr ((reached_of_limit_zero hdepth).mp hreached)
    · have heq := reached_of_out_of_range (hcount ▸ hsource) hreached
      exact heq ▸ ⟨0, by cases walker.limit <;> simp, .refl source⟩
    · obtain ⟨k, hk, hwalk⟩ := hreached
      cases k with
      | zero => exact (Walk.zero_iff.mp hwalk) ▸ ⟨0, hk, .refl source⟩
      | succ k =>
        obtain ⟨y, _, _, _, _, hrange⟩ := Walk.succ_iff.mp hwalk
        omega

theorem unused_scope_holds_iff {view : GraphView} {walker : PathWalker} {entrypoints : List NodeId}
    {kinds : List SymbolKind} :
    UnusedScopeHolds view walker entrypoints kinds ↔
      UnusedScopeSafe view walker (entrypoint_roots view entrypoints) kinds := by
  set roots := entrypoint_roots view entrypoints with hroots
  have hscope : (for_unused view walker roots).scope = some (scope_of walker) := rfl
  constructor
  · intro hholds
    by_contra hexposed
    simp only [UnusedScopeSafe, not_or, not_not, not_forall, not_le] at hexposed
    obtain ⟨hkinds, hdepth, ⟨root, hroot, hrange⟩, node, hnode, hwanted, hnotlisted⟩ := hexposed
    obtain ⟨hnrange, _⟩ := GraphView.node_of_mem hnode
    have hmem : ∀ view' : GraphView, view'.nodes = view.nodes →
        (node ∈ unused view' entrypoints kinds walker ↔ used view' roots walker node.id = false) := by
      intro view' hnodes
      have hroots' : entrypoint_roots view' entrypoints = roots := by
        simp only [hroots, entrypoint_roots, hnodes]
      have hwanted' : (kinds.isEmpty || kinds.contains node.kind) = true := by
        simpa using hwanted
      simp only [unused, hroots', sorting.mem_sort_by, List.mem_filter, hnodes, hnode, true_and,
        hwanted', and_true, Bool.not_eq_true']
    by_cases hused : used view roots walker node.id = true
    · -- the node is used through spawn edges only: deleting them makes it unused
      have hedit := edited_without_spawns view hkinds
      have hsame := hholds _ hscope view.without_spawns hedit
      have hunused : used view.without_spawns roots walker node.id = false := by
        rw [Bool.eq_false_iff, ne_eq, used_iff]
        rintro ⟨r, hr, hreached⟩
        exact hnotlisted ⟨r, hr, hreached.mono fun _ _ h => listed_of_follows_without_spawns h hkinds⟩
      have hin := (hmem view.without_spawns rfl).mpr hunused
      rw [hsame, hmem view rfl, hused] at hin
      cases hin
    · -- the node is unused: a spawn edge from a root makes it used
      obtain ⟨view', hedit, hfollows⟩ :=
        exists_edit_following .Forward hkinds hrange hnrange
      have hsame := hholds _ hscope view' hedit
      have hin := (hmem view rfl).mpr (by simpa using hused)
      rw [← hsame, hmem view' hedit.nodes, Bool.eq_false_iff, ne_eq, used_iff] at hin
      exact hin ⟨root, hroot, 1, within_one hdepth, .single hfollows⟩
  · intro hsafe scope hscope' view' hedit
    rw [hscope] at hscope'
    cases hscope'
    have hcount : view'.node_count = view.node_count := congrArg List.length hedit.nodes
    have hused : ∀ node ∈ view.nodes, (kinds = [] ∨ node.kind ∈ kinds) →
        used view' roots walker node.id = used view roots walker node.id := by
      intro node hnode hwanted
      obtain ⟨hnrange, _⟩ := GraphView.node_of_mem hnode
      rw [Bool.eq_iff_iff, used_iff, used_iff]
      obtain hkinds | hdepth | hrange | hall := hsafe
      · rw [hedit.follows_iff hkinds]
      · simp only [reached_of_limit_zero hdepth]
      · constructor
        · rintro ⟨r, hr, hreached⟩
          have heq := reached_of_out_of_range (hcount ▸ hrange r hr) hreached
          have hle := hrange r hr
          rw [heq] at hle
          omega
        · rintro ⟨r, hr, hreached⟩
          have heq := reached_of_out_of_range (hrange r hr) hreached
          have hle := hrange r hr
          rw [heq] at hle
          omega
      · obtain ⟨r, hr, hreached⟩ := hall node hnode hwanted
        have hbefore := hreached.mono fun _ _ => follows_of_listed
        have hafter := (hreached.mono fun _ _ h => hedit.symm.follows_listed h).mono
          fun _ _ => follows_of_listed
        exact ⟨fun _ => ⟨r, hr, hbefore⟩, fun _ => ⟨r, hr, hafter⟩⟩
    have hroots' : entrypoint_roots view' entrypoints = roots := by
      simp only [hroots, entrypoint_roots, hedit.nodes]
    simp only [unused, hroots', ← hroots, hedit.nodes, List.filter_filter]
    congr 1
    apply List.filter_congr
    intro node hnode
    by_cases hwanted : kinds = [] ∨ node.kind ∈ kinds
    · rw [hused node hnode hwanted]
    · have hskip : (kinds.isEmpty || kinds.contains node.kind) = false := by
        simpa [not_or] using hwanted
      rw [hskip, Bool.false_and, Bool.false_and]

/-- The negative scope of an answer is true of it exactly when the kinds are explicit
or no spawn edge can change the answer: the default scope leaves `Spawns` out of the
kinds it lists, the default walk follows it. -/
theorem negative_scope_holds_iff (view : GraphView) (walker : PathWalker) :
    (∀ anchor dir, neighbor_walk view anchor walker dir = [] →
      (NeighborScopeHolds view walker anchor dir ↔ NeighborScopeSafe view walker anchor)) ∧
    (∀ source target, (reaches view source target walker).reachable = false →
      (ReachScopeHolds view walker source target ↔ ReachScopeSafe view walker source target)) ∧
    (∀ entrypoints kinds, UnusedScopeHolds view walker entrypoints kinds ↔
      UnusedScopeSafe view walker (entrypoint_roots view entrypoints) kinds) :=
  ⟨fun _ _ => neighbor_scope_holds_iff, fun _ _ => reach_scope_holds_iff,
    fun _ _ => unused_scope_holds_iff⟩

/-- Two functions without any edge. -/
def idle_pair : GraphView where
  nodes := [function_node 0 "main", function_node 1 "worker"]
  edges := []
  candidates := []
  ids_dense := by decide

/-- The walk a subcommand makes before any flag is applied. -/
def default_walker : PathWalker :=
  ⟨.calls, none, none, none⟩

theorem negative_scope_holds_iff_idle_pair :
    ¬ NeighborScopeSafe idle_pair default_walker ⟨0⟩ ∧
      ¬ NeighborScopeHolds idle_pair default_walker ⟨0⟩ .Forward := by
  have hexposed : ¬ NeighborScopeSafe idle_pair default_walker ⟨0⟩ := by
    simp [NeighborScopeSafe, default_walker, EdgeFilter.calls, idle_pair, GraphView.node_count,
      NodeId.index]
  obtain ⟨hneighbors, _⟩ := negative_scope_holds_iff idle_pair default_walker
  exact ⟨hexposed, fun hholds => hexposed ((hneighbors ⟨0⟩ .Forward (by decide)).mp hholds)⟩

/-- The empty callees of `main` come with a scope of six kinds; a spawn edge, whose
kind is none of them, makes `worker` a callee. -/
theorem default_scope_misses_spawns :
    ¬ ∀ (view : GraphView) (walker : PathWalker) (anchor : NodeId) (dir : Direction),
      NeighborScopeHolds view walker anchor dir := by
  intro hall
  have hholds := hall idle_pair default_walker ⟨0⟩ .Forward (scope_of default_walker) (by decide)
    (idle_pair.add_edge (certain_edge 0 .Spawns 0 1))
    ⟨rfl, rfl, .inl ⟨by simp [idle_pair], by
      intro e he hkind
      rw [List.mem_singleton.mp he] at hkind
      exact absurd hkind (by decide)⟩⟩ ⟨1⟩
  exact absurd hholds (by decide)

end cgx.query
