import Mathlib.Algebra.Order.BigOperators.Group.List
import Cgx.Query.Honesty
import Cgx.Query.Rows

open cgx.core walks sorting backtrack

namespace cgx.query

namespace PathWalker

/-- The simple paths from `start` to `goal`, in discovery order. -/
def enumerate_paths (walker : PathWalker) (view : GraphView) (start goal : NodeId)
    (dir : Direction) : PathEnumeration :=
  walker.enumerate_dfs view start goal dir .SimplePath

/-- A walk of at least one and at most the limit's hops that repeats no node. -/
structure IsSimplePath (walker : PathWalker) (view : GraphView) (dir : Direction) (start goal : NodeId)
    (hops : List EdgeRef) : Prop where
  nonempty : hops ≠ []
  follows : walker.Hops view dir start hops
  distinct : (start :: hops.map EdgeRef.peer).Nodup
  bounded : within walker.limit hops.length = true
  arrives : arrives start hops = goal

/-- An exceptional edge occurs, and no spawn is crossed from it on. -/
def ExceptionalSinceSpawn (edges : List EdgeRecord) : Prop :=
  ∃ before edge after, edges = before ++ edge :: after ∧ edge.condition.is_exceptional = true ∧
    ∀ e ∈ edge :: after, e.kind ≠ .Spawns

/-- The edges of a recorded path. -/
def edges_of (path : List WalkStep) : List EdgeRecord :=
  path.filterMap WalkStep.via

/-- The recorded path of a list of hops. -/
def path_of (start : NodeId) (hops : List EdgeRef) : List WalkStep :=
  ⟨start, none, false⟩ :: steps_of false hops

section flags

theorem foldl_advance_iff {edges : List EdgeRecord} :
    edges.foldl advance_exceptional false = true ↔ ExceptionalSinceSpawn edges := by
  induction edges using List.reverseRecOn with
  | nil =>
    simp only [List.foldl_nil, Bool.false_eq_true, false_iff]
    rintro ⟨before, edge, after, hnil, _⟩
    simp at hnil
  | append_singleton edges last ih =>
    rw [List.foldl_append, List.foldl_cons, List.foldl_nil, advance_exceptional]
    split
    · rename_i hspawn
      simp only [Bool.false_eq_true, false_iff]
      rintro ⟨before, edge, after, hsplit, _, hquiet⟩
      refine hquiet last ?_ hspawn
      have hlast : (edges ++ [last]).getLast? = (before ++ edge :: after).getLast? := by rw [hsplit]
      rw [List.getLast?_concat, List.getLast?_append_cons] at hlast
      exact List.mem_of_getLast? hlast.symm
    · rename_i hspawn
      rw [Bool.or_eq_true, ih]
      constructor
      · intro hearlier
        obtain ⟨before, edge, after, hsplit, hexc, hquiet⟩ | hexc := hearlier
        · refine ⟨before, edge, after ++ [last], by rw [hsplit]; simp, hexc, fun e he => ?_⟩
          rw [← List.cons_append] at he
          obtain he | he := List.mem_append.mp he
          · exact hquiet e he
          · rwa [List.mem_singleton.mp he]
        · exact ⟨edges, last, [], rfl, hexc, fun e he => by rwa [List.mem_singleton.mp he]⟩
      · rintro ⟨before, edge, after, hsplit, hexc, hquiet⟩
        obtain rfl | ⟨after', last', rfl⟩ := List.eq_nil_or_concat' after
        · have hlast := List.append_inj_right' hsplit rfl
          rw [List.cons.injEq] at hlast
          exact .inr (hlast.1 ▸ hexc)
        · rw [← List.cons_append, ← List.append_assoc] at hsplit
          refine .inl ⟨before, edge, after', List.append_inj_left' hsplit rfl, hexc, fun e he => ?_⟩
          exact hquiet e (by rw [← List.cons_append]; exact List.mem_append_left _ he)

@[simp] theorem edges_of_steps_of (exc : Bool) (hops : List EdgeRef) :
    edges_of (steps_of exc hops) = hops.map EdgeRef.edge := by
  induction hops generalizing exc with
  | nil => rfl
  | cons er rest ih =>
    rw [steps_of, edges_of, List.filterMap_cons]
    exact congrArg _ (ih _)

@[simp] theorem edges_of_path_of (start : NodeId) (hops : List EdgeRef) :
    edges_of (path_of start hops) = hops.map EdgeRef.edge :=
  edges_of_steps_of false hops

/-- Each recorded flag is the one carried over the edges up to its step. -/
theorem steps_of_transient {exc : Bool} {hops : List EdgeRef} {before after : List WalkStep} {step : WalkStep}
    (h : steps_of exc hops = before ++ step :: after) :
    step.exception_transient = (edges_of (before ++ [step])).foldl advance_exceptional exc := by
  induction hops generalizing exc before with
  | nil => simp [steps_of] at h
  | cons er rest ih =>
    rw [steps_of] at h
    cases before with
    | nil =>
      rw [List.nil_append, List.cons.injEq] at h
      rw [← h.1]
      rfl
    | cons first before =>
      rw [List.cons_append, List.cons.injEq] at h
      rw [ih h.2, ← h.1]
      rfl

/-- A step's flag is set exactly when an exceptional edge occurs after the last spawn on
the path up to it. -/
theorem path_of_transient {start : NodeId} {hops : List EdgeRef} {before after : List WalkStep} {step : WalkStep}
    (h : path_of start hops = before ++ step :: after) :
    step.exception_transient = true ↔ ExceptionalSinceSpawn (edges_of (before ++ [step])) := by
  rw [← foldl_advance_iff]
  cases before with
  | nil =>
    rw [path_of, List.nil_append, List.cons.injEq] at h
    rw [← h.1]
    exact Iff.rfl
  | cons first before =>
    rw [path_of, List.cons_append, List.cons.injEq] at h
    rw [steps_of_transient h.2, ← h.1]
    exact Iff.rfl

end flags

section simple

variable {walker : PathWalker} {view : GraphView} {dir : Direction} {start goal : NodeId}

theorem arrives_mem_peers {x : NodeId} {hops : List EdgeRef} (h : hops ≠ []) :
    arrives x hops ∈ hops.map EdgeRef.peer := by
  induction hops generalizing x with
  | nil => exact absurd rfl h
  | cons er rest ih =>
    cases rest with
    | nil => exact List.mem_singleton_self _
    | cons er' rest => exact List.mem_cons_of_mem _ (ih (x := er.peer) (List.cons_ne_nil _ _))

private theorem mem_simple_children {before : List WalkStep} {here child : WalkStep} :
    child ∈ (walker.dfs_tree view goal dir .SimplePath).children before here ↔
      within walker.limit (before.length + 1) = true ∧ ∃ er ∈ view.neighbors here.node dir walker.filter,
        er.peer.index < view.node_count ∧ er.peer ∉ (before ++ [here]).map WalkStep.node ∧
          child = ⟨er.peer, some er.edge, advance_exceptional here.exception_transient er.edge⟩ := by
  simp only [mem_children, CycleRule.blocks, List.any_eq_false, decide_eq_true_eq, List.mem_map, not_exists, not_and]

/-- The tree extends a path by the hops to the goal that meet no node twice. -/
private theorem extends_iff_simple {rest : List WalkStep} (before : List WalkStep) (here : WalkStep) :
    (walker.dfs_tree view goal dir .SimplePath).Extends before here rest ↔
      ∃ hops, rest = steps_of here.exception_transient hops ∧ walker.Hops view dir here.node hops ∧
        (hops.map EdgeRef.peer).Nodup ∧ (∀ er ∈ hops, er.peer ∉ (before ++ [here]).map WalkStep.node) ∧
        (hops ≠ [] → within walker.limit (before.length + hops.length) = true) ∧
        arrives here.node hops = goal ∧ (before = [] → hops ≠ []) := by
  have hgoal : ∀ (here : WalkStep) (before : List WalkStep),
      (walker.dfs_tree view goal dir .SimplePath).goal before here = (decide (here.node = goal) && !before.isEmpty) :=
    fun _ _ => rfl
  induction rest generalizing before here with
  | nil =>
    simp only [backtrack.Tree.Extends, hgoal, Bool.and_eq_true, decide_eq_true_eq, Bool.not_eq_true',
      List.isEmpty_eq_false_iff]
    constructor
    · rintro ⟨hhere, hbefore⟩
      exact ⟨[], rfl, trivial, List.nodup_nil, by simp, by simp, hhere, fun h => absurd h hbefore⟩
    · rintro ⟨hops, hnil, _, _, _, _, harrives, hbefore⟩
      rw [eq_comm, steps_of_ne_nil] at hnil
      subst hnil
      exact ⟨harrives, fun h => hbefore h rfl⟩
  | cons child rest ih =>
    simp only [backtrack.Tree.Extends]
    have hbelow : (walker.dfs_tree view goal dir .SimplePath).Extends (before ++ [here]) child rest ↔ _ :=
      ih (before ++ [here]) child
    rw [mem_simple_children, hbelow]
    constructor
    · rintro ⟨_, ⟨hwithin, er, her, hrange, hfresh, hchild⟩, hops, hrest, hhops, hnodup, hdisjoint, hbound,
        harrives, _⟩
      subst hchild
      rw [List.map_append] at hdisjoint
      simp only [List.mem_append, not_or, List.map_cons, List.map_nil, List.mem_singleton] at hdisjoint
      refine ⟨er :: hops, ?_, ⟨her, hrange, hhops⟩, ?_, ?_, ?_, harrives, fun _ => List.cons_ne_nil _ _⟩
      · rw [hrest]
        rfl
      · refine List.nodup_cons.mpr ⟨fun hmem => ?_, hnodup⟩
        obtain ⟨er', her', hpeer⟩ := List.mem_map.mp hmem
        exact (hdisjoint er' her').2 hpeer
      · intro er' her'
        obtain rfl | her' := List.mem_cons.mp her'
        · exact hfresh
        · exact (hdisjoint er' her').1
      · intro _
        cases hops with
        | nil => exact hwithin
        | cons er' hops =>
          have hnext := hbound (List.cons_ne_nil _ _)
          simp only [List.length_append, List.length_cons, List.length_nil] at hnext ⊢
          rwa [show before.length + (hops.length + 1 + 1) = before.length + (0 + 1) + (hops.length + 1) by omega]
    · rintro ⟨hops, hrest, hhops, hnodup, hdisjoint, hbound, harrives, _⟩
      cases hops with
      | nil => simp [steps_of] at hrest
      | cons er hops =>
        -- the goal lies among the later nodes, so it is not the node the path has come to
        have hpass : here.node ≠ goal := by
          intro hhere
          have hmem := arrives_mem_peers (x := here.node) (List.cons_ne_nil er hops)
          obtain ⟨er', her', hpeer⟩ := List.mem_map.mp hmem
          refine hdisjoint er' her' ?_
          rw [hpeer, harrives, ← hhere]
          simp
        obtain ⟨her, hrange, hhops⟩ := hhops
        simp only [steps_of, List.cons.injEq] at hrest
        obtain ⟨hchild, hrest⟩ := hrest
        subst hchild
        rw [List.map_cons, List.nodup_cons] at hnodup
        have hlimit := hbound (List.cons_ne_nil _ _)
        refine ⟨?_, ⟨within_of_le ?_ hlimit, er, her, hrange, hdisjoint er List.mem_cons_self, rfl⟩, hops, hrest,
          hhops, hnodup.2, ?_, ?_, harrives, ?_⟩
        · rw [hgoal, decide_eq_false hpass, Bool.false_and]
        · simp
        · intro er' her'
          rw [List.map_append]
          simp only [List.mem_append, not_or, List.map_cons, List.map_nil, List.mem_singleton]
          refine ⟨hdisjoint er' (List.mem_cons_of_mem _ her'), fun hpeer => hnodup.1 ?_⟩
          rw [← hpeer]
          exact List.mem_map_of_mem her'
        · intro _
          refine within_of_le ?_ hlimit
          simp only [List.length_append, List.length_cons, List.length_nil]
          omega
        · intro hnil
          simp at hnil

theorem extends_start_iff_simple {rest : List WalkStep} :
    (walker.dfs_tree view goal dir .SimplePath).Extends [] ⟨start, none, false⟩ rest ↔
      ∃ hops, rest = steps_of false hops ∧ IsSimplePath walker view dir start goal hops := by
  rw [extends_iff_simple]
  constructor
  · rintro ⟨hops, hrest, hhops, hnodup, hdisjoint, hbound, harrives, hne⟩
    have hne := hne rfl
    refine ⟨hops, hrest, hne, hhops, List.nodup_cons.mpr ⟨fun hmem => ?_, hnodup⟩, ?_, harrives⟩
    · obtain ⟨er, her, hpeer⟩ := List.mem_map.mp hmem
      exact hdisjoint er her (by simp [hpeer])
    · simpa using hbound hne
  · rintro ⟨hops, hrest, hne, hhops, hnodup, hbound, harrives⟩
    rw [List.nodup_cons] at hnodup
    refine ⟨hops, hrest, hhops, hnodup.2, fun er her hmem => hnodup.1 ?_, fun _ => by simpa using hbound, harrives,
      fun _ => hne⟩
    have hpeer : er.peer = start := by simpa using hmem
    rw [← hpeer]
    exact List.mem_map_of_mem her

theorem Hops.peers_range {x : NodeId} {hops : List EdgeRef} (h : walker.Hops view dir x hops) :
    ∀ er ∈ hops, er.peer.index < view.node_count := by
  induction hops generalizing x with
  | nil => simp
  | cons er rest ih =>
    intro er' her'
    obtain rfl | her' := List.mem_cons.mp her'
    · exact h.2.1
    · exact ih h.2.2 er' her'

/-- Distinct nodes in range are no more than there are nodes. -/
theorem length_le_node_count (view : GraphView) {nodes : List NodeId} (hnodup : nodes.Nodup)
    (hrange : ∀ n ∈ nodes, n.index < view.node_count) : nodes.length ≤ view.node_count := by
  have hsub : nodes ⊆ view.nodes.map NodeRecord.id := fun n hn => GraphView.mem_node_ids.mpr (hrange n hn)
  simpa [GraphView.node_count] using (List.subperm_of_subset hnodup hsub).length_le

/-- A path that repeats no node has no more nodes below its first than there are in the
graph, so the recursion ends. -/
theorem fits_simple {n : Nat} {before : List WalkStep} {here : WalkStep}
    (hnodup : ((before ++ [here]).map WalkStep.node).Nodup)
    (hrange : ∀ s ∈ (before ++ [here]).tail, s.node.index < view.node_count)
    (hn : view.node_count + 2 ≤ before.length + n) :
    (walker.dfs_tree view goal dir .SimplePath).Fits n before here := by
  induction n generalizing before here with
  | zero =>
    have htail : ((before ++ [here]).tail.map WalkStep.node).Nodup := by
      rw [List.map_tail]
      exact hnodup.tail
    have hle := length_le_node_count view htail (by
      intro m hm
      obtain ⟨s, hs, rfl⟩ := List.mem_map.mp hm
      exact hrange s hs)
    simp only [List.length_map, List.length_tail, List.length_append, List.length_singleton] at hle
    omega
  | succ n ih =>
    intro _ child hchild
    obtain ⟨_, er, _, hpeer, hfresh, rfl⟩ := mem_simple_children.mp hchild
    refine ih ?_ ?_ (by simp; omega)
    · rw [List.map_append, List.nodup_append']
      refine ⟨hnodup, List.nodup_singleton _, ?_⟩
      intro m hm hpeer
      rw [List.map_singleton, List.mem_singleton] at hpeer
      subst hpeer
      exact hfresh hm
    · intro s hs
      rw [List.tail_append_of_ne_nil (by simp)] at hs
      obtain hs | hs := List.mem_append.mp hs
      · exact hrange s hs
      · rw [List.mem_singleton.mp hs]
        exact hpeer

/-- The paths of the search tree are the simple paths to the goal. -/
theorem mem_leaves_iff_simple {path : List WalkStep} :
    path ∈ leaves (walker.dfs_tree view goal dir .SimplePath) (view.node_count + view.edges.length + 2) []
        ⟨start, none, false⟩ ↔ ∃ hops, path = path_of start hops ∧ IsSimplePath walker view dir start goal hops := by
  rw [mem_leaves]
  constructor
  · rintro ⟨rest, hpath, hextends, _⟩
    obtain ⟨hops, hrest, hsimple⟩ := extends_start_iff_simple.mp hextends
    exact ⟨hops, by rw [hpath, hrest, List.nil_append, path_of], hsimple⟩
  · rintro ⟨hops, hpath, hsimple⟩
    refine ⟨steps_of false hops, hpath, extends_start_iff_simple.mpr ⟨hops, rfl, hsimple⟩, ?_⟩
    have hlength := length_le_node_count view hsimple.distinct.tail (by
      intro m hm
      obtain ⟨er, her, rfl⟩ := List.mem_map.mp hm
      exact hsimple.follows.peers_range er her)
    rw [List.tail_cons, List.length_map] at hlength
    rw [length_steps_of]
    omega

theorem neighbors_edges_sublist (n : NodeId) (filter : EdgeFilter) :
    ((view.neighbors n dir filter).map EdgeRef.edge).Sublist view.edges := by
  have hkept : ∀ bucket : List EdgeRecord, ((bucket.filterMap fun edge =>
      if !filter.admits edge then none
      else if view.over_cap filter edge then none
      else some (⟨edge, dir.peer edge⟩ : EdgeRef)).map EdgeRef.edge).Sublist bucket := by
    intro bucket
    induction bucket with
    | nil => exact .slnil
    | cons edge rest ih =>
      rw [List.filterMap_cons]
      split
      · exact ih.cons edge
      · rename_i er her
        have hedge : er.edge = edge := by
          split at her
          · cases her
          · split at her
            · cases her
            · rw [← Option.some.inj her]
        rw [List.map_cons, hedge]
        exact ih.cons_cons edge
  refine (hkept _).trans ?_
  cases dir with
  | Forward =>
    simp only [GraphView.out_edges]
    split
    · exact List.filter_sublist
    · exact List.nil_sublist _
  | Backward =>
    simp only [GraphView.in_edges]
    split
    · exact List.filter_sublist
    · exact List.nil_sublist _

/-- How often a view has the edge a step was entered through. -/
def multiplicity (view : GraphView) (s : WalkStep) : Nat :=
  (s.via.map fun edge => view.edges.count edge).getD 0

theorem map_multiplicity (exc : Bool) (hops : List EdgeRef) :
    (steps_of exc hops).map (multiplicity view) =
      (hops.map EdgeRef.edge).map fun edge => view.edges.count edge := by
  induction hops generalizing exc with
  | nil => rfl
  | cons er rest ih =>
    rw [steps_of, List.map_cons, ih]
    rfl

theorem count_children_le (rule : CycleRule) (before : List WalkStep) (here child : WalkStep) :
    ((walker.dfs_tree view goal dir rule).children before here).count child ≤ multiplicity view child := by
  by_cases hmem : child ∈ (walker.dfs_tree view goal dir rule).children before here
  · obtain ⟨hwithin, er, _, _, _, hchild⟩ := mem_children.mp hmem
    have hvia : child.via = some er.edge := by rw [hchild]
    have hrow : ((walker.nbrs view dir here.node).map Prod.snd).count er.edge ≤ view.edges.count er.edge := by
      have hsub : (walker.nbrs view dir here.node).Sublist (sort_by nbr_cmp
          ((view.neighbors here.node dir walker.filter).map fun er => (er.peer, er.edge))) :=
        List.filter_sublist
      have hperm : ((sort_by nbr_cmp
          ((view.neighbors here.node dir walker.filter).map fun er => (er.peer, er.edge))).map Prod.snd).Perm
          (((view.neighbors here.node dir walker.filter).map fun er => (er.peer, er.edge)).map Prod.snd) :=
        (perm_sort_by _).map Prod.snd
      rw [List.map_map] at hperm
      have hedges : ((view.neighbors here.node dir walker.filter).map EdgeRef.edge).Sublist view.edges :=
        neighbors_edges_sublist here.node walker.filter
      exact ((hsub.map Prod.snd).count_le er.edge).trans
        ((hperm.count_eq er.edge).le.trans (hedges.count_le er.edge))
    rw [multiplicity, hvia, Option.map_some, Option.getD_some]
    refine Nat.le_trans ?_ hrow
    have hmapped := List.count_le_count_map (f := WalkStep.via) (x := child)
      (l := (walker.dfs_tree view goal dir rule).children before here)
    refine hmapped.trans ?_
    simp only [dfs_tree, hwithin, if_true, List.map_map, hvia]
    have hsome : ((walker.nbrs view dir here.node).filter fun nbr => !rule.blocks (before ++ [here]) nbr).map
        (WalkStep.via ∘ fun nbr => ⟨nbr.1, some nbr.2, advance_exceptional here.exception_transient nbr.2⟩) =
        (((walker.nbrs view dir here.node).filter fun nbr => !rule.blocks (before ++ [here]) nbr).map
          Prod.snd).map some := by
      rw [List.map_map]
      rfl
    rw [hsome, List.count_map_of_injective _ _ (Option.some_injective _)]
    exact (List.filter_sublist.map Prod.snd).count_le er.edge
  · rw [List.count_eq_zero.mpr hmem]
    exact Nat.zero_le _

theorem Hops.peer_eq {x : NodeId} {hops : List EdgeRef} (h : walker.Hops view dir x hops) :
    ∀ er ∈ hops, er = ⟨er.edge, dir.peer er.edge⟩ := by
  induction hops generalizing x with
  | nil => simp
  | cons er rest ih =>
    intro er' her'
    obtain rfl | her' := List.mem_cons.mp her'
    · rw [← (GraphView.mem_neighbors.mp h.1).2.2.1]
    · exact ih h.2.2 er' her'

/-- Hops are told by their edges. -/
theorem Hops.eq_of_edges {x : NodeId} {hops hops' : List EdgeRef} (h : walker.Hops view dir x hops)
    (h' : walker.Hops view dir x hops') (hedges : hops.map EdgeRef.edge = hops'.map EdgeRef.edge) :
    hops = hops' := by
  have hrebuilt : ∀ l : List EdgeRef, walker.Hops view dir x l →
      (l.map EdgeRef.edge).map (fun edge => (⟨edge, dir.peer edge⟩ : EdgeRef)) = l := by
    intro l hl
    rw [List.map_map]
    exact (List.map_congr_left fun er her => (hl.peer_eq er her).symm).trans (List.map_id l)
  rw [← hrebuilt hops h, ← hrebuilt hops' h', hedges]

/-- Every enumerated path is a simple path to the goal. -/
theorem enumerate_paths_sound {path : List WalkStep}
    (h : path ∈ (walker.enumerate_paths view start goal dir).paths) :
    ∃ hops, path = path_of start hops ∧ IsSimplePath walker view dir start goal hops := by
  obtain hnil | hleaf := explore_sound path h
  · simp at hnil
  · exact mem_leaves_iff_simple.mp hleaf

/-- A path is enumerated at most as often as the view repeats its edges. -/
theorem count_enumerate_paths_le {hops : List EdgeRef} :
    (walker.enumerate_paths view start goal dir).paths.count (path_of start hops) ≤
      ((hops.map EdgeRef.edge).map fun edge => view.edges.count edge).prod := by
  obtain ⟨added, hfound, hadded⟩ : ∃ added, (walker.enumerate_paths view start goal dir).paths = [] ++ added ∧
      added.Sublist (leaves (walker.dfs_tree view goal dir .SimplePath) (view.node_count + view.edges.length + 2) []
        ⟨start, none, false⟩) :=
    explore_sublist _ _ _ _ ⟨[], 0, none⟩
  have hcount : (leaves (walker.dfs_tree view goal dir .SimplePath) (view.node_count + view.edges.length + 2) []
      ⟨start, none, false⟩).count ([] ++ ⟨start, none, false⟩ :: steps_of false hops) ≤
      ((steps_of false hops).map (multiplicity view)).prod :=
    count_leaves_le (count_children_le .SimplePath)
  rw [map_multiplicity] at hcount
  refine Nat.le_trans ?_ hcount
  rw [hfound, List.nil_append]
  exact hadded.count_le _

theorem count_edges_of_le {edges : List EdgeRecord} :
    ((walker.enumerate_paths view start goal dir).paths.map edges_of).count edges ≤
      (edges.map fun edge => view.edges.count edge).prod := by
  by_cases hmem : edges ∈ (walker.enumerate_paths view start goal dir).paths.map edges_of
  · obtain ⟨path, hpath, hedges⟩ := List.mem_map.mp hmem
    obtain ⟨hops, rfl, hsimple⟩ := enumerate_paths_sound hpath
    rw [edges_of_path_of] at hedges
    subst hedges
    have hsame : ∀ q ∈ (walker.enumerate_paths view start goal dir).paths,
        ((edges_of q == hops.map EdgeRef.edge) = true ↔ (q == path_of start hops) = true) := by
      intro q hq
      obtain ⟨hops', rfl, hsimple'⟩ := enumerate_paths_sound hq
      rw [beq_iff_eq, beq_iff_eq, edges_of_path_of]
      constructor
      · intro heq
        rw [hsimple'.follows.eq_of_edges hsimple.follows heq]
      · intro heq
        rw [← edges_of_path_of start hops', heq, edges_of_path_of]
    rw [List.count, List.countP_map]
    exact Nat.le_trans (List.countP_congr hsame).le count_enumerate_paths_le
  · rw [List.count_eq_zero.mpr hmem]
    exact Nat.zero_le _

end simple

/-- What an enumeration of the simple paths answers. -/
structure EnumeratesSimplePaths (walker : PathWalker) (view : GraphView) (start goal : NodeId) (dir : Direction)
    (answer : PathEnumeration) : Prop where
  sound : ∀ path ∈ answer.paths, ∃ hops, path = path_of start hops ∧ IsSimplePath walker view dir start goal hops
  once : view.edges.Nodup → (answer.paths.map edges_of).Nodup
  no_more_often : ∀ edges, (answer.paths.map edges_of).count edges ≤
    (edges.map fun edge => view.edges.count edge).prod
  transient : ∀ path ∈ answer.paths, ∀ before step after, path = before ++ step :: after →
    (step.exception_transient = true ↔ ExceptionalSinceSpawn (edges_of (before ++ [step])))
  complete : answer.truncation = none → ∀ hops, IsSimplePath walker view dir start goal hops →
    path_of start hops ∈ answer.paths

end PathWalker

open PathWalker

/-- `enumerate_paths` ends within the depth of its recursion, whatever stops it returns
simple paths, each once, with the right flags, and unless it says it was cut short it
returns them all; `shortest_path` returns a shortest walk whenever there is one. -/
theorem path_enumeration_honest (walker : PathWalker) (view : GraphView) (start goal : NodeId) (dir : Direction)
    (hcap : 0 < walker.path_cap) :
    (∀ fuel, view.node_count + view.edges.length + 2 ≤ fuel →
      explore walker.step_budget walker.path_cap (walker.dfs_tree view goal dir .SimplePath) fuel [] ⟨start, none, false⟩ =
        explore walker.step_budget walker.path_cap (walker.dfs_tree view goal dir .SimplePath)
          (view.node_count + view.edges.length + 2) [] ⟨start, none, false⟩) ∧
      EnumeratesSimplePaths walker view start goal dir (walker.enumerate_paths view start goal dir) ∧
      IsShortestPath walker view start goal dir (walker.shortest_path view start goal dir) := by
  refine ⟨fun fuel hfuel => ?_, ⟨fun path hpath => enumerate_paths_sound hpath, fun hnodup => ?_,
    fun edges => count_edges_of_le, fun path hpath before step after hsplit => ?_, fun hnone hops hsimple => ?_⟩,
    shortest_path_spec start goal⟩
  · have hfits : (walker.dfs_tree view goal dir .SimplePath).Fits (view.node_count + 2) [] ⟨start, none, false⟩ :=
      fits_simple (by simp) (by simp) (by simp)
    exact (explore_enough hfits (by omega)).trans (explore_enough hfits (by omega)).symm
  · refine List.nodup_iff_count_le_one.mpr fun edges => Nat.le_trans count_edges_of_le ?_
    have hone : ∀ count ∈ edges.map (fun edge => view.edges.count edge), count ≤ 1 := by
      intro count hcount
      obtain ⟨edge, _, rfl⟩ := List.mem_map.mp hcount
      exact List.nodup_iff_count_le_one.mp hnodup edge
    simpa using List.prod_le_pow_card _ _ hone
  · obtain ⟨hops, rfl, _⟩ := enumerate_paths_sound hpath
    exact path_of_transient hsplit
  · have hfound := explore_complete hcap hnone
    show path_of start hops ∈ (explore _ _ _ _ _ _ _).found
    rw [hfound]
    exact mem_leaves_iff_simple.mpr ⟨hops, rfl, hsimple⟩

theorem path_enumeration_honest_call_chain :
    EnumeratesSimplePaths bounded_walker call_chain ⟨0⟩ ⟨2⟩ .Forward
        (bounded_walker.enumerate_paths call_chain ⟨0⟩ ⟨2⟩ .Forward) ∧
      (bounded_walker.enumerate_paths call_chain ⟨0⟩ ⟨2⟩ .Forward).paths.length = 1 ∧
      (bounded_walker.enumerate_paths call_chain ⟨0⟩ ⟨2⟩ .Forward).truncation = none := by
  obtain ⟨_, henumerates, _⟩ := path_enumeration_honest bounded_walker call_chain ⟨0⟩ ⟨2⟩ .Forward (by decide)
  exact ⟨henumerates, by decide +kernel, by decide +kernel⟩

end cgx.query
