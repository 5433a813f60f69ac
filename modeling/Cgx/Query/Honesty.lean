import Cgx.Core.Edge
import Cgx.Query.Contract

open cgx.core walks

namespace cgx.query

/-- The same walk with the confidence floor, the fan-out cap and the depth bound
removed; kinds and condition clause are kept. -/
def PathWalker.unrestricted (walker : PathWalker) : PathWalker :=
  { walker with
    filter := { walker.filter with min_confidence := .Possible, max_candidates := none }
    max_depth := none }

/-- No reason of the contract says that the answer may have missed something. -/
def ApproximationContract.NoUnder (contract : ApproximationContract) : Prop :=
  ∀ r ∈ contract.reasons, r.direction ≠ .Under

instance (contract : ApproximationContract) : Decidable contract.NoUnder :=
  inferInstanceAs (Decidable (∀ r ∈ contract.reasons, r.direction ≠ .Under))

section reasons

private theorem when_positive_under {count : Nat} {reason : Nat → ApproxReason}
    (hreason : ∀ c, (reason c).direction = .Under) {r : ApproxReason}
    (hr : r ∈ FrontierFacts.when_positive count reason) : r.direction = .Under := by
  unfold FrontierFacts.when_positive at hr
  split at hr
  · rw [List.mem_singleton.mp hr]
    exact hreason count
  · simp at hr

/-- Every reason the frontier scan gives is of direction `Under`. -/
theorem FrontierFacts.into_reasons_under {facts : FrontierFacts} {walker : PathWalker}
    {r : ApproxReason} (hr : r ∈ facts.into_reasons walker) : r.direction = .Under := by
  unfold FrontierFacts.into_reasons at hr
  simp only [List.mem_append, List.mem_flatMap] at hr
  obtain ((((((((((hr | hr) | hr) | hr) | hr) | hr) | hr) | hr) | ⟨_, _, hr⟩) | hr) | hr) | hr := hr
  case inr =>
    cases hdepth : walker.max_depth with
    | none => simp [hdepth] at hr
    | some depth =>
      simp only [hdepth] at hr
      split at hr
      · rw [List.mem_singleton.mp hr]
        rfl
      · simp at hr
  case inl.inr =>
    cases hmax : walker.filter.max_candidates with
    | none => simp [hmax] at hr
    | some max =>
      simp only [hmax] at hr
      exact when_positive_under (fun _ => rfl) hr
  all_goals exact when_positive_under (fun _ => rfl) hr

theorem FrontierFacts.into_reasons_eq_nil {facts : FrontierFacts} {walker : PathWalker}
    (h : ∀ r ∈ facts.into_reasons walker, r.direction ≠ .Under) : facts.into_reasons walker = [] := by
  rw [List.eq_nil_iff_forall_not_mem]
  intro r hr
  exact h r hr (into_reasons_under hr)

/-- A scan without reasons met no edge below the floor, none over the cap and no
edge leading beyond the depth bound. -/
theorem FrontierFacts.zero_of_into_reasons_eq_nil {facts : FrontierFacts} {walker : PathWalker}
    (h : facts.into_reasons walker = []) :
    facts.below_floor = 0 ∧ (walker.filter.max_candidates ≠ none → facts.dropped_max_candidates = 0) ∧
      (walker.limit ≠ none → facts.depth_truncated = false) := by
  unfold FrontierFacts.into_reasons at h
  simp only [List.append_eq_nil_iff] at h
  obtain ⟨⟨⟨_, hfloor⟩, hcap⟩, hdepth⟩ := h
  have hzero : ∀ {count : Nat} {reason : Nat → ApproxReason},
      FrontierFacts.when_positive count reason = [] → count = 0 := by
    intro count reason hnil
    unfold FrontierFacts.when_positive at hnil
    split at hnil
    · simp at hnil
    · omega
  refine ⟨hzero hfloor, ?_, ?_⟩
  · intro hmax
    cases hcand : walker.filter.max_candidates with
    | none => exact absurd hcand hmax
    | some max =>
      rw [hcand] at hcap
      exact hzero hcap
  · intro hlimit
    cases hmax : walker.max_depth with
    | none => simp [PathWalker.limit, hmax] at hlimit
    | some depth =>
      rw [hmax] at hdepth
      simpa using hdepth

end reasons

section scan

variable {view : GraphView} {walker : PathWalker} {roots : List NodeId} {dir : Direction}

/-- `b` has counted at least what `a` has. -/
private def Counted (a b : FrontierFacts) : Prop :=
  a.below_floor ≤ b.below_floor ∧ a.dropped_max_candidates ≤ b.dropped_max_candidates ∧
    (a.depth_truncated = true → b.depth_truncated = true)

private theorem foldl_merge_counted (facts_of : NodeId → FrontierFacts) (nodes : List NodeId)
    (init : FrontierFacts) :
    Counted init (nodes.foldl (fun facts n => facts.merge (facts_of n)) init) ∧
      ∀ n ∈ nodes, Counted (facts_of n) (nodes.foldl (fun facts n => facts.merge (facts_of n)) init) := by
  induction nodes generalizing init with
  | nil => simp [Counted]
  | cons head rest ih =>
    obtain ⟨hinit, hrest⟩ := ih (init.merge (facts_of head))
    obtain ⟨hfloor, hcap, hdepth⟩ := hinit
    simp only [FrontierFacts.merge, Bool.or_eq_true] at hfloor hcap hdepth
    rw [List.foldl_cons]
    refine ⟨⟨by simp only [FrontierFacts.merge]; omega, by simp only [FrontierFacts.merge]; omega,
      fun h => hdepth (.inl h)⟩, ?_⟩
    intro n hn
    obtain rfl | hn := List.mem_cons.mp hn
    · exact ⟨by simp only [FrontierFacts.merge]; omega, by simp only [FrontierFacts.merge]; omega,
        fun h => hdepth (.inr h)⟩
    · exact hrest n hn

private theorem within_zero : within walker.limit 0 = true := by
  cases walker.limit <;> simp

/-- The touched nodes are the nodes reached from a root within the limit. -/
theorem mem_touched_nodes {n : NodeId} :
    n ∈ touched_nodes view walker roots dir ↔ n.index < view.node_count ∧
      ∃ root ∈ roots, ReachedWithin (walker.Follows view dir) walker.limit root n := by
  unfold touched_nodes discoveries
  rw [GraphView.mem_foldl_mark]
  simp only [List.not_mem_nil, false_or, List.mem_append, List.mem_map, List.mem_flatMap]
  constructor
  · rintro ⟨hroot | ⟨d, ⟨root, hroot, hd⟩, rfl⟩, hrange⟩
    · exact ⟨hrange, n, hroot, 0, within_zero, .refl n⟩
    · obtain ⟨hwalk, hwithin, _, _⟩ := PathWalker.bfs_sound hd
      exact ⟨hrange, root, hroot, d.depth, hwithin, hwalk⟩
  · rintro ⟨hrange, root, hroot, hreached⟩
    refine ⟨?_, hrange⟩
    by_cases hne : n = root
    · exact .inl (hne ▸ hroot)
    · obtain ⟨d, hd, hnode⟩ := PathWalker.mem_bfs_iff.mpr ⟨hne, hreached⟩
      exact .inr ⟨d, ⟨root, hroot, hd⟩, hnode⟩

/-- The recorded depth of a touched node is the hop count of a walk from a root. -/
theorem depth_of_spec {n : NodeId} (hn : n ∈ touched_nodes view walker roots dir) :
    within walker.limit (depth_of view walker roots dir n) = true ∧
      ∃ root ∈ roots, Walk (walker.Follows view dir) (depth_of view walker roots dir n) root n := by
  set depths := (if n ∈ roots then [0] else []) ++
    ((discoveries view walker roots dir).filter fun d => d.node = n).map Discovered.depth with hdepths
  have hmem : ∀ k ∈ depths, within walker.limit k = true ∧
      ∃ root ∈ roots, Walk (walker.Follows view dir) k root n := by
    intro k hk
    obtain hk | hk := List.mem_append.mp hk
    · split at hk
      · rename_i hroot
        rw [List.mem_singleton.mp hk]
        exact ⟨within_zero, n, hroot, .refl n⟩
      · simp at hk
    · obtain ⟨d, hd, rfl⟩ := List.mem_map.mp hk
      rw [List.mem_filter, discoveries, List.mem_flatMap] at hd
      obtain ⟨⟨root, hroot, hd⟩, hnode⟩ := hd
      obtain ⟨hwalk, hwithin, _, _⟩ := PathWalker.bfs_sound hd
      rw [of_decide_eq_true hnode] at hwalk
      exact ⟨hwithin, root, hroot, hwalk⟩
  have hnonempty : depths ≠ [] := by
    obtain ⟨_, root, hroot, hreached⟩ := mem_touched_nodes.mp hn
    by_cases hne : n = root
    · simp [hdepths, hne, hroot]
    · obtain ⟨d, hd, hnode⟩ := PathWalker.mem_bfs_iff.mpr ⟨hne, hreached⟩
      have hd' : d ∈ (discoveries view walker roots dir).filter fun d => d.node = n := by
        rw [List.mem_filter, discoveries, List.mem_flatMap]
        exact ⟨⟨root, hroot, hd⟩, by simpa using hnode⟩
      intro hnil
      have hd'' := List.mem_append_right (if n ∈ roots then [0] else [])
        (List.mem_map_of_mem (f := Discovered.depth) hd')
      rw [← hdepths, hnil] at hd''
      simp at hd''
  have hdepth : depth_of view walker roots dir n ∈ depths := by
    unfold depth_of
    dsimp only
    rw [← hdepths]
    cases hmin : depths.min? with
    | none => exact absurd (List.min?_eq_none_iff.mp hmin) hnonempty
    | some k => exact List.min?_mem hmin
  exact hmem _ hdepth

/-- Where the scan counts no edge below the floor and none over the cap, the walk takes
every edge the unrestricted walk takes. -/
theorem follows_of_clean {x y : NodeId}
    (hfloor : ((view.neighbors x dir (scan_filter walker.filter)).countP fun er =>
      er.edge.confidence < walker.filter.min_confidence) = 0)
    (hcap : walker.filter.max_candidates ≠ none →
      ((view.neighbors x dir (scan_filter walker.filter)).countP fun er =>
        !(er.edge.confidence < walker.filter.min_confidence) &&
          view.over_cap walker.filter er.edge) = 0)
    (hxy : walker.unrestricted.Follows view dir x y) : walker.Follows view dir x y := by
  obtain ⟨er, her, hpeer, hrange⟩ := hxy
  obtain ⟨hmem, horigin, hpeer', hxrange, hadmits, _⟩ := GraphView.mem_neighbors.mp her
  obtain ⟨hkind, _, hcondition⟩ := EdgeFilter.admits_iff.mp hadmits
  have hincident : er ∈ view.neighbors x dir (scan_filter walker.filter) := by
    refine GraphView.mem_neighbors.mpr ⟨hmem, horigin, hpeer', hxrange, ?_, rfl⟩
    exact EdgeFilter.admits_iff.mpr ⟨hkind, Confidence.not_lt_Possible _, rfl⟩
  have hconfident : ¬ er.edge.confidence < walker.filter.min_confidence := by
    simpa using List.countP_eq_zero.mp hfloor er hincident
  have hnocap : view.over_cap walker.filter er.edge = false := by
    by_cases hmax : walker.filter.max_candidates = none
    · simp [GraphView.over_cap, hmax]
    · simpa [hconfident] using List.countP_eq_zero.mp (hcap hmax) er hincident
  refine ⟨er, GraphView.mem_neighbors.mpr ⟨hmem, horigin, hpeer', hxrange, ?_, hnocap⟩, hpeer, hrange⟩
  exact EdgeFilter.admits_iff.mpr ⟨hkind, hconfident, hcondition⟩

/-- With no reason found, the touched set is closed under the unrestricted walk. -/
theorem touched_closed
    (hnone : (scan_frontier view walker roots dir).into_reasons walker = []) {x y : NodeId}
    (hx : x ∈ touched_nodes view walker roots dir)
    (hxy : walker.unrestricted.Follows view dir x y) : y ∈ touched_nodes view walker roots dir := by
  obtain ⟨hfloor, hcap, htruncated⟩ := FrontierFacts.zero_of_into_reasons_eq_nil hnone
  obtain ⟨hcfloor, hccap, hcdepth⟩ := (foldl_merge_counted
    (fun n => scan_node view walker dir (touched_nodes view walker roots dir)
      (depth_of view walker roots dir n) n) (touched_nodes view walker roots dir) .empty).2 x hx
  -- what the scan counts at `x`, it counts in all
  obtain ⟨er, hadmitted, rfl, hrange⟩ := follows_of_clean (Nat.le_zero.mp (hcfloor.trans hfloor.le))
    (fun hmax => Nat.le_zero.mp (hccap.trans (hcap hmax).le)) hxy
  obtain ⟨hdepth, root, hroot, hwalk⟩ := depth_of_spec hx
  by_cases hnext : within walker.limit (depth_of view walker roots dir x + 1) = true
  · exact mem_touched_nodes.mpr ⟨hrange, root, hroot, _, hnext, .snoc hwalk ⟨er, hadmitted, rfl, hrange⟩⟩
  · -- `x` stands at the depth horizon, where a peer not yet reached is reported
    have hlimit : walker.limit = some (depth_of view walker roots dir x) := by
      cases hl : walker.limit with
      | none => simp [hl] at hnext
      | some bound =>
        rw [hl, within_some] at hdepth hnext
        congr 1
        omega
    by_contra hfresh
    have hfound : (scan_node view walker dir (touched_nodes view walker roots dir)
        (depth_of view walker roots dir x) x).depth_truncated = true := by
      simp only [scan_node, Bool.and_eq_true, decide_eq_true_eq, List.any_eq_true]
      refine ⟨hlimit, er, hadmitted, hrange, ?_⟩
      simpa using hfresh
    have hclean := htruncated (by rw [hlimit]; exact Option.some_ne_none _)
    exact absurd (hcdepth hfound) (by simpa [scan_frontier] using hclean)

theorem follows_unrestricted {x y : NodeId} (h : walker.Follows view dir x y) :
    walker.unrestricted.Follows view dir x y := by
  obtain ⟨er, her, hpeer, hrange⟩ := h
  obtain ⟨hmem, horigin, hpeer', hxrange, hadmits, _⟩ := GraphView.mem_neighbors.mp her
  obtain ⟨hkind, _, hcondition⟩ := EdgeFilter.admits_iff.mp hadmits
  refine ⟨er, GraphView.mem_neighbors.mpr ⟨hmem, horigin, hpeer', hxrange, ?_, rfl⟩, hpeer, hrange⟩
  exact EdgeFilter.admits_iff.mpr ⟨hkind, Confidence.not_lt_Possible _, hcondition⟩

/-- With no reason found, the restricted and the unrestricted walk reach the same
nodes from the roots. -/
theorem reached_iff_unrestricted
    (hnone : (scan_frontier view walker roots dir).into_reasons walker = []) (n : NodeId) :
    (∃ root ∈ roots, ReachedWithin (walker.Follows view dir) walker.limit root n) ↔
      ∃ root ∈ roots, ReachedWithin (walker.unrestricted.Follows view dir) walker.unrestricted.limit
        root n := by
  constructor
  · rintro ⟨root, hroot, hreached⟩
    exact ⟨root, hroot, (hreached.mono fun _ _ => follows_unrestricted).unbounded⟩
  · rintro ⟨root, hroot, k, _, hwalk⟩
    by_cases hne : root = n
    · subst hne
      exact ⟨root, hroot, 0, within_zero, .refl root⟩
    · obtain ⟨z, er, her, _⟩ := hwalk.exists_step_of_ne hne
      have hrange := (GraphView.mem_neighbors.mp her).2.2.2.1
      have hstart : root ∈ touched_nodes view walker roots dir :=
        mem_touched_nodes.mpr ⟨hrange, root, hroot, 0, within_zero, .refl root⟩
      have hend := hwalk.mem_of_closed (M := (· ∈ touched_nodes view walker roots dir))
        (fun _ _ hx hxy => touched_closed hnone hx hxy) hstart
      exact (mem_touched_nodes.mp hend).2

end scan

/-- A contract that names no way to have missed something is right: the answer is
the one of the same walk without confidence floor, fan-out cap and depth bound. -/
theorem contract_without_under_is_complete (view : GraphView) (walker : PathWalker) :
    (∀ anchor dir, (for_neighbors view walker anchor dir
        (neighbor_walk view anchor walker dir)).NoUnder →
      ∀ n, n ∈ (neighbor_walk view anchor walker dir).map (fun r => r.node.id) ↔
        n ∈ (neighbor_walk view anchor walker.unrestricted dir).map (fun r => r.node.id)) ∧
    (∀ source target, (reaches view source target walker).reachable = false →
      (for_reaches view walker source (reaches view source target walker)).NoUnder →
      (reaches view source target walker.unrestricted).reachable = false) ∧
    (∀ entrypoints kinds,
      (for_unused view walker (entrypoint_roots view entrypoints)).NoUnder →
      unused view entrypoints kinds walker = unused view entrypoints kinds walker.unrestricted) := by
  refine ⟨?_, ?_, ?_⟩
  · intro anchor dir hnounder n
    have hnone := FrontierFacts.into_reasons_eq_nil fun r hr =>
      hnounder r (List.mem_append_right _ hr)
    have hreached := reached_iff_unrestricted hnone n
    simp only [List.mem_singleton, exists_eq_left] at hreached
    rw [mem_neighbor_walk_iff, mem_neighbor_walk_iff, hreached]
  · intro source target hunreachable hnounder
    have hwitness : (reaches view source target walker).witness = none := by
      have hsome := reaches_witness_isSome view source target walker
      rw [hunreachable] at hsome
      simpa using hsome
    unfold for_reaches at hnounder
    rw [hwitness] at hnounder
    have hnone := FrontierFacts.into_reasons_eq_nil hnounder
    have hreached := reached_iff_unrestricted hnone target
    simp only [List.mem_singleton, exists_eq_left] at hreached
    rw [Bool.eq_false_iff, ne_eq, reaches_reachable_iff] at hunreachable ⊢
    exact fun h => hunreachable (hreached.mpr h)
  · intro entrypoints kinds hnounder
    have hnone := FrontierFacts.into_reasons_eq_nil hnounder
    refine (unused_congr rfl (fun n _ => ?_) kinds).symm
    rw [Bool.eq_iff_iff, used_iff, used_iff, reached_iff_unrestricted hnone n]

/-- `main` calls `a`, which calls `b`. -/
def call_chain : GraphView where
  nodes := [function_node 0 "main", function_node 1 "a", function_node 2 "b"]
  edges := [certain_edge 0 .Calls 0 1, certain_edge 1 .Calls 1 2]
  candidates := []
  ids_dense := by decide

/-- A walk with a floor, a cap and a bound. -/
def bounded_walker : PathWalker :=
  ⟨⟨.Certain, .Any, none, some 1⟩, some 2, none, none⟩

theorem contract_without_under_is_complete_call_chain :
    ⟨2⟩ ∈ (neighbor_walk call_chain ⟨0⟩ bounded_walker .Forward).map (fun r => r.node.id) ∧
      (reaches call_chain ⟨2⟩ ⟨0⟩ bounded_walker.unrestricted).reachable = false ∧
      unused call_chain [⟨1⟩] [] bounded_walker =
        unused call_chain [⟨1⟩] [] bounded_walker.unrestricted := by
  obtain ⟨hneighbors, hreaches, hunused⟩ := contract_without_under_is_complete call_chain bounded_walker
  refine ⟨(hneighbors ⟨0⟩ .Forward (by decide) ⟨2⟩).mpr (by decide), ?_, ?_⟩
  · exact hreaches ⟨2⟩ ⟨0⟩ (by decide) (by decide)
  · exact hunused [⟨1⟩] [] (by decide)

end cgx.query
