import Cgx.Core.Edge
import Cgx.Cql.Expand

open cgx.core cgx.query walks gathering

namespace cgx.cql

/-- Whether lowering anchors on the written start: ties favour it. -/
def anchors_start (start finish : NodeConstraints) : Bool :=
  selectivity finish.1 finish.2 ≤ selectivity start.1 start.2

/-- The constraints of the anchored end and of the peer end. -/
def anchored (start finish : NodeConstraints) : NodeConstraints × NodeConstraints :=
  if anchors_start start finish then (start, finish) else (finish, start)

/-- The nodes of a solution at the written start and at the written end. -/
def written_ends (start finish : NodeConstraints) (s : Solution) : NodeId × NodeId :=
  if anchors_start start finish then (s.anchor, s.peer) else (s.peer, s.anchor)

/-- The solution satisfies every constraint written on either end. -/
def Respects (view : GraphView) (start finish : NodeConstraints) (s : Solution) : Prop :=
  node_matches view start (written_ends start finish s).1 = true ∧
    node_matches view finish (written_ends start finish s).2 = true

/-- The constraints of the peer end an expansion does not check. -/
def dropped_by_peer (plan : PatternPlan) (constraints : NodeConstraints) : NodeConstraints :=
  match plan.cardinality with
  | .SingleHop => ([], none)
  | .VarLength _ _ => dropped_by_goals constraints

/-- No joined pair that passes the constraints kept on both ends violates one that is
dropped. -/
def DroppedHold (view : GraphView) (plan : PatternPlan) (start finish : NodeConstraints) : Prop :=
  ∀ x y, Joined view plan x y →
    node_matches view (kept_by_anchor (anchored start finish).1) x = true →
    node_matches view (kept_by_peer plan (anchored start finish).2) y = true →
    node_matches view (dropped_by_anchor (anchored start finish).1) x = true ∧
      node_matches view (dropped_by_peer plan (anchored start finish).2) y = true

/-- What lowering makes of a single relationship. -/
theorem lower_single_ok {path_var : Option String} {start finish : NodePat} {rel : RelPat}
    {start_c finish_c : NodeConstraints} {plan : PatternPlan}
    (hstart : node_constraints start = .ok start_c) (hfinish : node_constraints finish = .ok finish_c)
    (hlower : lower_single path_var start rel finish = .ok plan) :
    plan.anchor_bound_var = none ∧ plan.path_var = path_var ∧ plan.cardinality = rel_cardinality rel ∧
      plan.anchor = anchor_set (anchored start_c finish_c).1.1 (anchored start_c finish_c).1.2 ∧
      (plan.peer_props, plan.peer_kinds) = (anchored start_c finish_c).2 ∧
      plan.anchor_var = (if anchors_start start_c finish_c then start.var else finish.var) ∧
      plan.peer_var = (if anchors_start start_c finish_c then finish.var else start.var) := by
  simp only [lower_single, hstart, hfinish, bind, Except.bind] at hlower
  cases hfilter : rel_filter rel with
  | error e => simp [hfilter] at hlower
  | ok lowered =>
    simp only [hfilter, anchored, anchors_start] at hlower ⊢
    split at hlower
    · rename_i hle
      cases hlower
      simp [hle]
    · rename_i hle
      cases hlower
      simp [hle]

theorem lower_pattern_chain_single {pat : PathPattern} {rel : RelPat} {finish : NodePat}
    (hsteps : pat.steps = [(rel, finish)]) :
    lower_pattern_chain pat = (lower_single pat.path_var pat.start rel finish).map fun plan => [plan] := by
  simp only [lower_pattern_chain, hsteps]
  cases lower_single pat.path_var pat.start rel finish <;> rfl

section peer

variable {view : GraphView} {plan : PatternPlan} {constraints : NodeConstraints} {id : NodeId}

theorem node_matches_peer_split :
    node_matches view constraints id = true ↔
      node_matches view (kept_by_peer plan constraints) id = true ∧
        node_matches view (dropped_by_peer plan constraints) id = true := by
  cases hcard : plan.cardinality with
  | SingleHop =>
    simp only [kept_by_peer, dropped_by_peer, hcard]
    constructor
    · intro h
      exact ⟨h, node_matches_iff.mpr ⟨(node_matches_iff.mp h).1, rfl, by simp⟩⟩
    · exact fun h => h.1
  | VarLength min max =>
    simp only [kept_by_peer, dropped_by_peer, hcard]
    exact node_matches_goals_split

end peer

section respects

variable {view : GraphView} {start_c finish_c : NodeConstraints}

theorem respects_iff {s : Solution} :
    Respects view start_c finish_c s ↔ node_matches view (anchored start_c finish_c).1 s.anchor = true ∧
      node_matches view (anchored start_c finish_c).2 s.peer = true := by
  simp only [Respects, written_ends, anchored]
  split
  · exact Iff.rfl
  · exact and_comm

/-- The solutions of a pattern satisfy the written constraints as soon as no joined pair
violates a dropped one; a run over some binding that is not cut short needs no less. -/
theorem written_constraints_hold_iff {pat : PathPattern} {rel : RelPat} {finish : NodePat}
    {plan : PatternPlan} (hsteps : pat.steps = [(rel, finish)])
    (hstart : node_constraints pat.start = .ok start_c) (hfinish : node_constraints finish = .ok finish_c)
    (hlower : lower_pattern_chain pat = .ok [plan]) (input : List Binding)
    (truncation : Option TruncationReason) :
    (DroppedHold view plan start_c finish_c →
      ∀ s ∈ (expand_pattern view plan input truncation).out, Respects view start_c finish_c s) ∧
    (input ≠ [] → (expand_pattern view plan input none).truncation = none →
      (∀ s ∈ (expand_pattern view plan input truncation).out, Respects view start_c finish_c s) →
        DroppedHold view plan start_c finish_c) := by
  have hsingle : lower_single pat.path_var pat.start rel finish = .ok plan := by
    rw [lower_pattern_chain_single hsteps] at hlower
    cases hcase : lower_single pat.path_var pat.start rel finish with
    | error e => simp [hcase, Except.map] at hlower
    | ok plan' =>
      simp only [hcase, Except.map, Except.ok.injEq, List.cons.injEq, and_true] at hlower
      rw [hlower]
  obtain ⟨hunbound, _, _, hanchor, hpeer, _, _⟩ := lower_single_ok hstart hfinish hsingle
  have hanchors : ∀ base x, x ∈ step_anchors view plan base ↔
      node_matches view (kept_by_anchor (anchored start_c finish_c).1) x = true := by
    intro base x
    simp only [step_anchors, hunbound, hanchor]
    exact mem_anchor_ids
  have hemits : ∀ (base : Binding) x y, (∃ s, Emits view plan base x s ∧ s.peer = y) ↔ Joined view plan x y ∧
      node_matches view (kept_by_peer plan (anchored start_c finish_c).2) y = true := by
    intro base x y
    rw [← hpeer]
    exact exists_emits_iff plan base
  constructor
  · intro hdropped s hs
    obtain ⟨base, _, anchor, hmem, hemit⟩ := expand_pattern_sound hs
    have hsides := hemit.base_anchor
    have hkept := (hanchors base anchor).mp hmem
    obtain ⟨hjoined, hchecked⟩ := (hemits base anchor s.peer).mp ⟨s, hemit, rfl⟩
    obtain ⟨hdroppedAnchor, hdroppedPeer⟩ := hdropped anchor s.peer hjoined hkept hchecked
    rw [respects_iff, hsides.2]
    exact ⟨node_matches_anchor_split.mpr ⟨hkept, hdroppedAnchor⟩,
      node_matches_peer_split.mpr ⟨hchecked, hdroppedPeer⟩⟩
  · intro hinput hnone hrespects x y hjoined hkept hchecked
    obtain ⟨base, hbase⟩ := List.exists_mem_of_ne_nil input hinput
    obtain ⟨s, hemit, hy⟩ := (hemits base x y).mpr ⟨hjoined, hchecked⟩
    have hs : s ∈ (expand_pattern view plan input truncation).out := by
      rw [expand_pattern_out]
      exact expand_pattern_complete hnone ⟨base, hbase, x, (hanchors base x).mpr hkept, hemit⟩
    have hboth := respects_iff.mp (hrespects s hs)
    rw [hemit.base_anchor.2, hy] at hboth
    exact ⟨(node_matches_anchor_split.mp hboth.1).2, (node_matches_peer_split.mp hboth.2).2⟩

end respects

/-- `main` calls `helper`, both in `a.rs`. -/
def call_pair : GraphView where
  nodes := [function_node 0 "main", function_node 1 "helper"]
  edges := [certain_edge 0 .Calls 0 1]
  candidates := []
  ids_dense := by decide

/-- `(a {file: file})-[:CALLS]->(b)`. -/
def callers_in_file (file : String) : PathPattern where
  path_var := none
  start := ⟨some "a", none, [⟨⟨"file", ⟨0, 0⟩⟩, .Str file⟩]⟩
  steps := [(⟨none, .Forward, [⟨"CALLS", ⟨0, 0⟩⟩], none, []⟩, ⟨some "b", none, []⟩)]

/-- The plan of `callers_in_file`: the file is nowhere in it. -/
def callers_plan : PatternPlan where
  path_var := none
  anchor_bound_var := none
  anchor_var := some "a"
  peer_var := some "b"
  rel_var := none
  anchor := .All
  direction := .Forward
  filter := { EdgeFilter.calls with
    kinds := some [.Calls, .CallsVirtual, .CallsClosure, .CallsCallback, .CallsAsync, .CallsIndirect] }
  cardinality := .SingleHop
  peer_kinds := none
  peer_props := []

theorem written_constraints_hold_iff_in_a_rs :
    (expand_pattern call_pair callers_plan [Binding.empty] none).out.length = 1 ∧
      ∀ s ∈ (expand_pattern call_pair callers_plan [Binding.empty] none).out,
        Respects call_pair ([⟨.File, .Str "a.rs"⟩], none) ([], none) s := by
  have hfile : ∀ node ∈ call_pair.nodes, prop_holds node ⟨.File, .Str "a.rs"⟩ = true := by decide
  have hpattern : (callers_in_file "a.rs").steps = [_] := rfl
  refine ⟨rfl, (written_constraints_hold_iff hpattern rfl rfl rfl [Binding.empty] none).1 ?_⟩
  intro x y _ hx hy
  have hrange := (node_matches_iff.mp hx).1
  refine ⟨node_matches_iff.mpr ⟨hrange, rfl, ?_⟩, hy⟩
  intro p hp
  rw [List.mem_singleton.mp hp]
  exact hfile (call_pair.node x) (GraphView.node_mem hrange)

/-- `main` is no caller in `b.rs`, yet it is returned as one. -/
theorem file_constraint_is_dropped :
    node_constraints (callers_in_file "b.rs").start = .ok ([⟨.File, .Str "b.rs"⟩], none) ∧
      lower_pattern_chain (callers_in_file "b.rs") = .ok [callers_plan] ∧
      ∃ s ∈ (expand_pattern call_pair callers_plan [Binding.empty] none).out,
        ¬ Respects call_pair ([⟨.File, .Str "b.rs"⟩], none) ([], none) s := by
  refine ⟨rfl, rfl, _, List.mem_of_getElem? (i := 0) rfl, ?_⟩
  intro hrespects
  exact absurd hrespects.1 (by decide)

section paths

variable (view : GraphView) (plan : PatternPlan) (base : Binding) (anchor : NodeId) (min : UInt32)
  (max : Option UInt32)

/-- The solutions of the anchor when the pattern binds its path. -/
def path_branch (path_var : String) : Expansion :=
  expand_var_length view { plan with path_var := some path_var } base anchor min max ⟨[], none⟩

/-- The solutions of the anchor when it does not. -/
def peer_branch : Expansion :=
  expand_var_length view { plan with path_var := none } base anchor min max ⟨[], none⟩

/-- Binding the path does not change which pairs match. -/
def SamePairs (path_var : String) : Prop :=
  ∀ x y, (∃ s ∈ (path_branch view plan base anchor min max path_var).out, s.anchor = x ∧ s.peer = y) ↔
    ∃ s ∈ (peer_branch view plan base anchor min max).out, s.anchor = x ∧ s.peer = y

/-- A walk from the anchor to a goal that repeats no relationship. -/
def TrailTo (goal : NodeId) (hops : List EdgeRef) : Prop :=
  goal ∈ peer_goal_ids view plan ∧
    PathWalker.IsTrail (var_walker plan max) view plan.direction anchor goal hops

/-- Every trail within the hop bound is enumerated. -/
def AllTrails : Prop :=
  ∀ goal hops, TrailTo view plan anchor max goal hops →
    ⟨anchor, none, false⟩ :: PathWalker.steps_of false hops ∈
      ((var_walker plan max).enumerate_trails view anchor goal plan.direction).paths

/-- No trail passes through its goal on the way. -/
def TrailsEndAtGoal : Prop :=
  ∀ goal hops, TrailTo view plan anchor max goal hops → PathWalker.FirstArrival goal hops

/-- Where a walk in the hop range leads to a goal, a trail in the range does. -/
def WalksHaveTrails : Prop :=
  ∀ goal ∈ peer_goal_ids view plan, ∀ k, InRange min max k →
    Walk ((var_walker plan max).Follows view plan.direction) k anchor goal →
      ∃ hops, TrailTo view plan anchor max goal hops ∧ min.toNat ≤ hops.length

end paths

section agreement

variable {view : GraphView} {plan : PatternPlan} {base : Binding} {anchor : NodeId} {min : UInt32}
  {max : Option UInt32} {path_var : String}

/-- The trails an untruncated enumeration misses are those that pass through the goal. -/
theorem all_trails_iff (hcard : plan.cardinality = .VarLength min max)
    (hnone : (path_branch view plan base anchor min max path_var).truncation = none) :
    AllTrails view plan anchor max ↔ TrailsEndAtGoal view plan anchor max := by
  have huncut : ∀ goal ∈ peer_goal_ids view plan,
      ((var_walker plan max).enumerate_trails view anchor goal plan.direction).truncation = none :=
    enumeration_uncut { plan with path_var := some path_var } hcard rfl hnone
  have hcap : 0 < (var_walker plan max).path_cap := Nat.succ_pos 1023
  constructor
  · intro hall goal hops htrail
    obtain ⟨hops', heq, _, hfirst⟩ :=
      (PathWalker.mem_enumerate_trails hcap (huncut goal htrail.1)).mp (hall goal hops htrail)
    rw [PathWalker.steps_of_inj (List.cons.inj heq).2]
    exact hfirst
  · intro hend goal hops htrail
    exact (PathWalker.mem_enumerate_trails hcap (huncut goal htrail.1)).mpr
      ⟨hops, rfl, htrail.2, hend goal hops htrail⟩

/-- The pairs an uncut expansion of the anchor binds. -/
private theorem exists_mem_iff (plan : PatternPlan) (hcard : plan.cardinality = .VarLength min max)
    (hnone : (expand_var_length view plan base anchor min max ⟨[], none⟩).truncation = none) {x y : NodeId} :
    (∃ s ∈ (expand_var_length view plan base anchor min max ⟨[], none⟩).out, s.anchor = x ∧ s.peer = y) ↔
      x = anchor ∧ y ∈ peer_goal_ids view plan ∧ Joined view plan anchor y := by
  have hpeer : node_matches view (kept_by_peer plan (plan.peer_props, plan.peer_kinds)) y = true ↔
      y ∈ peer_goal_ids view plan := by
    rw [mem_peer_goal_ids, kept_by_peer, hcard]
  rw [← hpeer, and_comm (a := node_matches _ _ _ = true), ← exists_emits_iff plan base]
  constructor
  · rintro ⟨s, hs, hx, hy⟩
    have hemit := (mem_expand_var_length plan hcard hnone).mp hs
    exact ⟨hx.symm.trans hemit.base_anchor.2, s, hemit, hy⟩
  · rintro ⟨hx, s, hemit, hy⟩
    exact ⟨s, (mem_expand_var_length plan hcard hnone).mpr hemit, hemit.base_anchor.2.trans hx.symm, hy⟩

/-- For runs that are not cut short, binding the path changes nothing and loses no trail
exactly when no trail passes through its goal and trails reach as far as walks. -/
theorem path_binding_agrees_iff (hcard : plan.cardinality = .VarLength min max)
    (hpaths : (path_branch view plan base anchor min max path_var).truncation = none)
    (hpeers : (peer_branch view plan base anchor min max).truncation = none) :
    SamePairs view plan base anchor min max path_var ∧ AllTrails view plan anchor max ↔
      TrailsEndAtGoal view plan anchor max ∧ WalksHaveTrails view plan anchor min max := by
  rw [all_trails_iff hcard hpaths, and_comm]
  refine and_congr_right fun hend => ?_
  have hpath : ∀ x y, (∃ s ∈ (path_branch view plan base anchor min max path_var).out,
      s.anchor = x ∧ s.peer = y) ↔ x = anchor ∧ y ∈ peer_goal_ids view plan ∧
        ∃ hops, PathWalker.IsTrail (var_walker plan max) view plan.direction anchor y hops ∧
          PathWalker.FirstArrival y hops ∧ min.toNat ≤ hops.length := by
    intro x y
    have h := exists_mem_iff { plan with path_var := some path_var } hcard hpaths (x := x) (y := y)
    rw [joined_trail_iff { plan with path_var := some path_var } hcard rfl] at h
    exact h
  have hpeer : ∀ x y, (∃ s ∈ (peer_branch view plan base anchor min max).out, s.anchor = x ∧ s.peer = y) ↔
      x = anchor ∧ y ∈ peer_goal_ids view plan ∧
        ∃ k, InRange min max k ∧ Walk ((var_walker plan max).Follows view plan.direction) k anchor y := by
    intro x y
    have h := exists_mem_iff { plan with path_var := none } hcard hpeers (x := x) (y := y)
    rw [joined_walk_iff { plan with path_var := none } hcard rfl] at h
    exact h
  constructor
  · intro hsame goal hgoal k hrange hwalk
    obtain ⟨_, _, hops, htrail, _, hmin⟩ :=
      (hpath anchor goal).mp ((hsame anchor goal).mpr ((hpeer anchor goal).mpr ⟨rfl, hgoal, k, hrange, hwalk⟩))
    exact ⟨hops, ⟨hgoal, htrail⟩, hmin⟩
  · intro hwalks x y
    rw [hpath, hpeer]
    refine and_congr_right fun _ => and_congr_right fun hgoal => ?_
    constructor
    · intro ⟨hops, htrail, _, hmin⟩
      have hpos := List.length_pos_of_ne_nil htrail.nonempty
      have hbound : hops.length ≤ (effective_max_depth max).toNat := (within_some _ _).mp htrail.bounded
      exact ⟨hops.length, ⟨hpos, hmin, hbound⟩,
        PathWalker.walk_iff_hops.mpr ⟨hops, htrail.follows, rfl, htrail.arrives⟩⟩
    · intro ⟨k, hrange, hwalk⟩
      obtain ⟨hops, htrail, hmin⟩ := hwalks y hgoal k hrange hwalk
      exact ⟨hops, htrail.2, hend y hops htrail, hmin⟩

end agreement

/-- `(a)-[:CALLS*min..]->(b)`. -/
def calls_star (min : UInt32) : PatternPlan :=
  { callers_plan with cardinality := .VarLength min none }

/-- The only hops of `call_pair` from `main` lead to `helper`. -/
private theorem call_pair_hops {hops : List EdgeRef} (hne : hops ≠ [])
    (h : (var_walker (calls_star 1) none).Hops call_pair .Forward ⟨0⟩ hops) :
    hops = [⟨certain_edge 0 .Calls 0 1, ⟨1⟩⟩] := by
  have hmain : call_pair.neighbors ⟨0⟩ .Forward (calls_star 1).filter =
      [⟨certain_edge 0 .Calls 0 1, ⟨1⟩⟩] := by decide
  have hhelper : call_pair.neighbors ⟨1⟩ .Forward (calls_star 1).filter = [] := by decide
  cases hops with
  | nil => exact absurd rfl hne
  | cons er rest =>
    obtain ⟨her, _, hrest⟩ := h
    have heq : er = ⟨certain_edge 0 .Calls 0 1, ⟨1⟩⟩ := List.mem_singleton.mp (hmain ▸ her)
    subst heq
    cases rest with
    | nil => rfl
    | cons er' rest =>
      have hnone : er' ∈ call_pair.neighbors ⟨1⟩ .Forward (calls_star 1).filter := hrest.1
      rw [hhelper] at hnone
      simp at hnone

theorem path_binding_agrees_iff_call_pair :
    SamePairs call_pair (calls_star 1) .empty ⟨0⟩ 1 none "path" ∧
      AllTrails call_pair (calls_star 1) ⟨0⟩ none := by
  refine (path_binding_agrees_iff rfl (by decide) (by decide)).mpr ⟨?_, ?_⟩
  · intro goal hops htrail
    rw [call_pair_hops htrail.2.nonempty htrail.2.follows]
    simp [PathWalker.FirstArrival]
  · intro goal hgoal k hrange hwalk
    obtain ⟨hops, hhops, hlength, harrives⟩ := PathWalker.walk_iff_hops.mp hwalk
    have hne : hops ≠ [] := List.ne_nil_of_length_pos (by rw [hlength]; exact hrange.1)
    have heq := call_pair_hops hne hhops
    subst heq
    exact ⟨_, ⟨hgoal, hne, hhops, List.nodup_singleton _, by decide, harrives⟩, by decide⟩

/-- `main` calls `retry`, which calls itself. -/
def retry_loop : GraphView where
  nodes := [function_node 0 "main", function_node 1 "retry"]
  edges := [certain_edge 0 .Calls 0 1, certain_edge 1 .Calls 1 1]
  candidates := []
  ids_dense := by decide

/-- `main` reaches `retry` in two hops, but only through `retry`: with its path bound
the pair is gone. -/
theorem path_binding_loses_retry :
    (path_branch retry_loop (calls_star 2) .empty ⟨0⟩ 2 none "path").truncation = none ∧
      (peer_branch retry_loop (calls_star 2) .empty ⟨0⟩ 2 none).truncation = none ∧
      ¬ SamePairs retry_loop (calls_star 2) .empty ⟨0⟩ 2 none "path" ∧
      ¬ AllTrails retry_loop (calls_star 2) ⟨0⟩ none := by
  have hpaths : (path_branch retry_loop (calls_star 2) .empty ⟨0⟩ 2 none "path").out.length = 0 := by decide
  have hpeers : (peer_branch retry_loop (calls_star 2) .empty ⟨0⟩ 2 none).out.map
      (fun s => (s.anchor, s.peer)) = [(⟨0⟩, ⟨1⟩)] := by decide
  refine ⟨by decide, by decide, ?_, ?_⟩
  · intro hsame
    have hpair : (⟨0⟩, ⟨1⟩) ∈ (peer_branch retry_loop (calls_star 2) .empty ⟨0⟩ 2 none).out.map
        fun s => (s.anchor, s.peer) := by
      rw [hpeers]
      exact List.mem_singleton_self _
    obtain ⟨s, hs, heq⟩ := List.mem_map.mp hpair
    obtain ⟨s', hs', _⟩ := (hsame ⟨0⟩ ⟨1⟩).mpr ⟨s, hs, congrArg Prod.fst heq, congrArg Prod.snd heq⟩
    rw [List.length_eq_zero_iff.mp hpaths] at hs'
    simp at hs'
  · intro hall
    have htrail : TrailTo retry_loop (calls_star 2) ⟨0⟩ none ⟨1⟩
        [⟨certain_edge 0 .Calls 0 1, ⟨1⟩⟩, ⟨certain_edge 1 .Calls 1 1, ⟨1⟩⟩] :=
      ⟨by decide, by decide, ⟨by decide, by decide, by decide, by decide, trivial⟩, by decide, by decide, rfl⟩
    exact absurd (hall _ _ htrail) (by decide)

end cgx.cql
