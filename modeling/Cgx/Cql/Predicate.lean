import Cgx.Cql.Paths
import Cgx.Cql.Eval

open cgx.core cgx.query walks

namespace cgx.cql

/-- The node is the one the binding gives a variable, where it gives one. -/
def Agrees (b : Binding) (var : Option String) (x : NodeId) : Prop :=
  ∀ id, var.bind b.node = some id → x = id

/-- The pairs the pattern joins in `MATCH` position. -/
def Matched (view : GraphView) (plan : PatternPlan) (anchor peer : NodeId) : Prop :=
  Joined view { plan with path_var := none } anchor peer

section pairs

variable (view : GraphView) (plan : PatternPlan) (b : Binding) (start finish : NodePat)
  (start_c finish_c : NodeConstraints)

/-- A pair of nodes at the written ends that the pattern matches under the binding. -/
structure MatchesPair (x y : NodeId) : Prop where
  start_agrees : Agrees b start.var x
  finish_agrees : Agrees b finish.var y
  start_holds : node_matches view start_c x = true
  finish_holds : node_matches view finish_c y = true
  joined : if anchors_start start_c finish_c then Matched view plan x y else Matched view plan y x

/-- The pairs the breadth-first walk of a predicate connects: never a node to itself,
and only when the shortest walk is long enough. -/
def Reached (x y : NodeId) : Prop :=
  match plan.cardinality with
  | .SingleHop => ∃ er ∈ view.neighbors x plan.direction plan.filter, er.peer = y
  | .VarLength min max => y ≠ x ∧ ∃ k, Shortest ((var_walker plan max).Follows view plan.direction) k x y ∧
      k ≤ (effective_max_depth max).toNat ∧ min.toNat ≤ k

/-- A pair of an anchor and a peer on which the predicate succeeds. -/
structure Accepted (x y : NodeId) : Prop where
  anchor_agrees : Agrees b plan.anchor_var x
  anchor_kept : plan.anchor_var.bind b.node = none →
    node_matches view (kept_by_anchor (anchored start_c finish_c).1) x = true
  peer_holds : node_matches view (anchored start_c finish_c).2 y = true
  reached : Reached view plan x y

/-- An accepted pair that is no match: its peer is not the bound one, or its anchor
violates a constraint. -/
def WronglyAccepted (x y : NodeId) : Prop :=
  Accepted view plan b start_c finish_c x y ∧
    ¬ (Agrees b plan.peer_var y ∧ node_matches view (anchored start_c finish_c).1 x = true)

/-- A match the walk cannot see: the node itself, or a node with a walk that is too
short. -/
def Missed (x y : NodeId) : Prop :=
  MatchesPair view plan b start finish start_c finish_c x y ∧
    match plan.cardinality with
    | .SingleHop => False
    | .VarLength min max => x = y ∨ ∃ k < min.toNat,
        Walk ((var_walker plan max).Follows view plan.direction) k
          (if anchors_start start_c finish_c then x else y) (if anchors_start start_c finish_c then y else x)

/-- The predicate says whether some pair of nodes matches, and its negations are its
complement. -/
def PredicateAgrees (pat : PathPattern) : Prop :=
  (pattern_exists view pat b = .ok true ↔
    ∃ x y, MatchesPair view plan b start finish start_c finish_c x y) ∧
  ∀ engine found, eval_expr engine view (.PatternPredicate false pat) b = .ok (.Bool found) →
    eval_expr engine view (.PatternPredicate true pat) b = .ok (.Bool !found) ∧
      eval_expr engine view (.Not (.PatternPredicate false pat)) b = .ok (.Bool !found)

end pairs

section predicate

variable {view : GraphView} {plan : PatternPlan} {b : Binding} {start finish : NodePat}
  {start_c finish_c : NodeConstraints}

private theorem anchor_matches_iff {anchor : NodeId} :
    anchor_matches view plan anchor = true ↔
      ∃ y, Reached view plan anchor y ∧ peer_matches view plan y = true := by
  cases hcard : plan.cardinality with
  | SingleHop =>
    simp only [anchor_matches, Reached, hcard, List.any_eq_true]
    constructor
    · rintro ⟨er, her, hpeer⟩
      exact ⟨er.peer, ⟨er, her, rfl⟩, hpeer⟩
    · rintro ⟨y, ⟨er, her, hy⟩, hpeer⟩
      subst hy
      exact ⟨er, her, hpeer⟩
  | VarLength min max =>
    have hreached : ∀ y, Reached view plan anchor y ↔
        ∃ d ∈ (var_walker plan max).bfs view anchor plan.direction, d.node = y ∧ min.toNat ≤ d.depth := by
      intro y
      rw [PathWalker.mem_bfs_depth_iff, Reached, hcard]
      simp only [PathWalker.limit, var_walker, Option.map_some, within_some]
    simp only [anchor_matches, hcard, hreached, List.any_eq_true, Bool.and_eq_true, decide_eq_true_eq]
    constructor
    · rintro ⟨d, hd, hmin, hpeer⟩
      exact ⟨d.node, ⟨d, hd, rfl, hmin⟩, hpeer⟩
    · rintro ⟨y, ⟨d, hd, hy, hmin⟩, hpeer⟩
      subst hy
      exact ⟨d, hd, hmin, hpeer⟩

/-- The predicate succeeds exactly on an accepted pair. -/
theorem pattern_exists_iff (view : GraphView) (b : Binding) {pat : PathPattern} {rel : RelPat}
    (hsteps : pat.steps = [(rel, finish)])
    (hstart : node_constraints pat.start = .ok start_c) (hfinish : node_constraints finish = .ok finish_c)
    (hlower : lower_pattern pat = .ok plan) :
    pattern_exists view pat b = .ok true ↔ ∃ x y, Accepted view plan b start_c finish_c x y := by
  have hsingle : lower_single pat.path_var pat.start rel finish = .ok plan := by
    rw [← hlower, lower_pattern, hsteps]
  obtain ⟨_, _, _, hanchor, hpeer, _, _⟩ := lower_single_ok hstart hfinish hsingle
  have hexists : pattern_exists view pat b = .ok
      (((plan.anchor_var.bind b.node).elim (anchor_ids view plan.anchor) ([·])).any (anchor_matches view plan)) := by
    simp only [pattern_exists, hlower, bind, Except.bind, pure, Except.pure]
    cases Option.bind plan.anchor_var b.node <;> rfl
  have hanchors : ∀ x, x ∈ (plan.anchor_var.bind b.node).elim (anchor_ids view plan.anchor) ([·]) ↔
      Agrees b plan.anchor_var x ∧ (plan.anchor_var.bind b.node = none →
        node_matches view (kept_by_anchor (anchored start_c finish_c).1) x = true) := by
    intro x
    cases hbound : plan.anchor_var.bind b.node with
    | some id => simp [Agrees, hbound]
    | none =>
      rw [hanchor]
      simp [Agrees, hbound, mem_anchor_ids]
  rw [hexists]
  simp only [Except.ok.injEq, List.any_eq_true, anchor_matches_iff]
  constructor
  · rintro ⟨x, hx, y, hreached, hmatch⟩
    obtain ⟨hagrees, hkept⟩ := (hanchors x).mp hx
    exact ⟨x, y, hagrees, hkept, by rw [← hpeer]; exact hmatch, hreached⟩
  · rintro ⟨x, y, haccepted⟩
    refine ⟨x, (hanchors x).mpr ⟨haccepted.anchor_agrees, haccepted.anchor_kept⟩, y, haccepted.reached, ?_⟩
    rw [peer_matches, hpeer]
    exact haccepted.peer_holds

/-- The written ends of a pair, seen from the anchor. -/
theorem matches_pair_iff (view : GraphView) (b : Binding) {pat : PathPattern} {rel : RelPat}
    (hsteps : pat.steps = [(rel, finish)])
    (hstart : node_constraints pat.start = .ok start_c) (hfinish : node_constraints finish = .ok finish_c)
    (hlower : lower_pattern pat = .ok plan) {x y : NodeId} :
    MatchesPair view plan b pat.start finish start_c finish_c
        (if anchors_start start_c finish_c then x else y) (if anchors_start start_c finish_c then y else x) ↔
      Agrees b plan.anchor_var x ∧ Agrees b plan.peer_var y ∧
        node_matches view (anchored start_c finish_c).1 x = true ∧
          node_matches view (anchored start_c finish_c).2 y = true ∧ Matched view plan x y := by
  have hsingle : lower_single pat.path_var pat.start rel finish = .ok plan := by
    rw [← hlower, lower_pattern, hsteps]
  obtain ⟨_, _, _, _, _, hanchor, hpeer⟩ := lower_single_ok hstart hfinish hsingle
  rw [hanchor, hpeer]
  simp only [anchored]
  split
  · rename_i hanchors
    constructor
    · rintro ⟨hx, hy, hxc, hyc, hjoined⟩
      rw [if_pos hanchors] at hjoined
      exact ⟨hx, hy, hxc, hyc, hjoined⟩
    · rintro ⟨hx, hy, hxc, hyc, hjoined⟩
      exact ⟨hx, hy, hxc, hyc, by rwa [if_pos hanchors]⟩
  · rename_i hanchors
    constructor
    · rintro ⟨hy, hx, hyc, hxc, hjoined⟩
      rw [if_neg hanchors] at hjoined
      exact ⟨hx, hy, hxc, hyc, hjoined⟩
    · rintro ⟨hx, hy, hxc, hyc, hjoined⟩
      exact ⟨hy, hx, hyc, hxc, by rwa [if_neg hanchors]⟩

private theorem exists_matches_iff {pat : PathPattern} {rel : RelPat} (hsteps : pat.steps = [(rel, finish)])
    (hstart : node_constraints pat.start = .ok start_c) (hfinish : node_constraints finish = .ok finish_c)
    (hlower : lower_pattern pat = .ok plan) :
    (∃ x y, MatchesPair view plan b pat.start finish start_c finish_c x y) ↔
      ∃ x y, Agrees b plan.anchor_var x ∧ Agrees b plan.peer_var y ∧
        node_matches view (anchored start_c finish_c).1 x = true ∧
          node_matches view (anchored start_c finish_c).2 y = true ∧ Matched view plan x y := by
  simp only [← matches_pair_iff view b hsteps hstart hfinish hlower]
  split
  · exact Iff.rfl
  · exact exists_comm

theorem Reached.matched {x y : NodeId} (h : Reached view plan x y) : Matched view plan x y := by
  cases hcard : plan.cardinality with
  | SingleHop =>
    rw [Reached, hcard] at h
    exact (joined_hop_iff { plan with path_var := none } hcard).mpr h
  | VarLength min max =>
    rw [Reached, hcard] at h
    obtain ⟨hne, k, hshortest, hle, hmin⟩ := h
    refine (joined_walk_iff { plan with path_var := none } hcard rfl).mpr ⟨k, ⟨?_, hmin, hle⟩, hshortest.1⟩
    apply Nat.pos_of_ne_zero
    intro hzero
    subst hzero
    exact hne (Walk.zero_iff.mp hshortest.1).symm

/-- A match the walk can see is reached. -/
theorem Matched.reached {x y : NodeId} (h : Matched view plan x y)
    (hseen : ∀ min max, plan.cardinality = .VarLength min max → x ≠ y ∧
      ¬ ∃ k < min.toNat, Walk ((var_walker plan max).Follows view plan.direction) k x y) :
    Reached view plan x y := by
  cases hcard : plan.cardinality with
  | SingleHop =>
    rw [Reached, hcard]
    exact (joined_hop_iff { plan with path_var := none } hcard).mp h
  | VarLength min max =>
    obtain ⟨hne, hlong⟩ := hseen min max hcard
    obtain ⟨k, ⟨_, _, hle⟩, hwalk⟩ := (joined_walk_iff { plan with path_var := none } hcard rfl).mp h
    obtain ⟨j, hj, hshortest⟩ := hwalk.exists_shortest
    rw [Reached, hcard]
    refine ⟨hne.symm, j, hshortest, hj.trans hle, ?_⟩
    by_contra hlt
    exact hlong ⟨j, by omega, hshortest.1⟩

/-- A pattern predicate agrees with `MATCH` exactly when a wrongly accepted pair is never
the only evidence, and a match the walk misses is never the only match. -/
theorem pattern_predicate_agrees_iff {pat : PathPattern} {rel : RelPat}
    (hsteps : pat.steps = [(rel, finish)]) (hstart : node_constraints pat.start = .ok start_c)
    (hfinish : node_constraints finish = .ok finish_c) (hlower : lower_pattern pat = .ok plan) :
    PredicateAgrees view plan b pat.start finish start_c finish_c pat ↔
      ((∃ x y, WronglyAccepted view plan b start_c finish_c x y) →
        ∃ x y, MatchesPair view plan b pat.start finish start_c finish_c x y) ∧
      ((∃ x y, Missed view plan b pat.start finish start_c finish_c x y) →
        ∃ x y, Accepted view plan b start_c finish_c x y) := by
  have hexists := pattern_exists_iff view b hsteps hstart hfinish hlower
  constructor
  · intro ⟨hagrees, _⟩
    constructor
    · intro ⟨x, y, haccepted, _⟩
      exact hagrees.mp (hexists.mpr ⟨x, y, haccepted⟩)
    · intro ⟨x, y, hmatch, _⟩
      exact hexists.mp (hagrees.mpr ⟨x, y, hmatch⟩)
  · intro ⟨hwrong, hmissed⟩
    refine ⟨?_, ?_⟩
    · rw [hexists]
      constructor
      · intro ⟨x, y, haccepted⟩
        by_cases hends : Agrees b plan.peer_var y ∧ node_matches view (anchored start_c finish_c).1 x = true
        · rw [exists_matches_iff hsteps hstart hfinish hlower]
          exact ⟨x, y, haccepted.anchor_agrees, hends.1, hends.2, haccepted.peer_holds,
            haccepted.reached.matched⟩
        · exact hwrong ⟨x, y, haccepted, hends⟩
      · intro hmatches
        obtain ⟨x, y, hx, hy, hxc, hyc, hmatched⟩ :=
          (exists_matches_iff hsteps hstart hfinish hlower).mp hmatches
        by_cases hseen : ∀ min max, plan.cardinality = .VarLength min max → x ≠ y ∧
            ¬ ∃ k < min.toNat, Walk ((var_walker plan max).Follows view plan.direction) k x y
        · exact ⟨x, y, hx, fun _ => (node_matches_anchor_split.mp hxc).1, hyc, hmatched.reached hseen⟩
        · have hpair := (matches_pair_iff view b hsteps hstart hfinish hlower).mpr
            ⟨hx, hy, hxc, hyc, hmatched⟩
          refine hmissed ⟨_, _, hpair, ?_⟩
          simp only [not_forall] at hseen
          obtain ⟨min, max, hcard, hunseen⟩ := hseen
          rw [hcard]
          rw [not_and_or, not_not, not_not] at hunseen
          simp only
          split
          · exact hunseen
          · exact hunseen.imp_left Eq.symm
    · intro engine found hfound
      have hresult : pattern_exists view pat b = .ok found := by
        simp only [eval_expr, bind, Except.bind, pure, Except.pure, Bool.false_eq_true, if_false] at hfound
        cases hcase : pattern_exists view pat b with
        | error e => simp [hcase] at hfound
        | ok value =>
          rw [hcase] at hfound
          simp only [Except.ok.injEq, Value.Bool.injEq] at hfound
          rw [hfound]
      constructor
      · simp only [eval_expr, hresult, bind, Except.bind, pure, Except.pure, if_true]
      · simp only [eval_expr, hresult, bind, Except.bind, pure, Except.pure, Bool.false_eq_true, if_false,
          is_truthy]

end predicate

/-- `(m)<-[:CALLS*]-()`: something calls `m`. -/
def has_callers : PathPattern where
  path_var := none
  start := ⟨some "m", none, []⟩
  steps := [(⟨none, .Backward, [⟨"CALLS", ⟨0, 0⟩⟩], some ⟨none, none⟩, []⟩, ⟨none, none, []⟩)]

def has_callers_plan : PatternPlan :=
  { callers_plan with
    anchor_var := some "m"
    peer_var := none
    direction := .Backward
    cardinality := .VarLength 1 none }

/-- A hop to the end of an edge, as a match of `has_callers`. -/
private theorem has_callers_match (view : GraphView) (b : Binding) (x y : NodeId)
    (hx : b.node "m" = some x) (hrange : x.index < view.node_count)
    (hstep : (var_walker has_callers_plan none).Follows view .Backward x y) :
    MatchesPair view has_callers_plan b has_callers.start ⟨none, none, []⟩ ([], none) ([], none) x y where
  start_agrees id hid := by
    rw [show has_callers.start.var.bind b.node = b.node "m" from rfl, hx] at hid
    exact Option.some.inj hid
  finish_agrees id hid := by simp at hid
  start_holds := node_matches_iff.mpr ⟨hrange, rfl, by simp⟩
  finish_holds := by
    obtain ⟨_, _, _, hrange⟩ := hstep
    exact node_matches_iff.mpr ⟨hrange, rfl, by simp⟩
  joined := by
    refine (joined_walk_iff has_callers_plan rfl rfl).mpr ⟨1, ⟨le_refl 1, ?_, ?_⟩, .single hstep⟩ <;> decide

theorem pattern_predicate_agrees_iff_call_pair :
    PredicateAgrees call_pair has_callers_plan (Binding.empty.insert "m" (.Node ⟨1⟩)) has_callers.start
      ⟨none, none, []⟩ ([], none) ([], none) has_callers := by
  have hsteps : has_callers.steps = [_] := rfl
  have hlower : lower_pattern has_callers = .ok has_callers_plan := rfl
  have hmatch := has_callers_match call_pair (Binding.empty.insert "m" (.Node ⟨1⟩)) ⟨1⟩ ⟨0⟩ rfl (by decide)
    ⟨⟨certain_edge 0 .Calls 0 1, ⟨0⟩⟩, by decide, rfl, by decide⟩
  have haccepted := (pattern_exists_iff call_pair (Binding.empty.insert "m" (.Node ⟨1⟩)) hsteps rfl rfl
    hlower).mp rfl
  exact (pattern_predicate_agrees_iff hsteps rfl rfl hlower).mpr
    ⟨fun _ => ⟨_, _, hmatch⟩, fun _ => haccepted⟩

/-- `retry` calls itself. -/
def self_call : GraphView where
  nodes := [function_node 0 "retry"]
  edges := [certain_edge 0 .Calls 0 0]
  candidates := []
  ids_dense := by decide

/-- `MATCH` finds `retry` calling `retry`, but the predicate says that nothing does. -/
theorem self_call_has_no_callers :
    pattern_exists self_call has_callers (Binding.empty.insert "m" (.Node ⟨0⟩)) = .ok false ∧
      ¬ PredicateAgrees self_call has_callers_plan (Binding.empty.insert "m" (.Node ⟨0⟩)) has_callers.start
        ⟨none, none, []⟩ ([], none) ([], none) has_callers := by
  have hfalse : pattern_exists self_call has_callers (Binding.empty.insert "m" (.Node ⟨0⟩)) = .ok false := rfl
  refine ⟨hfalse, ?_⟩
  intro ⟨hagrees, _⟩
  have hmatch := has_callers_match self_call (Binding.empty.insert "m" (.Node ⟨0⟩)) ⟨0⟩ ⟨0⟩ rfl (by decide)
    ⟨⟨certain_edge 0 .Calls 0 0, ⟨0⟩⟩, by decide, rfl, by decide⟩
  have htrue := hagrees.mpr ⟨_, _, hmatch⟩
  rw [hfalse] at htrue
  simp at htrue

end cgx.cql
