import Cgx.Cql.Joins
import Cgx.Cql.Paths
import Cgx.Cql.Project

open cgx.core cgx.query walks gathering results

namespace cgx.cql

section performs

variable (engine : SelectorEngine) (view : GraphView) (float_text : Float → String)
  (plan : PatternPlan) (input : List Binding) (truncation : Option TruncationReason)

/-- Expanding a stream by a clause's plans comes to expand `input` by `plan`. -/
inductive PlansPerform : List PatternPlan → List Binding → Option TruncationReason → Prop
  | here {rest : List PatternPlan} : PlansPerform (plan :: rest) input truncation
  | later {first : PatternPlan} {rest : List PatternPlan} {stream : List Binding}
      {before : Option TruncationReason}
      (hrest : PlansPerform rest
        ((expand_pattern view first stream before).out.map (Solution.bind first))
        (expand_pattern view first stream before).truncation) :
      PlansPerform (first :: rest) stream before

/-- Running the clauses of a part does. -/
inductive ClausesPerform : List LoweredClause → List Binding → Option TruncationReason → Prop
  | here {clause : MatchClause} {plans : List PatternPlan} {rest : List LoweredClause}
      {stream : List Binding} {before : Option TruncationReason}
      (hplans : PlansPerform view plan input truncation plans stream before) :
      ClausesPerform (.Match clause plans :: rest) stream before
  | after_match {clause : MatchClause} {plans : List PatternPlan} {rest : List LoweredClause}
      {stream matched : List Binding} {before after : Option TruncationReason}
      (hmatch : eval_match engine view clause plans stream before = .ok (matched, after))
      (hrest : ClausesPerform rest matched after) :
      ClausesPerform (.Match clause plans :: rest) stream before
  | after_call {clause : CallClause} {rest : List LoweredClause} {stream called : List Binding}
      {before : Option TruncationReason} (hcall : eval_call engine view clause stream = .ok called)
      (hrest : ClausesPerform rest called before) : ClausesPerform (.Call clause :: rest) stream before

/-- Evaluating the parts of a query does. -/
inductive PartsPerform : List QueryPart → List Binding → Option TruncationReason → Prop
  | here {part : QueryPart} {rest : List QueryPart} {clauses : List LoweredClause}
      {carried : List Binding} {before : Option TruncationReason}
      (hlower : lower_reading part.reading = .ok clauses)
      (hclauses : ClausesPerform engine view plan input truncation clauses carried before) :
      PartsPerform (part :: rest) carried before
  | after_with {part : QueryPart} {rest : List QueryPart} {carry : WithClause}
      {carried bindings next : List Binding} {before after : Option TruncationReason}
      (hread : eval_reading engine view part carried before = .ok (bindings, after))
      (hcarry : part.carry = some carry)
      (hwith : project_with engine view float_text carry bindings = .ok next)
      (hrest : PartsPerform rest next after) : PartsPerform (part :: rest) carried before

/-- Evaluating the query comes to expand `input` by `plan`. -/
def Performs (query : Query) : Prop :=
  PartsPerform engine view float_text plan input truncation query.parts [.empty] none

end performs

section uncut

variable {engine : SelectorEngine} {view : GraphView} {float_text : Float → String} {plan : PatternPlan}
  {input : List Binding} {truncation : Option TruncationReason}

/-- A cut before a pattern is still reported after it. -/
theorem expand_pattern_uncut (hnone : (expand_pattern view plan input truncation).truncation = none) :
    truncation = none := by
  have hcut : Expansion.truncated (expand_pattern view plan input truncation) = false := by
    rw [Expansion.truncated, hnone]
    rfl
  have hstart := (expand_pattern_gathers.complete (⟨[], truncation⟩ : Expansion) hcut).1
  simpa [Expansion.truncated] using hstart

theorem expand_plans_uncut {plans : List PatternPlan} {stream : List Binding}
    {before : Option TruncationReason} (hnone : (expand_plans view plans stream before).2 = none) :
    before = none := by
  induction plans generalizing stream before with
  | nil => exact hnone
  | cons first rest ih => exact expand_pattern_uncut (ih hnone)

theorem run_clauses_uncut {clauses : List LoweredClause} {stream out : List Binding}
    {before : Option TruncationReason} (hrun : run_clauses engine view clauses stream before = .ok (out, none)) :
    before = none := by
  induction clauses generalizing stream before with
  | nil =>
    simp only [run_clauses, Except.ok.injEq, Prod.mk.injEq] at hrun
    exact hrun.2
  | cons clause rest ih =>
    cases clause with
    | Match clause plans =>
      obtain ⟨⟨matched, after⟩, hmatch, hrest⟩ := bind_ok_iff.mp hrun
      have hafter := ih hrest
      obtain ⟨kept, _, hkept⟩ := bind_ok_iff.mp hmatch
      cases hkept
      exact expand_plans_uncut hafter
    | Call clause =>
      obtain ⟨called, _, hrest⟩ := bind_ok_iff.mp hrun
      exact ih hrest

theorem eval_reading_uncut {part : QueryPart} {carried out : List Binding}
    {before : Option TruncationReason} (hread : eval_reading engine view part carried before = .ok (out, none)) :
    before = none := by
  obtain ⟨clauses, _, hread⟩ := bind_ok_iff.mp hread
  obtain ⟨_, _, hrun⟩ := bind_ok_iff.mp hread
  exact run_clauses_uncut hrun

theorem PlansPerform.uncut {plans : List PatternPlan} {stream : List Binding}
    {before : Option TruncationReason} (h : PlansPerform view plan input truncation plans stream before)
    (hnone : (expand_plans view plans stream before).2 = none) :
    (expand_pattern view plan input truncation).truncation = none := by
  induction h with
  | here => exact expand_plans_uncut hnone
  | later _ ih => exact ih hnone

theorem ClausesPerform.uncut {clauses : List LoweredClause} {stream out : List Binding}
    {before : Option TruncationReason}
    (h : ClausesPerform engine view plan input truncation clauses stream before)
    (hrun : run_clauses engine view clauses stream before = .ok (out, none)) :
    (expand_pattern view plan input truncation).truncation = none := by
  induction h with
  | here hplans =>
    obtain ⟨⟨matched, after⟩, hmatch, hrest⟩ := bind_ok_iff.mp hrun
    have hafter := run_clauses_uncut hrest
    obtain ⟨kept, _, hkept⟩ := bind_ok_iff.mp hmatch
    cases hkept
    exact hplans.uncut hafter
  | after_match hmatch _ ih =>
    obtain ⟨_, hmatch', hrest⟩ := bind_ok_iff.mp hrun
    cases hmatch.symm.trans hmatch'
    exact ih hrest
  | after_call hcall _ ih =>
    obtain ⟨_, hcall', hrest⟩ := bind_ok_iff.mp hrun
    cases hcall.symm.trans hcall'
    exact ih hrest

theorem project_truncation {ret : ReturnClause} {bindings : List Binding} {table : ResultTable}
    (h : project engine view float_text ret bindings truncation = .ok table) :
    table.truncation = truncation := by
  unfold project at h
  split at h
  · unfold project_grouped at h
    obtain ⟨groups, _, h⟩ := bind_ok_iff.mp h
    obtain ⟨rows, _, h⟩ := bind_ok_iff.mp h
    obtain ⟨sorted, _, h⟩ := bind_ok_iff.mp h
    cases h
    rfl
  · obtain ⟨ordered, _, h⟩ := bind_ok_iff.mp h
    obtain ⟨rows, _, h⟩ := bind_ok_iff.mp h
    obtain ⟨sorted, _, h⟩ := bind_ok_iff.mp h
    cases h
    rfl

/-- The signal of a table is that of all its parts. -/
theorem eval_parts_uncut {parts : List QueryPart} {carried : List Binding}
    {before : Option TruncationReason} {table : ResultTable}
    (heval : eval_parts engine view float_text parts carried before = .ok table)
    (hnone : table.truncation = none) : before = none := by
  induction parts generalizing carried before with
  | nil => cases heval
  | cons part rest ih =>
    obtain ⟨⟨bindings, after⟩, hread, heval⟩ := bind_ok_iff.mp heval
    have hafter : after = none := by
      simp only at heval
      split at heval
      · obtain ⟨next, _, heval⟩ := bind_ok_iff.mp heval
        exact ih heval
      · rw [← project_truncation heval, hnone]
      · cases heval
    subst hafter
    exact eval_reading_uncut hread

/-- A query whose table reports no truncation cut no pattern it expanded. -/
theorem PartsPerform.uncut {parts : List QueryPart} {carried : List Binding}
    {before : Option TruncationReason} {table : ResultTable}
    (h : PartsPerform engine view float_text plan input truncation parts carried before)
    (heval : eval_parts engine view float_text parts carried before = .ok table)
    (hnone : table.truncation = none) :
    (expand_pattern view plan input truncation).truncation = none := by
  induction h with
  | here hlower hclauses =>
    obtain ⟨⟨bindings, after⟩, hread, heval⟩ := bind_ok_iff.mp heval
    have hafter : after = none := by
      simp only at heval
      split at heval
      · obtain ⟨next, _, heval⟩ := bind_ok_iff.mp heval
        exact eval_parts_uncut heval hnone
      · rw [← project_truncation heval, hnone]
      · cases heval
    subst hafter
    obtain ⟨clauses, hlower', hread⟩ := bind_ok_iff.mp hread
    cases hlower.symm.trans hlower'
    obtain ⟨_, _, hrun⟩ := bind_ok_iff.mp hread
    exact hclauses.uncut hrun
  | after_with hread hcarry hwith _ ih =>
    obtain ⟨⟨bindings, after⟩, hread', heval⟩ := bind_ok_iff.mp heval
    cases hread.symm.trans hread'
    simp only [hcarry] at heval
    obtain ⟨next, hwith', heval⟩ := bind_ok_iff.mp heval
    cases hwith.symm.trans hwith'
    exact ih heval

end uncut

section depth

variable (view : GraphView) (plan : PatternPlan) (min : UInt32) (input : List Binding)

/-- An admitted walk of at least `max(min, 1)` hops, of any length. -/
def Reaches (x y : NodeId) : Prop :=
  ∃ k, Nat.max min.toNat 1 ≤ k ∧ Walk ((var_walker plan none).Follows view plan.direction) k x y

/-- The emitted pairs are those of an anchor and a goal an admitted walk of any length joins. -/
def EmitsEveryWalk (out : List Solution) : Prop :=
  ∀ base x y, (∃ s ∈ out, s.base = base ∧ s.anchor = x ∧ s.peer = y) ↔
    base ∈ input ∧ x ∈ step_anchors view plan base ∧ y ∈ peer_goal_ids view plan ∧ Reaches view plan min x y

/-- An anchor and a goal some admitted walk joins are joined within the default depth. -/
def WithinDefaultDepth : Prop :=
  ∀ base ∈ input, ∀ x ∈ step_anchors view plan base, ∀ y ∈ peer_goal_ids view plan,
    Reaches view plan min x y → Joined view plan x y

end depth

section unbounded

variable {engine : SelectorEngine} {view : GraphView} {float_text : Float → String} {plan : PatternPlan}
  {min : UInt32} {input : List Binding} {truncation : Option TruncationReason}

/-- What joins a pair within the default depth is an admitted walk. -/
theorem Joined.reaches (hcard : plan.cardinality = .VarLength min none) {x y : NodeId}
    (h : Joined view plan x y) : Reaches view plan min x y := by
  cases hpath : plan.path_var.isSome with
  | true =>
    obtain ⟨hops, htrail, _, hmin⟩ := (joined_trail_iff plan hcard hpath).mp h
    have hpos := List.length_pos_of_ne_nil htrail.nonempty
    exact ⟨hops.length, Nat.max_le.mpr ⟨hmin, hpos⟩,
      PathWalker.walk_iff_hops.mpr ⟨hops, htrail.follows, rfl, htrail.arrives⟩⟩
  | false =>
    obtain ⟨k, hrange, hwalk⟩ := (joined_walk_iff plan hcard hpath).mp h
    exact ⟨k, Nat.max_le.mpr ⟨hrange.2.1, hrange.1⟩, hwalk⟩

/-- The pairs an uncut expansion emits from a binding. -/
theorem exists_emitted_iff (hcard : plan.cardinality = .VarLength min none)
    (hnone : (expand_pattern view plan input truncation).truncation = none) {base : Binding} {x y : NodeId} :
    (∃ s ∈ (expand_pattern view plan input truncation).out, s.base = base ∧ s.anchor = x ∧ s.peer = y) ↔
      base ∈ input ∧ x ∈ step_anchors view plan base ∧ y ∈ peer_goal_ids view plan ∧ Joined view plan x y := by
  have hpeer : node_matches view (kept_by_peer plan (plan.peer_props, plan.peer_kinds)) y = true ↔
      y ∈ peer_goal_ids view plan := by
    rw [mem_peer_goal_ids, kept_by_peer, hcard]
  constructor
  · rintro ⟨s, hs, hsbase, hsanchor, hspeer⟩
    obtain ⟨base', hbase, anchor, hanchor, hemit⟩ := expand_pattern_sound hs
    obtain ⟨hsame, hsame'⟩ := hemit.base_anchor
    obtain rfl : base' = base := hsame.symm.trans hsbase
    obtain rfl : anchor = x := hsame'.symm.trans hsanchor
    obtain ⟨hjoined, hmatch⟩ := (exists_emits_iff plan base').mp ⟨s, hemit, hspeer⟩
    exact ⟨hbase, hanchor, hpeer.mp hmatch, hjoined⟩
  · rintro ⟨hbase, hanchor, hgoal, hjoined⟩
    obtain ⟨s, hemit, hspeer⟩ := (exists_emits_iff plan base).mpr ⟨hjoined, hpeer.mpr hgoal⟩
    exact ⟨s, expand_pattern_complete hnone ⟨base, hbase, x, hanchor, hemit⟩,
      hemit.base_anchor.1, hemit.base_anchor.2, hspeer⟩

/-- Behind a table without truncation, an unbounded pattern emits the pairs of all its
walks exactly when none needs more than the default depth. -/
theorem unbounded_emits_every_walk_iff {query : Query} {table : ResultTable}
    (heval : eval engine view float_text query = .ok table) (hnone : table.truncation = none)
    (hperforms : Performs engine view float_text plan input truncation query)
    (hcard : plan.cardinality = .VarLength min none) :
    EmitsEveryWalk view plan min input (expand_pattern view plan input truncation).out ↔
      WithinDefaultDepth view plan min input := by
  have huncut := PartsPerform.uncut hperforms heval hnone
  constructor
  · intro hevery base hbase x hx y hy hreaches
    have hemitted := (hevery base x y).mpr ⟨hbase, hx, hy, hreaches⟩
    exact ((exists_emitted_iff hcard huncut).mp hemitted).2.2.2
  · intro hwithin base x y
    rw [exists_emitted_iff hcard huncut]
    constructor
    · intro ⟨hbase, hx, hy, hjoined⟩
      exact ⟨hbase, hx, hy, hjoined.reaches hcard⟩
    · intro ⟨hbase, hx, hy, hreaches⟩
      exact ⟨hbase, hx, hy, hwithin base hbase x hx y hy hreaches⟩

end unbounded

/-- `MATCH (a)-[:CALLS*]->(b) RETURN b`. -/
def callees_query : Query where
  parts := [⟨[.Match ⟨[⟨none, var_node "a", [(⟨none, .Forward, [⟨"CALLS", ⟨0, 0⟩⟩], some ⟨none, none⟩, []⟩,
    var_node "b")]⟩], none⟩], some ⟨false, [⟨.Property ⟨"b", ⟨0, 0⟩⟩ [], none⟩], [], none⟩, none⟩]

/-- The query expands its one pattern from every node. -/
theorem callees_query_performs (view : GraphView) :
    Performs no_selectors view (fun _ => "") (calls_star 1) [.empty] none callees_query :=
  .here rfl (.here .here)

/-- The only hop of `call_pair` leads from `main` to `helper`. -/
private theorem call_pair_follows {x y : NodeId}
    (h : (var_walker (calls_star 1) none).Follows call_pair .Forward x y) : x = ⟨0⟩ ∧ y = ⟨1⟩ := by
  obtain ⟨er, her, rfl, _⟩ := h
  obtain ⟨hmem, horigin, hpeer, _⟩ := GraphView.mem_neighbors.mp her
  have hedge : er.edge = certain_edge 0 .Calls 0 1 := List.mem_singleton.mp hmem
  rw [hpeer, ← horigin, hedge]
  exact ⟨rfl, rfl⟩

theorem unbounded_emits_every_walk_iff_call_pair :
    EmitsEveryWalk call_pair (calls_star 1) 1 [.empty]
      (expand_pattern call_pair (calls_star 1) [.empty] none).out := by
  have heval : ∃ table, eval no_selectors call_pair (fun _ => "") callees_query = .ok table ∧
      table.truncation = none := ⟨_, rfl, rfl⟩
  obtain ⟨table, heval, hnone⟩ := heval
  refine (unbounded_emits_every_walk_iff heval hnone (callees_query_performs call_pair) rfl).mpr ?_
  intro base hbase x hx y hy ⟨k, hk, hwalk⟩
  rw [joined_walk_iff (calls_star 1) rfl rfl]
  cases k with
  | zero => exact absurd hk (by decide)
  | succ k =>
    obtain ⟨mid, hhop, hwalk⟩ := Walk.succ_iff_head.mp hwalk
    cases k with
    | zero =>
      obtain rfl := Walk.zero_iff.mp hwalk
      exact ⟨1, ⟨by decide, by decide, by decide⟩, Walk.single hhop⟩
    | succ k =>
      obtain ⟨_, hhop', _⟩ := Walk.succ_iff_head.mp hwalk
      have hmid : mid = ⟨0⟩ := (call_pair_follows hhop').1
      rw [(call_pair_follows hhop).2] at hmid
      exact absurd hmid (by decide)

/-- Each of ten functions calls the next. -/
def call_chain_of_ten : GraphView where
  nodes := (List.range 10).map fun i => function_node i.toUInt32 (toString i)
  edges := (List.range 9).map fun i => certain_edge i.toUInt32 .Calls i.toUInt32 (i + 1).toUInt32
  candidates := []
  ids_dense := by decide

/-- The last function of the chain is nine calls from the first: the query leaves the pair
out and reports nothing. -/
theorem chain_of_ten_is_cut_silently :
    ∃ table, eval no_selectors call_chain_of_ten (fun _ => "") callees_query = .ok table ∧
      table.truncation = none ∧
      Performs no_selectors call_chain_of_ten (fun _ => "") (calls_star 1) [.empty] none callees_query ∧
      ¬ EmitsEveryWalk call_chain_of_ten (calls_star 1) 1 [.empty]
        (expand_pattern call_chain_of_ten (calls_star 1) [.empty] none).out := by
  refine ⟨_, rfl, rfl, callees_query_performs call_chain_of_ten, fun hevery => ?_⟩
  have hhops : ∀ i < 9, (var_walker (calls_star 1) none).Follows call_chain_of_ten .Forward
      ⟨Nat.toUInt32 i⟩ ⟨Nat.toUInt32 (i + 1)⟩ := by
    unfold PathWalker.Follows
    decide
  have hwalk : ∀ k ≤ 9, Walk ((var_walker (calls_star 1) none).Follows call_chain_of_ten .Forward) k
      ⟨0⟩ ⟨Nat.toUInt32 k⟩ := by
    intro k
    induction k with
    | zero => exact fun _ => Walk.zero_iff.mpr rfl
    | succ k ih => exact fun hk => Walk.succ_iff.mpr ⟨_, ih (Nat.le_of_succ_le hk), hhops k hk⟩
  obtain ⟨s, hs, _, hanchor, hpeer⟩ := (hevery .empty ⟨0⟩ ⟨9⟩).mpr
    ⟨List.mem_singleton_self _, by decide, by decide, 9, by decide, hwalk 9 (le_refl 9)⟩
  have hout : (expand_pattern call_chain_of_ten (calls_star 1) [.empty] none).out.all
      (fun s => s.anchor ≠ ⟨0⟩ ∨ s.peer ≠ ⟨9⟩) = true := by decide
  have hne := List.all_eq_true.mp hout s hs
  simp [hanchor, hpeer] at hne

end cgx.cql
