import Cgx.Cql.Joins

open cgx.core cgx.query walks

namespace cgx.cql

/-- An edge leads from `x` to `y` in the direction `dir`. -/
def Leads (view : GraphView) (dir : Direction) (x y : NodeId) : Prop :=
  ∃ edge ∈ view.edges, dir.origin edge = x ∧ dir.peer edge = y

/-- A path runs from the node `start` along the arrows to the node `finish`, and the path
functions read it so. -/
structure RunsAsWritten (engine : SelectorEngine) (view : GraphView) (dir : Direction)
    (start finish : NodeId) (path : PathValue) : Prop where
  starts : path.nodes.head? = some start
  ends : path.nodes.getLast? = some finish
  arrows : ∀ i (h : i < path.edges.length), ∃ edge ∈ view.edges, edge.id = path.edges[i] ∧
    path.nodes[i]? = some (dir.origin edge) ∧ path.nodes[i + 1]? = some (dir.peer edge)
  last_node : ∀ span, eval_function engine view ⟨"last_node", span⟩ [.ok (.Path path)] = .ok (.Node finish)
  position_in : ∀ span, ∀ n ∈ path.nodes, ∃ i : Nat,
    eval_function engine view ⟨"position_in", span⟩ [.ok (.Node n), .ok (.Path path)] = .ok (.Int i) ∧
      Walk (Leads view dir) i start n

/-- The hops from the anchor to a goal that a pattern with a path variable records. -/
def PathHops (view : GraphView) (plan : PatternPlan) (anchor goal : NodeId) (hops : List EdgeRef) : Prop :=
  match plan.cardinality with
  | .SingleHop => ∃ er ∈ view.neighbors anchor plan.direction plan.filter,
      peer_matches view plan er.peer = true ∧ goal = er.peer ∧ hops = [er]
  | .VarLength min max => goal ∈ peer_goal_ids view plan ∧
      PathWalker.IsTrail (var_walker plan max) view plan.direction anchor goal hops ∧
      PathWalker.FirstArrival goal hops ∧ min.toNat ≤ hops.length

/-- No hop the pattern records leaves the anchor. -/
def StaysPut (view : GraphView) (plan : PatternPlan) (anchor : NodeId) : Prop :=
  ∀ goal hops, PathHops view plan anchor goal hops → ∀ er ∈ hops, er.peer = anchor

/-- The path value of hops from an anchor. -/
def path_value (anchor : NodeId) (hops : List EdgeRef) : PathValue :=
  ⟨anchor :: hops.map EdgeRef.peer, PathWalker.hop_ids hops⟩

/-- Each hop takes an edge of the graph from the node before it to the node after it. -/
inductive Chained (view : GraphView) (dir : Direction) : NodeId → List EdgeRef → Prop
  | nil (x : NodeId) : Chained view dir x []
  | cons {x : NodeId} {er : EdgeRef} {rest : List EdgeRef} (hmem : er.edge ∈ view.edges)
      (horigin : dir.origin er.edge = x) (hpeer : dir.peer er.edge = er.peer)
      (hrest : Chained view dir er.peer rest) : Chained view dir x (er :: rest)

section chained

variable {engine : SelectorEngine} {view : GraphView} {dir : Direction} {plan : PatternPlan}
  {anchor goal : NodeId} {hops : List EdgeRef}

theorem chained_of_hops {walker : PathWalker} {x : NodeId} (h : walker.Hops view dir x hops) :
    Chained view dir x hops := by
  induction hops generalizing x with
  | nil => exact .nil x
  | cons er rest ih =>
    obtain ⟨her, _, hrest⟩ := h
    obtain ⟨hmem, horigin, hpeer, _⟩ := GraphView.mem_neighbors.mp her
    exact .cons hmem horigin hpeer.symm (ih hrest)

theorem PathHops.chained (h : PathHops view plan anchor goal hops) :
    Chained view plan.direction anchor hops ∧ PathWalker.arrives anchor hops = goal ∧ hops ≠ [] := by
  unfold PathHops at h
  cases hcard : plan.cardinality with
  | SingleHop =>
    simp only [hcard] at h
    obtain ⟨er, her, _, rfl, rfl⟩ := h
    obtain ⟨hmem, horigin, hpeer, _⟩ := GraphView.mem_neighbors.mp her
    exact ⟨.cons hmem horigin hpeer.symm (.nil _), rfl, List.cons_ne_nil _ _⟩
  | VarLength min max =>
    simp only [hcard] at h
    obtain ⟨_, htrail, _, _⟩ := h
    exact ⟨chained_of_hops htrail.follows, htrail.arrives, htrail.nonempty⟩

/-- With a path variable, an anchor contributes the hops the pattern records. -/
theorem emits_path_iff {base : Binding} (hpath : plan.path_var.isSome = true) {path : PathValue} :
    (∃ s, Emits view plan base anchor s ∧ s.peer = goal ∧ s.path = some path) ↔
      ∃ hops, PathHops view plan anchor goal hops ∧ path = path_value anchor hops := by
  unfold PathHops
  constructor
  · rintro ⟨s, hs, rfl, hvalue⟩
    cases hs with
    | hop hcard her hpeer =>
      simp only [hcard]
      exact ⟨_, ⟨_, her, hpeer, rfl, rfl⟩, (Option.some.inj hvalue).symm⟩
    | trail hcard _ hgoal htrail hfirst hmin =>
      simp only [hcard]
      exact ⟨_, ⟨hgoal, htrail, hfirst, hmin⟩, (Option.some.inj hvalue).symm⟩
    | peer _ hnopath => simp [hpath] at hnopath
  · rintro ⟨hops, hhops, rfl⟩
    cases hcard : plan.cardinality with
    | SingleHop =>
      simp only [hcard] at hhops
      obtain ⟨er, her, hpeer, rfl, rfl⟩ := hhops
      exact ⟨_, .hop hcard her hpeer, rfl, rfl⟩
    | VarLength min max =>
      simp only [hcard] at hhops
      obtain ⟨hgoal, htrail, hfirst, hmin⟩ := hhops
      exact ⟨_, .trail hcard hpath hgoal htrail hfirst hmin, rfl, rfl⟩

theorem getLast?_path_value (x : NodeId) (hops : List EdgeRef) :
    (path_value x hops).nodes.getLast? = some (PathWalker.arrives x hops) := by
  unfold path_value
  simp only []
  induction hops generalizing x with
  | nil => rfl
  | cons er rest ih =>
    rw [List.map_cons, List.getLast?_cons_cons, ih er.peer]
    rfl

/-- What the hops of a chain take, the path value holds at their places. -/
theorem Chained.arrows {x : NodeId} (h : Chained view dir x hops) :
    ∀ i (hi : i < (path_value x hops).edges.length), ∃ edge ∈ view.edges,
      edge.id = (path_value x hops).edges[i] ∧ (path_value x hops).nodes[i]? = some (dir.origin edge) ∧
        (path_value x hops).nodes[i + 1]? = some (dir.peer edge) := by
  induction h with
  | nil => simp [path_value, PathWalker.hop_ids]
  | @cons x er rest hmem horigin hpeer hrest ih =>
    intro i hi
    cases i with
    | zero => exact ⟨er.edge, hmem, rfl, by simp [path_value, horigin], by simp [path_value, hpeer]⟩
    | succ i => exact ih i (Nat.lt_of_succ_lt_succ hi)

/-- A path that runs along the arrows is read so by the path functions. -/
theorem RunsAsWritten.of_arrows {start finish : NodeId} {path : PathValue}
    (hstarts : path.nodes.head? = some start) (hends : path.nodes.getLast? = some finish)
    (hlength : path.nodes.length = path.edges.length + 1)
    (harrows : ∀ i (h : i < path.edges.length), ∃ edge ∈ view.edges, edge.id = path.edges[i] ∧
      path.nodes[i]? = some (dir.origin edge) ∧ path.nodes[i + 1]? = some (dir.peer edge)) :
    RunsAsWritten engine view dir start finish path where
  starts := hstarts
  ends := hends
  arrows := harrows
  last_node span := by
    simp [eval_function, expect_path_arg, hends, bind, Except.bind, pure, Except.pure]
  position_in span n hn := by
    have hwalk : ∀ i m, path.nodes[i]? = some m → Walk (Leads view dir) i start m := by
      intro i
      induction i with
      | zero =>
        intro m hm
        rw [List.head?_eq_getElem?, hm, Option.some.injEq] at hstarts
        exact hstarts ▸ .refl m
      | succ i ih =>
        intro m hm
        obtain ⟨hlt, _⟩ := List.getElem?_eq_some_iff.mp hm
        obtain ⟨edge, hedge, _, horigin, hpeer⟩ := harrows i (by omega)
        rw [hm, Option.some.injEq] at hpeer
        exact .snoc (ih _ horigin) ⟨edge, hedge, rfl, hpeer.symm⟩
    obtain ⟨i, hi⟩ : ∃ i, path.nodes.idxOf? n = some i := by
      cases hidx : path.nodes.idxOf? n with
      | none => exact absurd hn (List.idxOf?_eq_none_iff.mp hidx)
      | some i => exact ⟨i, rfl⟩
    refine ⟨i, ?_, hwalk i n ?_⟩
    · simp [eval_function, eval_position_in, expect_path, hi, bind, Except.bind, pure, Except.pure]
    · obtain ⟨hlt, heq, _⟩ := List.idxOf?_eq_some_iff.mp hi
      rw [List.getElem?_eq_getElem hlt, heq]

/-- A path recorded from the written start runs as written. -/
theorem PathHops.runs_as_written (h : PathHops view plan anchor goal hops) :
    RunsAsWritten engine view plan.direction anchor goal (path_value anchor hops) := by
  obtain ⟨hchained, harrives, _⟩ := h.chained
  refine .of_arrows rfl ?_ ?_ hchained.arrows
  · rw [getLast?_path_value, harrives]
  · simp [path_value, PathWalker.hop_ids]

/-- Hops that never leave the anchor read the same from either end. -/
theorem PathHops.runs_backwards (h : PathHops view plan anchor goal hops)
    (hstays : ∀ er ∈ hops, er.peer = anchor) :
    RunsAsWritten engine view plan.direction.reverse goal anchor (path_value anchor hops) := by
  obtain ⟨hchained, harrives, _⟩ := h.chained
  have hnodes : ∀ n ∈ (path_value anchor hops).nodes, n = anchor := by
    intro n hn
    obtain rfl | hn := List.mem_cons.mp hn
    · rfl
    · obtain ⟨er, her, rfl⟩ := List.mem_map.mp hn
      exact hstays er her
  have hgoal : goal = anchor := by
    rw [← harrives]
    exact hnodes _ (List.mem_of_getLast? (getLast?_path_value anchor hops))
  refine .of_arrows (by rw [hgoal]; rfl) ?_ ?_ fun i hi => ?_
  · rw [getLast?_path_value, harrives, hgoal]
  · simp [path_value, PathWalker.hop_ids]
  · obtain ⟨edge, hedge, hid, horigin, hpeer⟩ := hchained.arrows i hi
    have hsame : plan.direction.origin edge = plan.direction.peer edge :=
      (hnodes _ (List.mem_of_getElem? horigin)).trans (hnodes _ (List.mem_of_getElem? hpeer)).symm
    refine ⟨edge, hedge, hid, ?_, ?_⟩
    · rw [horigin, hsame]
      cases plan.direction <;> rfl
    · rw [hpeer, ← hsame]
      cases plan.direction <;> rfl

/-- Where edge ids are distinct, hops that read the same from either end never leave the
anchor. -/
theorem PathHops.stays_of_backwards (h : PathHops view plan anchor goal hops)
    (hids : ∀ e ∈ view.edges, ∀ e' ∈ view.edges, e.id = e'.id → e = e')
    (hruns : RunsAsWritten engine view plan.direction.reverse goal anchor (path_value anchor hops)) :
    ∀ er ∈ hops, er.peer = anchor := by
  obtain ⟨hchained, _, _⟩ := h.chained
  have hnext : ∀ i, i < (path_value anchor hops).edges.length →
      (path_value anchor hops).nodes[i + 1]? = (path_value anchor hops).nodes[i]? := by
    intro i hi
    obtain ⟨edge, hedge, hid, horigin, hpeer⟩ := hchained.arrows i hi
    obtain ⟨edge', hedge', hid', horigin', _⟩ := hruns.arrows i hi
    have hsame := hids edge hedge edge' hedge' (hid.trans hid'.symm)
    subst hsame
    rw [hpeer, horigin']
    cases plan.direction <;> rfl
  have hall : ∀ i, i ≤ (path_value anchor hops).edges.length →
      (path_value anchor hops).nodes[i]? = some anchor := by
    intro i
    induction i with
    | zero => exact fun _ => rfl
    | succ i ih =>
      intro hi
      rw [hnext i (by omega)]
      exact ih (by omega)
  intro er her
  obtain ⟨i, hi, rfl⟩ := List.getElem_of_mem her
  have hat := hall (i + 1) (by simpa [path_value, PathWalker.hop_ids] using Nat.succ_le_of_lt hi)
  simpa [path_value, hi] using hat

end chained

/-- The path of every solution runs from the written start along the arrows to the
written end. -/
def AllRunAsWritten (engine : SelectorEngine) (view : GraphView) (plan : PatternPlan) (path_var : String)
    (dir : Direction) (start finish : NodeConstraints) (out : List Solution) : Prop :=
  ∀ s ∈ out, ∃ path, (s.bind plan).get path_var = some (.Path path) ∧
    RunsAsWritten engine view dir (written_ends start finish s).1 (written_ends start finish s).2 path

section orientation

variable {engine : SelectorEngine} {view : GraphView} {start_c finish_c : NodeConstraints}

/-- A lowered relationship is walked along its arrow from the written start, and against
it from the written end. -/
theorem lower_single_direction {path_var : Option String} {start finish : NodePat} {rel : RelPat}
    {plan : PatternPlan} {filter : EdgeFilter} {invert : Bool}
    (hstart : node_constraints start = .ok start_c) (hfinish : node_constraints finish = .ok finish_c)
    (hrel : rel_filter rel = .ok (filter, invert))
    (hlower : lower_single path_var start rel finish = .ok plan) :
    plan.direction = if anchors_start start_c finish_c then walk_direction rel.direction invert
      else (walk_direction rel.direction invert).reverse := by
  simp only [lower_single, hstart, hfinish, hrel, bind, Except.bind] at hlower
  unfold anchors_start
  split at hlower
  · rename_i hle
    cases hlower
    simp [hle]
  · rename_i hle
    cases hlower
    simp [hle]

/-- A solution of a pattern with a path variable binds it to the path of its hops. -/
theorem Emits.path_hops {plan : PatternPlan} {base : Binding} {anchor : NodeId} {s : Solution}
    (hemit : Emits view plan base anchor s) {p : String} (hpath : plan.path_var = some p) :
    ∃ hops, PathHops view plan anchor s.peer hops ∧
      (s.bind plan).get p = some (.Path (path_value anchor hops)) := by
  have hsome : plan.path_var.isSome = true := by rw [hpath]; rfl
  obtain ⟨path, hvalue⟩ : ∃ path, s.path = some path := by
    cases hemit with
    | hop => exact ⟨_, rfl⟩
    | trail => exact ⟨_, rfl⟩
    | peer _ hnopath => simp [hsome] at hnopath
  obtain ⟨hops, hhops, rfl⟩ := (emits_path_iff hsome).mp ⟨s, hemit, rfl, hvalue⟩
  refine ⟨hops, hhops, ?_⟩
  rw [Solution.bind, hpath, hvalue]
  exact Binding.get_insert_self _ _ _

/-- The paths of a pattern run as written when it is anchored on its written start, or
when no anchored node is left; a run that is not cut short needs no less. -/
theorem path_runs_as_written_iff {pat : PathPattern} {p : String} {rel : RelPat} {finish : NodePat}
    {plan : PatternPlan} {filter : EdgeFilter} {invert : Bool}
    (hvar : pat.path_var = some p) (hsteps : pat.steps = [(rel, finish)])
    (hstart : node_constraints pat.start = .ok start_c) (hfinish : node_constraints finish = .ok finish_c)
    (hrel : rel_filter rel = .ok (filter, invert)) (hlower : lower_pattern_chain pat = .ok [plan])
    (input : List Binding) (truncation : Option TruncationReason) :
    ((anchors_start start_c finish_c = true ∨
        ∀ base ∈ input, ∀ anchor ∈ step_anchors view plan base, StaysPut view plan anchor) →
      AllRunAsWritten engine view plan p (walk_direction rel.direction invert) start_c finish_c
        (expand_pattern view plan input truncation).out) ∧
    ((∀ e ∈ view.edges, ∀ e' ∈ view.edges, e.id = e'.id → e = e') →
      (expand_pattern view plan input truncation).truncation = none →
      AllRunAsWritten engine view plan p (walk_direction rel.direction invert) start_c finish_c
        (expand_pattern view plan input truncation).out →
      anchors_start start_c finish_c = true ∨
        ∀ base ∈ input, ∀ anchor ∈ step_anchors view plan base, StaysPut view plan anchor) := by
  have hsingle : lower_single (some p) pat.start rel finish = .ok plan := by
    rw [lower_pattern_chain_single hsteps, hvar] at hlower
    cases hcase : lower_single (some p) pat.start rel finish with
    | error e => simp [hcase, Except.map] at hlower
    | ok plan' =>
      simp only [hcase, Except.map, Except.ok.injEq, List.cons.injEq, and_true] at hlower
      rw [hlower]
  obtain ⟨_, hpath, _⟩ := lower_single_ok hstart hfinish hsingle
  have hdir := lower_single_direction hstart hfinish hrel hsingle
  constructor
  · intro hcondition s hs
    obtain ⟨base, hbase, anchor, hanchor, hemit⟩ := expand_pattern_sound hs
    obtain ⟨hops, hhops, hget⟩ := hemit.path_hops hpath
    refine ⟨_, hget, ?_⟩
    unfold written_ends
    rw [hemit.base_anchor.2]
    by_cases hfirst : anchors_start start_c finish_c = true
    · rw [if_pos hfirst] at hdir ⊢
      rw [← hdir]
      exact hhops.runs_as_written
    · rw [if_neg hfirst] at hdir ⊢
      have hback : walk_direction rel.direction invert = plan.direction.reverse := by
        rw [hdir]
        cases walk_direction rel.direction invert <;> rfl
      rw [hback]
      exact hhops.runs_backwards (hcondition.resolve_left hfirst base hbase anchor hanchor _ _ hhops)
  · intro hids hnone hall
    by_cases hfirst : anchors_start start_c finish_c = true
    · exact .inl hfirst
    · right
      intro base hbase anchor hanchor goal hops hhops
      have hsome : plan.path_var.isSome = true := by rw [hpath]; rfl
      obtain ⟨s, hemit, hpeer, hvalue⟩ := (emits_path_iff hsome).mpr ⟨hops, hhops, rfl⟩
      obtain ⟨path, hget, hruns⟩ :=
        hall s (expand_pattern_complete hnone ⟨base, hbase, anchor, hanchor, hemit⟩)
      have hsame : path = path_value anchor hops := by
        rw [Solution.bind, hpath, hvalue] at hget
        simpa [bind_optional] using hget.symm
      rw [if_neg hfirst] at hdir
      have hback : walk_direction rel.direction invert = plan.direction.reverse := by
        rw [hdir]
        cases walk_direction rel.direction invert <;> rfl
      unfold written_ends at hruns
      rw [if_neg hfirst, hsame, hback, hpeer, hemit.base_anchor.2] at hruns
      exact hhops.stays_of_backwards hids hruns

end orientation

/-- `p = (a {name: start})-[:CALLS]->(b {name: finish})`, the names left out when empty. -/
def path_between (start finish : String) : PathPattern where
  path_var := some "p"
  start := ⟨some "a", none, if start = "" then [] else [⟨⟨"name", ⟨0, 0⟩⟩, .Str start⟩]⟩
  steps := [(⟨none, .Forward, [⟨"CALLS", ⟨0, 0⟩⟩], none, []⟩,
    ⟨some "b", none, if finish = "" then [] else [⟨⟨"name", ⟨0, 0⟩⟩, .Str finish⟩]⟩)]

/-- The plan of `path_between "main" ""`. -/
def path_from_main : PatternPlan where
  path_var := some "p"
  anchor_bound_var := none
  anchor_var := some "a"
  peer_var := some "b"
  rel_var := none
  anchor := .Symbol (name_pattern "main")
  direction := .Forward
  filter := { EdgeFilter.calls with
    kinds := some [.Calls, .CallsVirtual, .CallsClosure, .CallsCallback, .CallsAsync, .CallsIndirect] }
  cardinality := .SingleHop
  peer_kinds := none
  peer_props := []

/-- The plan of `path_between "" "helper"`: it is anchored on the written end. -/
def path_to_helper : PatternPlan where
  __ := path_from_main
  anchor_var := some "b"
  peer_var := some "a"
  anchor := .Symbol (name_pattern "helper")
  direction := .Backward

theorem path_runs_as_written_from_main :
    (expand_pattern call_pair path_from_main [Binding.empty] none).out.length = 1 ∧
      AllRunAsWritten no_selectors call_pair path_from_main "p" .Forward ([⟨.Fqn, .Str "main"⟩], none)
        ([], none) (expand_pattern call_pair path_from_main [Binding.empty] none).out := by
  have hpattern : (path_between "main" "").steps = [_] := rfl
  have hlower : lower_pattern_chain (path_between "main" "") = .ok [path_from_main] := rfl
  refine ⟨by decide, ?_⟩
  exact (path_runs_as_written_iff rfl hpattern rfl rfl rfl hlower [Binding.empty] none).1 (.inl rfl)

/-- `p = (a)-[:CALLS]->(b {name: "helper"})` runs from `helper` to `main`. -/
theorem path_to_helper_runs_backwards :
    lower_pattern_chain (path_between "" "helper") = .ok [path_to_helper] ∧
      ¬ AllRunAsWritten no_selectors call_pair path_to_helper "p" .Forward ([], none)
        ([⟨.Fqn, .Str "helper"⟩], none)
        (expand_pattern call_pair path_to_helper [Binding.empty] none).out := by
  refine ⟨rfl, fun hall => ?_⟩
  obtain ⟨path, hget, hruns⟩ := hall _ (List.mem_of_getElem? (i := 0) rfl)
  have hstart := hruns.starts
  cases hget
  exact absurd hstart (by decide)

end cgx.cql
