import Cgx.Cql.Eval
import Cgx.Cql.Paths
import Cgx.Lib.Result

open cgx.core cgx.query results

namespace cgx.cql

/-- Static type of a bound variable. -/
inductive VarType where
  | Node
  | Edge
  | Path
deriving DecidableEq

/-- The static types of the variables in scope. -/
abbrev VarTypes := String → Option VarType

namespace VarTypes

def empty : VarTypes :=
  fun _ => none

def set (types : VarTypes) (var : String) (ty : Option VarType) : VarTypes :=
  fun name => if name = var then ty else types name

def set_optional (types : VarTypes) (var : Option String) (ty : VarType) : VarTypes :=
  match var with
  | some var => types.set var (some ty)
  | none => types

/-- Record the variables a plan binds. -/
def record (types : VarTypes) (plan : PatternPlan) : VarTypes :=
  (((types.set_optional plan.anchor_var .Node).set_optional plan.peer_var .Node).set_optional
    plan.rel_var .Edge).set_optional plan.path_var .Path

end VarTypes

/-- The element type of a list expression, where it is known statically. -/
def element_type : Expr → Option VarType
  | .FunctionCall name _ =>
    if name.value = "relationships" then some .Edge
    else if name.value = "nodes" then some .Node
    else none
  | _ => none

/-- A property access references a backed field of its variable's type. -/
def validate_property (types : VarTypes) (head : Spanned String) :
    List (Spanned String) → Except CqlError Unit
  | [] => .ok ()
  | [prop] =>
    match types head.value with
    | some .Node => do
      let _ ← NodeField.from_name prop.value prop.span
    | some .Edge => do
      let _ ← EdgeField.from_name prop.value prop.span
    | _ => .ok ()
  | _ :: second :: _ =>
    .error (.plan second.span "nested property access is not supported (e.g. `n.in_degree.calls`)")

mutual

/-- Every property access of the expression is backed. No graph data is read. -/
def validate_expr (expr : Expr) (types : VarTypes) : Except CqlError Unit :=
  match expr with
  | .Literal _ => .ok ()
  | .Property head segments => validate_property types head segments
  | .Not inner => validate_expr inner types
  | .Binary _ lhs rhs _ => do
    validate_expr lhs types
    validate_expr rhs types
  | .FunctionCall _ args => validate_args args types
  | .ListComp var list filter projection => do
    validate_expr list types
    validate_filter filter (types.set var (element_type list))
    validate_expr projection (types.set var (element_type list))
  | .Quantifier _ var list predicate => do
    validate_expr list types
    validate_expr predicate (types.set var (element_type list))
  | .PatternPredicate _ _ => .ok ()

def validate_args (args : List Expr) (types : VarTypes) : Except CqlError Unit :=
  match args with
  | [] => .ok ()
  | arg :: rest => do
    validate_expr arg types
    validate_args rest types

def validate_filter (filter : Option Expr) (types : VarTypes) : Except CqlError Unit :=
  match filter with
  | none => .ok ()
  | some f => validate_expr f types

end

/-- A reading clause with the plans of its patterns. -/
inductive LoweredClause where
  | Match (clause : MatchClause) (plans : List PatternPlan)
  | Call (clause : CallClause)

def LoweredClause.plans : LoweredClause → List PatternPlan
  | .Match _ plans => plans
  | .Call _ => []

def LoweredClause.where_clause : LoweredClause → Option Expr
  | .Match clause _ => clause.where_clause
  | .Call clause => clause.where_clause

def lower_patterns : List PathPattern → Except CqlError (List PatternPlan)
  | [] => .ok []
  | pat :: rest => do
    let plans ← lower_pattern_chain pat
    return plans ++ (← lower_patterns rest)

/-- Lower the patterns of every `MATCH` and validate every `CALL`, in order. -/
def lower_reading : List ReadingClause → Except CqlError (List LoweredClause)
  | [] => .ok []
  | .Match clause :: rest => do
    let plans ← lower_patterns clause.patterns
    return .Match clause plans :: (← lower_reading rest)
  | .Call clause :: rest => do
    validate_call clause
    return .Call clause :: (← lower_reading rest)

/-- The typing map of a part's reading clauses. -/
def reading_types (clauses : List LoweredClause) : VarTypes :=
  (clauses.flatMap LoweredClause.plans).foldl VarTypes.record .empty

/-- The expressions a part validates, in order: the reading clauses' filters, then its
`RETURN` and its `WITH`. -/
def validated_exprs (part : QueryPart) (clauses : List LoweredClause) : List Expr :=
  clauses.filterMap LoweredClause.where_clause ++
    (match part.ret with
      | some ret => ret.items.map ReturnItem.expr ++ ret.order_by.map OrderBy.expr
      | none => []) ++
    (match part.carry with
      | some carry => carry.items.map ReturnItem.expr ++ carry.where_clause.toList
      | none => [])

section eval_reading

variable (engine : SelectorEngine) (view : GraphView)

/-- Expand a stream by the plans of one clause, left to right. -/
def expand_plans : List PatternPlan → List Binding → Option TruncationReason →
    List Binding × Option TruncationReason
  | [], stream, truncation => (stream, truncation)
  | plan :: rest, stream, truncation =>
    let acc := expand_pattern view plan stream truncation
    expand_plans rest (acc.out.map (Solution.bind plan)) acc.truncation

/-- Apply one `MATCH` clause: expand by its patterns, then filter. -/
def eval_match (clause : MatchClause) (plans : List PatternPlan) (input : List Binding)
    (truncation : Option TruncationReason) :
    Except CqlError (List Binding × Option TruncationReason) := do
  let expanded := expand_plans view plans input truncation
  return (← filter_where engine view clause.where_clause expanded.1, expanded.2)

/-- Run lowered reading clauses in order. -/
def run_clauses : List LoweredClause → List Binding → Option TruncationReason →
    Except CqlError (List Binding × Option TruncationReason)
  | [], bindings, truncation => .ok (bindings, truncation)
  | .Match clause plans :: rest, bindings, truncation => do
    let (bindings, truncation) ← eval_match engine view clause plans bindings truncation
    run_clauses rest bindings truncation
  | .Call clause :: rest, bindings, truncation => do
    run_clauses rest (← eval_call engine view clause bindings) truncation

/-- Lower, validate and run the reading clauses of one part. -/
def eval_reading (part : QueryPart) (input : List Binding) (truncation : Option TruncationReason) :
    Except CqlError (List Binding × Option TruncationReason) := do
  let clauses ← lower_reading part.reading
  validate_args (validated_exprs part clauses) (reading_types clauses)
  run_clauses engine view clauses input truncation

end eval_reading

/-- What a part does to its bindings, one step after the other. -/
inductive Step where
  | Pattern (plan : PatternPlan)
  | Call (clause : CallClause)

def LoweredClause.steps : LoweredClause → List Step
  | .Match _ plans => plans.map .Pattern
  | .Call clause => [.Call clause]

/-- The relationship variable a plan binds: only a single hop has one relationship. -/
def PatternPlan.bound_rel (plan : PatternPlan) : Option String :=
  match plan.cardinality with
  | .SingleHop => plan.rel_var
  | .VarLength _ _ => none

/-- The anchor variable a plan gives a value; a step that continues a chain gives its
join variable the value it has. -/
def PatternPlan.bound_anchor (plan : PatternPlan) : Option String :=
  if plan.anchor_bound_var = plan.anchor_var then none else plan.anchor_var

/-- The variables a step assigns. -/
def Step.assigns : Step → List String
  | .Pattern plan => plan.bound_anchor.toList ++ plan.peer_var.toList ++ plan.bound_rel.toList ++
      plan.path_var.toList
  | .Call clause => clause.yields.map YieldItem.key

/-- One step extends a binding: by a solution of its pattern, or by a yielded row. -/
inductive Extends (view : GraphView) : Step → Binding → Binding → Prop
  | pattern {plan : PatternPlan} {base : Binding} {anchor : NodeId} {s : Solution}
      (hanchor : anchor ∈ step_anchors view plan base) (hemit : Emits view plan base anchor s) :
      Extends view (.Pattern plan) base (s.bind plan)
  | call {clause : CallClause} {base : Binding} (plan : ProcPlan) (fqn conf : String) :
      Extends view (.Call clause) base (bind_yields base clause plan fqn conf)

/-- A binding goes through the steps in order. -/
inductive Runs (view : GraphView) : List Step → Binding → Binding → Prop
  | done (b : Binding) : Runs view [] b b
  | step {first : Step} {rest : List Step} {base mid b : Binding} (hfirst : Extends view first base mid)
      (hrest : Runs view rest mid b) : Runs view (first :: rest) base b

/-- The pattern holds under a binding: its end variables are bound to nodes it joins. -/
def Holds (view : GraphView) (plan : PatternPlan) (b : Binding) : Prop :=
  ∃ x y, (∀ v ∈ plan.anchor_var, b.get v = some (.Node x)) ∧
    (∀ v ∈ plan.peer_var, b.get v = some (.Node y)) ∧ Joined view plan x y

/-- The end variables of a pattern are distinct from each other, from its relationship
and path variables, and from whatever the steps after it assign. -/
structure Settled (plan : PatternPlan) (after : List Step) : Prop where
  ends_distinct : ∀ v ∈ plan.anchor_var, v ∉ plan.peer_var
  not_rel : ∀ v, v ∈ plan.anchor_var ∨ v ∈ plan.peer_var → v ∉ plan.bound_rel
  not_path : ∀ v, v ∈ plan.anchor_var ∨ v ∈ plan.peer_var → v ∉ plan.path_var
  not_assigned : ∀ v, v ∈ plan.anchor_var ∨ v ∈ plan.peer_var → ∀ step ∈ after, v ∉ step.assigns

section steps

variable {view : GraphView}

theorem Runs.append {before after : List Step} {base mid b : Binding} (hbefore : Runs view before base mid)
    (hafter : Runs view after mid b) : Runs view (before ++ after) base b := by
  induction hbefore with
  | done => exact hafter
  | step hfirst _ ih => exact .step hfirst (ih hafter)

theorem Runs.split {before after : List Step} {base b : Binding} (h : Runs view (before ++ after) base b) :
    ∃ mid, Runs view before base mid ∧ Runs view after mid b := by
  induction before generalizing base with
  | nil => exact ⟨base, .done base, h⟩
  | cons first rest ih =>
    cases h with
    | step hfirst hrest =>
      obtain ⟨mid, hmid, hafter⟩ := ih hrest
      exact ⟨mid, .step hfirst hmid, hafter⟩

/-- A solution binds its relationship variable only for a single hop. -/
theorem Emits.rel_eq_none {plan : PatternPlan} {base : Binding} {anchor : NodeId} {s : Solution}
    (h : Emits view plan base anchor s) {v : String} (hrel : v ∉ plan.bound_rel) (hv : v ∈ plan.rel_var) :
    s.rel = none := by
  cases h with
  | hop hcard =>
    rw [PatternPlan.bound_rel, hcard] at hrel
    exact absurd hv hrel
  | trail | peer => rfl

/-- What a solution makes of a variable other than its relationship and its path. -/
private theorem get_solution_bind {plan : PatternPlan} {base : Binding} {anchor : NodeId} {s : Solution}
    (hemit : Emits view plan base anchor s) {v : String} (hrel : v ∉ plan.bound_rel) (hpath : v ∉ plan.path_var) :
    (s.bind plan).get v = (bind_node (bind_node base plan.anchor_var anchor) plan.peer_var s.peer).get v := by
  obtain ⟨hbase, hanchor⟩ := hemit.base_anchor
  rw [Solution.bind, get_bind_optional fun hv => absurd hv hpath,
    get_bind_optional fun hv => by rw [hemit.rel_eq_none hrel hv]; rfl, hbase, hanchor]

private theorem get_bind_yields {clause : CallClause} {base : Binding} {plan : ProcPlan} {fqn conf v : String}
    (hv : v ∉ clause.yields.map YieldItem.key) : (bind_yields base clause plan fqn conf).get v = base.get v := by
  rw [bind_yields]
  revert hv
  induction clause.yields generalizing base with
  | nil => exact fun _ => rfl
  | cons y rest ih =>
    intro hv
    rw [List.map_cons, List.mem_cons, not_or] at hv
    rw [List.foldl_cons, ih hv.2]
    exact Binding.get_insert_ne base _ hv.1

/-- A step leaves every variable alone that it does not assign. -/
theorem Extends.get_of_not_assigned {step : Step} {base b : Binding} (h : Extends view step base b) {v : String}
    (hv : v ∉ step.assigns) : b.get v = base.get v := by
  cases h with
  | @pattern plan _ anchor s hanchor hemit =>
    simp only [Step.assigns, List.mem_append, Option.mem_toList, not_or] at hv
    obtain ⟨⟨⟨hbound, hpeer⟩, hrel⟩, hpath⟩ := hv
    rw [get_solution_bind hemit hrel hpath, get_bind_node hpeer]
    by_cases hjoin : v ∈ plan.anchor_var
    · -- the step anchors on the value its join variable has
      have hsame : plan.anchor_bound_var = plan.anchor_var := by
        by_contra hne
        rw [PatternPlan.bound_anchor, if_neg hne] at hbound
        exact hbound hjoin
      have hnode : base.node v = some anchor := by
        rw [Option.mem_def] at hjoin
        rw [step_anchors, hsame, hjoin] at hanchor
        simpa using hanchor
      rw [get_bind_node_self hjoin]
      simp only [Binding.node] at hnode
      split at hnode
      · rename_i id hget
        rw [hget, Option.some.inj hnode]
      · simp at hnode
    · exact get_bind_node hjoin
  | call plan fqn conf => exact get_bind_yields hv

/-- A run leaves every variable alone that none of its steps assigns. -/
theorem Runs.get_of_not_assigned {steps : List Step} {base b : Binding} (h : Runs view steps base b) {v : String}
    (hv : ∀ step ∈ steps, v ∉ step.assigns) : b.get v = base.get v := by
  induction h with
  | done => rfl
  | step hfirst _ ih =>
    rw [ih fun step hstep => hv step (List.mem_cons_of_mem _ hstep),
      hfirst.get_of_not_assigned (hv _ List.mem_cons_self)]

/-- Right after its step, a pattern with distinct variables holds. -/
theorem Extends.holds {plan : PatternPlan} {base b : Binding} (h : Extends view (.Pattern plan) base b)
    {after : List Step} (hsettled : Settled plan after) : Holds view plan b := by
  cases h with
  | @pattern _ _ anchor s _ hemit =>
    have hjoined := ((exists_emits_iff plan base).mp ⟨s, hemit, rfl⟩).1
    refine ⟨anchor, s.peer, ?_, ?_, hjoined⟩
    · intro v hv
      rw [get_solution_bind hemit (hsettled.not_rel v (.inl hv)) (hsettled.not_path v (.inl hv)),
        get_bind_node (hsettled.ends_distinct v hv), get_bind_node_self hv]
    · intro v hv
      rw [get_solution_bind hemit (hsettled.not_rel v (.inr hv)) (hsettled.not_path v (.inr hv)),
        get_bind_node_self hv]

/-- A settled pattern of a run holds at its end. -/
theorem Runs.holds {before after : List Step} {plan : PatternPlan} {base b : Binding}
    (h : Runs view (before ++ .Pattern plan :: after) base b) (hsettled : Settled plan after) :
    Holds view plan b := by
  obtain ⟨mid, _, hrun⟩ := h.split
  cases hrun with
  | step hfirst hrest =>
    obtain ⟨x, y, hx, hy, hjoined⟩ := hfirst.holds hsettled
    refine ⟨x, y, ?_, ?_, hjoined⟩
    · intro v hv
      rw [hrest.get_of_not_assigned (hsettled.not_assigned v (.inl hv)), hx v hv]
    · intro v hv
      rw [hrest.get_of_not_assigned (hsettled.not_assigned v (.inr hv)), hy v hv]

end steps

section reading

variable {engine : SelectorEngine} {view : GraphView}

theorem filter_where_subset {where_clause : Option Expr} {bs kept : List Binding}
    (h : filter_where engine view where_clause bs = .ok kept) : kept ⊆ bs := by
  induction bs generalizing kept with
  | nil =>
    simp only [filter_where, Except.ok.injEq] at h
    rw [← h]
    exact List.Subset.refl _
  | cons b rest ih =>
    simp only [filter_where] at h
    obtain ⟨admitted, _, h⟩ := bind_ok_iff.mp h
    obtain ⟨more, hmore, h⟩ := bind_ok_iff.mp h
    have hrest := List.subset_cons_of_subset b (ih hmore)
    rw [← pure_ok_iff.mp h]
    split
    · exact List.cons_subset.mpr ⟨List.mem_cons_self, hrest⟩
    · exact hrest

theorem mem_expand_plans {plans : List PatternPlan} {input : List Binding}
    {truncation : Option TruncationReason} {b : Binding}
    (hb : b ∈ (expand_plans view plans input truncation).1) :
    ∃ base ∈ input, Runs view (plans.map .Pattern) base b := by
  induction plans generalizing input truncation with
  | nil => exact ⟨b, hb, .done b⟩
  | cons plan rest ih =>
    obtain ⟨mid, hmid, hrun⟩ := ih hb
    obtain ⟨s, hs, hbind⟩ := List.mem_map.mp hmid
    obtain ⟨base, hbase, anchor, hanchor, hemit⟩ := expand_pattern_sound hs
    subst hbind
    exact ⟨base, hbase, .step (.pattern hanchor hemit) hrun⟩

theorem mem_call_from {clause : CallClause} {plan : ProcPlan} {input out : List Binding}
    (h : call_from engine view clause plan input = .ok out) {b : Binding} (hb : b ∈ out) :
    ∃ base ∈ input, Extends view (.Call clause) base b := by
  induction input generalizing out with
  | nil =>
    simp only [call_from, Except.ok.injEq] at h
    simp [← h] at hb
  | cons base rest ih =>
    simp only [call_from] at h
    obtain ⟨anchor_name, _, h⟩ := bind_ok_iff.mp h
    obtain ⟨kept, hkept, h⟩ := bind_ok_iff.mp h
    obtain ⟨more, hmore, h⟩ := bind_ok_iff.mp h
    rw [← pure_ok_iff.mp h] at hb
    obtain hb | hb := List.mem_append.mp hb
    · obtain ⟨row, _, hrow⟩ := List.mem_filterMap.mp (filter_where_subset hkept hb)
      obtain ⟨node, _, hbind⟩ := Option.map_eq_some_iff.mp hrow
      subst hbind
      exact ⟨base, List.mem_cons_self, .call plan node.fqn row.2.2⟩
    · obtain ⟨base', hbase', hextends⟩ := ih hmore hb
      exact ⟨base', List.mem_cons_of_mem base hbase', hextends⟩

theorem mem_eval_call {clause : CallClause} {input out : List Binding}
    (h : eval_call engine view clause input = .ok out) {b : Binding} (hb : b ∈ out) :
    ∃ base ∈ input, Extends view (.Call clause) base b := by
  obtain ⟨plan, _, h⟩ := bind_ok_iff.mp h
  obtain ⟨_, _, h⟩ := bind_ok_iff.mp h
  exact mem_call_from h hb

theorem mem_eval_match {clause : MatchClause} {plans : List PatternPlan} {input out : List Binding}
    {truncation truncation' : Option TruncationReason}
    (h : eval_match engine view clause plans input truncation = .ok (out, truncation')) {b : Binding}
    (hb : b ∈ out) : ∃ base ∈ input, Runs view (plans.map .Pattern) base b := by
  obtain ⟨kept, hkept, h⟩ := bind_ok_iff.mp h
  have hout := congrArg Prod.fst (pure_ok_iff.mp h)
  subst hout
  exact mem_expand_plans (filter_where_subset hkept hb)

/-- Every binding a part's clauses let through ran through all of their steps. -/
theorem mem_run_clauses {clauses : List LoweredClause} {input out : List Binding}
    {truncation truncation' : Option TruncationReason}
    (h : run_clauses engine view clauses input truncation = .ok (out, truncation')) {b : Binding} (hb : b ∈ out) :
    ∃ base ∈ input, Runs view (clauses.flatMap LoweredClause.steps) base b := by
  induction clauses generalizing input truncation with
  | nil =>
    simp only [run_clauses, Except.ok.injEq, Prod.mk.injEq] at h
    rw [← h.1] at hb
    exact ⟨b, hb, .done b⟩
  | cons clause rest ih =>
    rw [List.flatMap_cons]
    cases clause with
    | Match clause plans =>
      simp only [run_clauses] at h
      obtain ⟨⟨stream, truncation⟩, hmatch, h⟩ := bind_ok_iff.mp h
      obtain ⟨mid, hmid, hrest⟩ := ih h
      obtain ⟨base, hbase, hrun⟩ := mem_eval_match hmatch hmid
      exact ⟨base, hbase, hrun.append hrest⟩
    | Call clause =>
      simp only [run_clauses] at h
      obtain ⟨stream, hcall, h⟩ := bind_ok_iff.mp h
      obtain ⟨mid, hmid, hrest⟩ := ih h
      obtain ⟨base, hbase, hextends⟩ := mem_eval_call hcall hmid
      exact ⟨base, hbase, .step hextends hrest⟩

end reading

def calls_rel : RelPat :=
  ⟨none, .Forward, [⟨"CALLS", ⟨0, 0⟩⟩], none, []⟩

def var_node (var : String) : NodePat :=
  ⟨some var, none, []⟩

/-- The plan of `(a)-[:CALLS]->(b)`. -/
def calls_plan (a b : String) : PatternPlan :=
  { callers_plan with
    anchor_var := some a
    peer_var := some b }

/-- A part of `MATCH` clauses of one pattern each. -/
def match_part (patterns : List PathPattern) : QueryPart :=
  ⟨patterns.map fun pat => .Match ⟨[pat], none⟩, none, none⟩

/-- No selector compiles. -/
def no_selectors : SelectorEngine :=
  fun _ => .error "no selector"

/-- `main` calls `load`, which calls `parse`. -/
def call_chain_of_three : GraphView where
  nodes := [function_node 0 "main", function_node 1 "load", function_node 2 "parse"]
  edges := [certain_edge 0 .Calls 0 1, certain_edge 1 .Calls 1 2]
  candidates := []
  ids_dense := by decide

/-- The one row of `MATCH (a)-[:CALLS]->(b)-[:CALLS]->(c)`. -/
def joined_row : Binding :=
  ⟨[("c", .Node ⟨2⟩), ("b", .Node ⟨1⟩), ("a", .Node ⟨0⟩)]⟩

/-- `main` calls `load`, and `serve` calls `parse`. -/
def two_calls : GraphView where
  nodes := [function_node 0 "main", function_node 1 "load", function_node 2 "serve", function_node 3 "parse"]
  edges := [certain_edge 0 .Calls 0 1, certain_edge 1 .Calls 2 3]
  candidates := []
  ids_dense := by decide

end cgx.cql
