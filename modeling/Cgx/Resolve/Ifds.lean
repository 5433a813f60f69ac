import Mathlib.Logic.Function.Basic
import Cgx.Core.Edge
import Cgx.Core.Site
import Cgx.Lib.Carry
import Cgx.Lib.SortedMap
import Cgx.Lib.Tarjan

namespace cgx.core

/-- The precedence of a condition; a higher one is more significant. -/
def EdgeCondition.precedence : EdgeCondition → Nat
  | .Always => 0
  | .Conditional => 1
  | .Loop => 2
  | .Exception => 3
  | .Panic => 4

/-- The more significant of two conditions. -/
def EdgeCondition.max (a b : EdgeCondition) : EdgeCondition :=
  if b.precedence ≤ a.precedence then a else b

end cgx.core

open cgx.core

namespace cgx.resolve

/-- The channel a value leaves a function through. Only `Return` is emitted. -/
inductive FormalOut where
  | Return
  | OutParam (idx : UInt8)
deriving DecidableEq

/-- The value of a parameter flows to a formal output over a path with this joined
transform and condition. -/
structure SummaryFact where
  formal_in_idx : UInt8
  formal_out : FormalOut
  transform : Transform
  condition : EdgeCondition
deriving DecidableEq

/-- Join two transforms along a path: a copy is the identity, and two distinct others
collapse to `Other`. -/
def join_transform (a b : Transform) : Transform :=
  if a = .Copy then b
  else if b = .Copy then a
  else if a = b then a
  else .Other

/-- Join two conditions along a path: the more significant one. -/
def join_condition (a b : EdgeCondition) : EdgeCondition :=
  a.max b

theorem join_transform_comm (a b : Transform) : join_transform a b = join_transform b a := by
  cases a <;> cases b <;> rfl

theorem join_transform_assoc (a b c : Transform) :
    join_transform (join_transform a b) c = join_transform a (join_transform b c) := by
  cases a <;> cases b <;> cases c <;> rfl

@[simp] theorem join_transform_self (a : Transform) : join_transform a a = a := by
  cases a <;> rfl

@[simp] theorem join_transform_copy (a : Transform) : join_transform .Copy a = a := rfl

theorem join_condition_comm (a b : EdgeCondition) : join_condition a b = join_condition b a := by
  cases a <;> cases b <;> rfl

theorem join_condition_assoc (a b c : EdgeCondition) :
    join_condition (join_condition a b) c = join_condition a (join_condition b c) := by
  cases a <;> cases b <;> cases c <;> rfl

@[simp] theorem join_condition_self (a : EdgeCondition) : join_condition a a = a := by
  cases a <;> rfl

@[simp] theorem join_condition_always (a : EdgeCondition) : join_condition .Always a = a := by
  cases a <;> rfl

end cgx.resolve

open cgx.core carry sorting tarjan

namespace cgx.resolve

/-- Total work budget of the interprocedural edges of an index. -/
def DEFAULT_MAX_SUMMARY_EDGES : Nat := 2000000

/-- One derivation between two values of a function. -/
structure IntraEdge where
  derived_fqn : String
  source_fqn : String
  transform : Transform
  condition : EdgeCondition
deriving DecidableEq

/-- One call `r = g(a0, a1, …)`. An argument that names no value is left out. -/
structure CallSite where
  result_fqn : String
  callee_fqn : Option String
  args : List (Option String)
  condition : EdgeCondition
  span : Span
deriving DecidableEq

/-- What the pass reads of a function. The returns are in ascending order. -/
structure FnDataflow where
  intra : List IntraEdge
  returns : List String
  formal_ins : List String
  calls : List CallSite

/-- The functions of a run, in ascending order of their names. -/
structure FnMap where
  entries : List (String × FnDataflow)
  ascending : sorted_map.Sorted compare entries

namespace FnMap

def get (fns : FnMap) (f : String) : Option FnDataflow :=
  sorted_map.get? compare f fns.entries

def keys (fns : FnMap) : List String :=
  fns.entries.map Prod.fst

theorem get_eq_some {fns : FnMap} {f : String} {fd : FnDataflow} :
    fns.get f = some fd ↔ (f, fd) ∈ fns.entries :=
  sorted_map.get?_eq_some fns.ascending

end FnMap

/-- The growing summary table. -/
abbrev Summaries := String → Option (List SummaryFact)

/-- The joined transform and condition of a path. -/
abbrev Payload := Transform × EdgeCondition

def Payload.start : Payload :=
  (.Copy, .Always)

def Payload.join (a b : Payload) : Payload :=
  (join_transform a.1 b.1, join_condition a.2 b.2)

/-- Counters of a run. -/
structure IfdsStats where
  summaries_computed : Nat
  summary_edges_materialized : Nat
  budget_exceeded_sccs : Nat
deriving DecidableEq

structure IfdsOutput where
  edges : List EdgeWithProvenance
  summaries : Summaries
  stats : IfdsStats

/-- A call site with a fact of its callee that leaves through the return, and the
argument it applies to. -/
def applied_facts (summaries : Summaries) (cs : CallSite) : List (SummaryFact × String) :=
  match cs.callee_fqn.bind summaries with
  | none => []
  | some facts => facts.filterMap fun sf =>
      if sf.formal_out = .Return then
        match cs.args[sf.formal_in_idx.toNat]? with
        | some (some arg) => some (sf, arg)
        | _ => none
      else none

/-- The hops of the backward search, in the order they are pushed: the derivations of the
function, then those its callees' summaries induce. -/
def back (fd : FnDataflow) (summaries : Summaries) : List (Hop String Payload) :=
  (fd.intra.map fun e => ⟨e.derived_fqn, e.source_fqn, (e.transform, e.condition)⟩) ++
    fd.calls.flatMap fun cs => (applied_facts summaries cs).map fun fact =>
      ⟨cs.result_fqn, fact.2, (fact.1.transform, join_condition fact.1.condition cs.condition)⟩

/-- The index of a formal; of several of one name the last. -/
def formal_idx (fd : FnDataflow) (node : String) : Option UInt8 :=
  (fd.formal_ins.zipIdx.reverse.find? fun e => e.1 = node).map fun e => (Nat.min e.2 255).toUInt8

/-- Record a visited node if it is a formal, joined with what was recorded. -/
def record (fd : FnDataflow) (facts : UInt8 → Option Payload) (visit : String × Payload) :
    UInt8 → Option Payload :=
  match formal_idx fd visit.1 with
  | none => facts
  | some i => Function.update facts i (some (((facts i).getD visit.2).join visit.2))

/-- The visits of the searches from every return node. -/
def return_visits (fd : FnDataflow) (summaries : Summaries) : List (String × Payload) :=
  fd.returns.flatMap fun ret => search (back fd summaries) Payload.join ret .start

/-- The facts by formal index. -/
def summary_facts (fd : FnDataflow) (summaries : Summaries) : UInt8 → Option Payload :=
  (return_visits fd summaries).foldl (record fd) fun _ => none

/-- Compute the summary of a function from those of everything it calls. -/
def compute_summary (fd : FnDataflow) (summaries : Summaries) : List SummaryFact :=
  (List.range 256).filterMap fun i =>
    (summary_facts fd summaries i.toUInt8).map fun p => ⟨i.toUInt8, .Return, p.1, p.2⟩

/-- The state of the fixpoint loop of one component. -/
structure Round where
  summaries : Summaries
  changed : Bool
  scc_applied : Nat
  global_applied : Nat
  scc_exhausted : Bool
  global_exhausted : Bool

/-- Recompute the summary of a member. -/
def recompute (fd : FnDataflow) (f : String) (r : Round) : Round :=
  let new := compute_summary fd r.summaries
  if r.summaries f ≠ some new then
    { r with summaries := Function.update r.summaries f (some new), changed := true }
  else r

/-- Charge one unit of work. -/
def Round.charge (r : Round) : Round :=
  { r with scc_applied := r.scc_applied + 1, global_applied := r.global_applied + 1 }

section run

variable (fns : FnMap)

/-- One pass over the members, cut short when a cap is passed. -/
def run_round (cap budget : Nat) : List String → Round → Round
  | [], r => r
  | f :: rest, r =>
    match fns.get f with
    | none => run_round cap budget rest r
    | some fd =>
      let r := (recompute fd f r).charge
      if cap < r.scc_applied ∨ budget < r.global_applied then
        { r with scc_exhausted := true, global_exhausted := decide (budget < r.global_applied) }
      else run_round cap budget rest r

/-- Passes until nothing changes or a cap is passed. Every pass takes work, so the cap
bounds their number. -/
def run_rounds (cap budget : Nat) (comp : List String) : Nat → Round → Round
  | 0, r => r
  | fuel + 1, r =>
    let r := run_round fns cap budget comp { r with changed := false }
    if !r.changed || r.scc_exhausted then r else run_rounds cap budget comp fuel r

/-- The state between two components. -/
structure Fixpoint where
  summaries : Summaries
  global_applied : Nat
  global_exhausted : Bool
  budget_exceeded_sccs : Nat

/-- The share of the budget one component may take. -/
def per_scc_cap (budget : Nat) : Nat :=
  Nat.max (budget / 10) 1

/-- The fixpoint loop of one component. -/
def settle_comp (budget : Nat) (comp : List String) (s : Fixpoint) : Round :=
  run_rounds fns (per_scc_cap budget) budget comp (per_scc_cap budget + 1)
    ⟨s.summaries, false, 0, s.global_applied, false, s.global_exhausted⟩

/-- Run one component. If it is cut short, it is counted. -/
def run_comp (budget : Nat) (s : Fixpoint) (comp : List String) : Fixpoint :=
  let r := settle_comp fns budget comp s
  ⟨r.summaries, r.global_applied, r.global_exhausted,
    s.budget_exceeded_sccs + if r.scc_exhausted then 1 else 0⟩

/-- The components in order, until the budget is exhausted. -/
def run_comps (budget : Nat) : List (List String) → Fixpoint → Fixpoint
  | [], s => s
  | comp :: rest, s =>
    let s := run_comp fns budget s comp
    if s.global_exhausted then s else run_comps budget rest s

/-- The callees of a function that are functions of the run. -/
def call_succ (f : String) : List String :=
  match fns.get f with
  | none => []
  | some fd => sort_by compare ((fd.calls.filterMap CallSite.callee_fqn).filter fun g => g ∈ fns.keys).dedup

/-- The components of the call graph, callees first. -/
def call_sccs : List (List String) :=
  tarjan.tarjan_sccs compare fns.keys (call_succ fns)

/-- The summary fixpoint. -/
def run_fixpoint (budget : Nat) : Fixpoint :=
  run_comps fns budget (call_sccs fns) ⟨fun _ => none, 0, false, 0⟩

end run

/-- An interprocedural edge from a call result to an argument it derives from. -/
def interproc_edge (result source : NodeId) (transform : Transform) (condition : EdgeCondition)
    (cut_markers : List CutMarker) (span : Span) : EdgeWithProvenance where
  edge :=
    { id := ⟨0⟩
      src := result
      dst := source
      kind := .DerivesFrom
      condition := condition
      confidence := .Probable
      tier := .ScopeGraph
      rule := "interprocedural"
      site_id := none
      stmt_index := none
      cut_markers := cut_markers
      implicit := none
      candidate_group := none
      established_by := none
      cfg_condition := none
      macro_origin := none
      transform := some transform }
  provenance := ⟨span, "interprocedural", .ScopeGraph, ""⟩

/-- The edges the summaries offer at a call site, without their markers. -/
def offered (summaries : Summaries) (resolve_node : String → Option NodeId) (cs : CallSite) :
    List (List CutMarker → EdgeWithProvenance) :=
  (applied_facts summaries cs).filterMap fun fact => do
    let result ← resolve_node cs.result_fqn
    let source ← resolve_node fact.2
    return fun cut_markers => interproc_edge result source fact.1.transform
      (join_condition fact.1.condition cs.condition) cut_markers cs.span

/-- The offers at every call site of the run, functions in order of their names. -/
def all_offers (fns : FnMap) (summaries : Summaries) (resolve_node : String → Option NodeId) :
    List (List CutMarker → EdgeWithProvenance) :=
  fns.entries.flatMap fun entry => entry.2.calls.flatMap (offered summaries resolve_node)

/-- Run the summary pass: the fixpoint, then an edge for every offer. An edge past the
budget, or of a run whose fixpoint was cut short, is marked. -/
def run_ifds_summaries (fns : FnMap) (resolve_node : String → Option NodeId) (budget : Nat) : IfdsOutput :=
  let fixpoint := run_fixpoint fns budget
  let budget_was_exhausted := fixpoint.global_exhausted || decide (0 < fixpoint.budget_exceeded_sccs)
  let edges := (all_offers fns fixpoint.summaries resolve_node).mapIdx fun applied edge =>
    edge (if budget ≤ applied ∨ budget_was_exhausted then [.SummaryBudgetExceeded] else [])
  { edges := edges
    summaries := fixpoint.summaries
    stats :=
      { summaries_computed := fns.keys.countP fun f => (fixpoint.summaries f).any fun facts => !facts.isEmpty
        summary_edges_materialized := edges.length
        budget_exceeded_sccs := fixpoint.budget_exceeded_sccs } }

end cgx.resolve
