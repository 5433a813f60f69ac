import Cgx.Resolve.Settle

open cgx.core carry Relation

namespace cgx.resolve

/-- The summary of `f` has a return fact for the formal `k`. -/
def HasReturnFact (t : Summaries) (f : String) (k : Nat) : Prop :=
  ∃ facts, t f = some facts ∧ ∃ sf ∈ facts, sf.formal_out = .Return ∧ sf.formal_in_idx.toNat = k

/-- A call site of the run applies the formal `k` of its callee to `arg`, and both ends of
the edge have nodes. -/
def Applies (fns : FnMap) (resolve_node : String → Option NodeId) (cs : CallSite) (g : String) (k : Nat)
    (result source : NodeId) : Prop :=
  (∃ f fd, fns.get f = some fd ∧ cs ∈ fd.calls) ∧ cs.callee_fqn = some g ∧
    ∃ arg, cs.args[k]? = some (some arg) ∧ resolve_node cs.result_fqn = some result ∧
      resolve_node arg = some source

section edges

variable {fns : FnMap} {resolve_node : String → Option NodeId} {budget : Nat}

theorem mem_offered {t : Summaries} {cs : CallSite} {edge : List CutMarker → EdgeWithProvenance} :
    edge ∈ offered t resolve_node cs ↔ ∃ fact ∈ applied_facts t cs, ∃ result source,
      resolve_node cs.result_fqn = some result ∧ resolve_node fact.2 = some source ∧
        edge = fun cut_markers => interproc_edge result source fact.1.transform
          (join_condition fact.1.condition cs.condition) cut_markers cs.span := by
  unfold offered
  rw [List.mem_filterMap]
  refine exists_congr fun fact => and_congr_right fun _ => ?_
  cases hresult : resolve_node cs.result_fqn with
  | none => simp
  | some result =>
    cases hsource : resolve_node fact.2 with
    | none => simp
    | some source => simp [eq_comm]

theorem mem_all_offers {t : Summaries} {edge : List CutMarker → EdgeWithProvenance} :
    edge ∈ all_offers fns t resolve_node ↔
      ∃ cs, (∃ f fd, fns.get f = some fd ∧ cs ∈ fd.calls) ∧ edge ∈ offered t resolve_node cs := by
  unfold all_offers
  simp only [List.mem_flatMap]
  constructor
  · rintro ⟨entry, hentry, cs, hcs, hoffer⟩
    exact ⟨cs, ⟨entry.1, entry.2, FnMap.get_eq_some.mpr hentry, hcs⟩, hoffer⟩
  · rintro ⟨cs, ⟨f, fd, hf, hcs⟩, hoffer⟩
    exact ⟨(f, fd), FnMap.get_eq_some.mp hf, cs, hcs, hoffer⟩

/-- The ends of the edges of a run are those of the facts that apply. -/
theorem exists_edge_iff {result source : NodeId} :
    (∃ e ∈ (run_ifds_summaries fns resolve_node budget).edges, e.edge.src = result ∧ e.edge.dst = source) ↔
      ∃ cs g k, Applies fns resolve_node cs g k result source ∧
        HasReturnFact (run_ifds_summaries fns resolve_node budget).summaries g k := by
  constructor
  · rintro ⟨e, he, rfl, rfl⟩
    obtain ⟨i, hi, rfl⟩ := List.mem_mapIdx.mp he
    obtain ⟨cs, hcs, hoffer⟩ := mem_all_offers.mp (List.getElem_mem hi)
    obtain ⟨fact, hfact, result, source, hresult, hsource, hedge⟩ := mem_offered.mp hoffer
    obtain ⟨g, facts, hg, hfacts, hsf, hout, harg⟩ := mem_applied_facts.mp hfact
    rw [hedge]
    exact ⟨cs, g, _, ⟨hcs, hg, fact.2, harg, hresult, hsource⟩,
      facts, hfacts, fact.1, hsf, hout, rfl⟩
  · rintro ⟨cs, g, k, ⟨hcs, hg, arg, harg, hresult, hsource⟩, facts, hfacts, sf, hsf, hout, rfl⟩
    have hfact : (sf, arg) ∈ applied_facts (run_fixpoint fns budget).summaries cs :=
      mem_applied_facts.mpr ⟨g, facts, hg, hfacts, hsf, hout, harg⟩
    have hoffer := mem_offered.mpr ⟨_, hfact, result, source, hresult, hsource, rfl⟩
    obtain ⟨i, hi, heq⟩ := List.getElem_of_mem (mem_all_offers.mpr ⟨cs, hcs, hoffer⟩)
    refine ⟨_, List.mem_mapIdx.mpr ⟨i, hi, rfl⟩, ?_, ?_⟩ <;> rw [heq] <;> rfl

end edges

/-- Every function has distinct formals, and at most 256. -/
def FormalsFit (fns : FnMap) : Prop :=
  ∀ f fd, fns.get f = some fd → fd.formal_ins.Nodup ∧ fd.formal_ins.length ≤ 256

theorem flows_indexed_iff {fns : FnMap} (hfit : FormalsFit fns) {f : String} {k : Nat} :
    FlowsToReturn fns FormalIndexed f k ↔ FlowsToReturn fns FormalAt f k := by
  have hsame : ∀ f fd, fns.get f = some fd → ∀ k v, FormalIndexed fd k v ↔ FormalAt fd k v :=
    fun f fd hf k v => formalIndexed_iff (hfit f fd hf).1 (hfit f fd hf).2
  constructor
  · rintro ⟨fd, hf, ret, hret, v, hderives, hformal⟩
    exact ⟨fd, hf, ret, hret, v, hderives.congr fun f fd hf k v => (hsame f fd hf k v).mp, (hsame f fd hf k v).mp hformal⟩
  · rintro ⟨fd, hf, ret, hret, v, hderives, hformal⟩
    exact ⟨fd, hf, ret, hret, v, hderives.congr fun f fd hf k v => (hsame f fd hf k v).mpr,
      (hsame f fd hf k v).mpr hformal⟩

/-- The summaries of a run in which no budget is exhausted are exact: a fact is recorded
when its formal flows to the return along a balanced path, which is the least solution of
the summary equations, and the edges are those of these facts whose ends have nodes. -/
theorem summaries_exact {fns : FnMap} {resolve_node : String → Option NodeId} {budget : Nat}
    (hfit : FormalsFit fns)
    (hdone : (run_ifds_summaries fns resolve_node budget).stats.budget_exceeded_sccs = 0) :
    (∀ f k, HasReturnFact (run_ifds_summaries fns resolve_node budget).summaries f k ↔
      FlowsToReturn fns FormalAt f k) ∧
    SolvesEquations fns FormalAt (HasReturnFact (run_ifds_summaries fns resolve_node budget).summaries) ∧
    (∀ S, SolvesEquations fns FormalAt S →
      ∀ f k, HasReturnFact (run_ifds_summaries fns resolve_node budget).summaries f k → S f k) ∧
    ∀ result source,
      (∃ e ∈ (run_ifds_summaries fns resolve_node budget).edges, e.edge.src = result ∧ e.edge.dst = source) ↔
        ∃ cs g k, Applies fns resolve_node cs g k result source ∧ FlowsToReturn fns FormalAt g k := by
  obtain ⟨hsound, hsettled⟩ := run_fixpoint_settled hdone
  have hfacts : ∀ f k, HasReturnFact (run_ifds_summaries fns resolve_node budget).summaries f k ↔
      FlowsToReturn fns FormalAt f k := by
    intro f k
    rw [← flows_indexed_iff hfit]
    exact exists_fact_iff_flows hsound hsettled
  have hsame : HasReturnFact (run_ifds_summaries fns resolve_node budget).summaries = FlowsToReturn fns FormalAt := by
    funext f k
    exact propext (hfacts f k)
  refine ⟨hfacts, ?_, fun S hS f k h => flows_least hS ((hfacts f k).mp h), fun result source => ?_⟩
  · rw [hsame]
    exact flows_solves
  · rw [exists_edge_iff, hsame]

/-- `g(x)` returns `x`, or calls itself on it. -/
def forwarding_inner : FnDataflow :=
  ⟨[⟨"g::return#0", "g::x#0", .Copy, .Always⟩], ["g::return#0"], ["g::x#0"],
    [⟨"g::return#0", some "g", [some "g::x#0"], .Always, ⟨"a.rs", 2, none⟩⟩]⟩

/-- The call `g(a)` inside `f`. -/
def forwarding_call : CallSite :=
  ⟨"f::r#0", some "g", [some "f::a#0"], .Conditional, ⟨"a.rs", 1, none⟩⟩

/-- `f(a)` returns `g(a)`. -/
def forwarding_outer : FnDataflow :=
  ⟨[⟨"f::return#0", "f::r#0", .Copy, .Always⟩], ["f::return#0"], ["f::a#0"], [forwarding_call]⟩

def forwarding : FnMap where
  entries := [("f", forwarding_outer), ("g", forwarding_inner)]
  ascending := by
    unfold sorted_map.Sorted
    decide

/-- Only the values of `f` have nodes. -/
def forwarding_nodes (fqn : String) : Option NodeId :=
  if fqn = "f::a#0" then some ⟨0⟩
  else if fqn = "f::r#0" then some ⟨1⟩
  else none

theorem summaries_exact_forwarding :
    HasReturnFact (run_ifds_summaries forwarding forwarding_nodes 100).summaries "f" 0 ∧
      ∃ e ∈ (run_ifds_summaries forwarding forwarding_nodes 100).edges, e.edge.src = ⟨1⟩ ∧ e.edge.dst = ⟨0⟩ := by
  have hfit : FormalsFit forwarding := by
    intro f fd hf
    have hall : ∀ entry ∈ forwarding.entries,
        entry.2.formal_ins.Nodup ∧ entry.2.formal_ins.length ≤ 256 := by decide
    exact hall (f, fd) (FnMap.get_eq_some.mp hf)
  have hdone : (run_ifds_summaries forwarding forwarding_nodes 100).stats.budget_exceeded_sccs = 0 := by
    decide +kernel
  obtain ⟨hfacts, _, _, hedges⟩ := summaries_exact hfit hdone
  have hf : forwarding.get "f" = some forwarding_outer := rfl
  have hg : forwarding.get "g" = some forwarding_inner := rfl
  have hsite : forwarding_call ∈ forwarding_outer.calls := List.mem_singleton_self _
  have hinner : Derives forwarding FormalAt "g" "g::return#0" "g::x#0" :=
    .hop (e := ⟨"g::return#0", "g::x#0", .Copy, .Always⟩) hg (List.mem_singleton_self _) .refl
  have hcall : Derives forwarding FormalAt "f" "f::r#0" "f::a#0" :=
    .call (k := 0) hf hsite rfl hg (List.mem_singleton_self _) hinner rfl rfl .refl
  have houter : Derives forwarding FormalAt "f" "f::return#0" "f::a#0" :=
    .hop (e := ⟨"f::return#0", "f::r#0", .Copy, .Always⟩) hf (List.mem_singleton_self _) hcall
  have hreturned : FlowsToReturn forwarding FormalAt "g" 0 :=
    ⟨forwarding_inner, hg, _, List.mem_singleton_self _, _, hinner, rfl⟩
  refine ⟨(hfacts "f" 0).mpr ⟨forwarding_outer, hf, _, List.mem_singleton_self _, _, houter, rfl⟩, ?_⟩
  exact (hedges ⟨1⟩ ⟨0⟩).mpr
    ⟨forwarding_call, "g", 0, ⟨⟨"f", forwarding_outer, hf, hsite⟩, rfl, "f::a#0", rfl, rfl, rfl⟩, hreturned⟩

end cgx.resolve
