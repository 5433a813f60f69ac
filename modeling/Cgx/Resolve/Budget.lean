import Mathlib.Algebra.Order.BigOperators.Group.List
import Mathlib.Data.Set.Card
import Cgx.Resolve.Exact

open cgx.core carry Relation

namespace cgx.resolve

/-- The call sites of the run, functions in order of their names. -/
def call_sites (fns : FnMap) : List CallSite :=
  fns.entries.flatMap fun entry => entry.2.calls

/-- A fact of the callee for its formal `k` offers an edge at a call site. -/
def OffersAt (S : String → Nat → Prop) (resolve_node : String → Option NodeId) (cs : CallSite) (k : Nat) : Prop :=
  ∃ g arg, cs.callee_fqn = some g ∧ S g k ∧ cs.args[k]? = some (some arg) ∧
    (resolve_node cs.result_fqn).isSome ∧ (resolve_node arg).isSome

/-- How many edges such facts offer at the call sites of a run. -/
noncomputable def offers (fns : FnMap) (S : String → Nat → Prop) (resolve_node : String → Option NodeId) : Nat :=
  ((call_sites fns).map fun cs => {k | OffersAt S resolve_node cs k}.ncard).sum

/-- No summary has two facts for one formal. -/
def DistinctFormals (t : Summaries) : Prop :=
  ∀ g facts, t g = some facts → (facts.map SummaryFact.formal_in_idx).Nodup

section count

variable {fns : FnMap} {t : Summaries} {resolve_node : String → Option NodeId} {S S' : String → Nat → Prop}

theorem DistinctFormals.update (ht : DistinctFormals t) (f : String) (fd : FnDataflow) :
    DistinctFormals (Function.update t f (some (compute_summary fd t))) := by
  intro g facts hfacts
  by_cases heq : g = f
  · subst heq
    rw [Function.update_self] at hfacts
    rw [← Option.some.inj hfacts]
    exact compute_summary_nodup
  · rw [Function.update_of_ne heq] at hfacts
    exact ht g facts hfacts

theorem run_fixpoint_distinct (fns : FnMap) (budget : Nat) :
    DistinctFormals (run_fixpoint fns budget).summaries := by
  refine run_comps_keeps (fun t ht f fd _ => ht.update f fd) (call_sccs fns) fun g facts hfacts => ?_
  cases hfacts

theorem offersAt_finite (S : String → Nat → Prop) (resolve_node : String → Option NodeId) (cs : CallSite) :
    {k | OffersAt S resolve_node cs k}.Finite := by
  refine (Set.finite_lt_nat cs.args.length).subset ?_
  rintro k ⟨_, _, _, _, harg, _⟩
  exact (List.getElem?_eq_some_iff.mp harg).1

theorem offers_mono (h : ∀ g k, S g k → S' g k) : offers fns S resolve_node ≤ offers fns S' resolve_node := by
  refine List.sum_le_sum fun cs _ => ?_
  refine Set.ncard_le_ncard ?_ (offersAt_finite S' resolve_node cs)
  rintro k ⟨g, arg, hg, hS, hrest⟩
  exact ⟨g, arg, hg, h g k hS, hrest⟩

/-- The facts applied at a call site are facts of the callee, in their order. -/
theorem applied_facts_distinct (ht : DistinctFormals t) (cs : CallSite) :
    ((applied_facts t cs).map fun fact => fact.1.formal_in_idx).Nodup := by
  unfold applied_facts
  cases hfacts : cs.callee_fqn.bind t with
  | none => simp
  | some facts =>
    obtain ⟨g, _, hg⟩ := Option.bind_eq_some_iff.mp hfacts
    refine (ht g facts hg).sublist ?_
    clear hfacts hg
    simp only
    induction facts with
    | nil => simp
    | cons sf rest ih =>
      rw [List.filterMap_cons, List.map_cons]
      split
      · exact ih.trans (List.sublist_cons_self _ _)
      · rename_i fact hfact
        have hsame : fact.1 = sf := by
          split at hfact
          · split at hfact
            · rw [← Option.some.inj hfact]
            · cases hfact
          · cases hfact
        rw [List.map_cons, hsame]
        exact ih.cons_cons _

/-- A call site has an offer for each formal with a fact that applies there. -/
theorem offered_length (ht : DistinctFormals t) (resolve_node : String → Option NodeId) (cs : CallSite) :
    (offered t resolve_node cs).length = {k | OffersAt (HasReturnFact t) resolve_node cs k}.ncard := by
  let applies := (applied_facts t cs).filter fun fact =>
    (resolve_node cs.result_fqn).isSome && (resolve_node fact.2).isSome
  have hlength : (offered t resolve_node cs).length = applies.length := by
    unfold offered
    rw [List.length_filterMap_eq_countP, List.countP_eq_length_filter]
    congr 1
    refine List.filter_congr fun fact _ => ?_
    cases resolve_node cs.result_fqn with
    | none => rfl
    | some result => cases resolve_node fact.2 <;> simp
  have hnodup : (applies.map fun fact => fact.1.formal_in_idx.toNat).Nodup := by
    have hsub : (applies.map fun fact => fact.1.formal_in_idx).Nodup :=
      (applied_facts_distinct ht cs).sublist (List.filter_sublist.map _)
    have hinj := hsub.map (f := UInt8.toNat) fun a b hab => UInt8.toNat_inj.mp hab
    rw [List.map_map] at hinj
    exact hinj
  have hset : {k | OffersAt (HasReturnFact t) resolve_node cs k} =
      ↑(applies.map fun fact => fact.1.formal_in_idx.toNat).toFinset := by
    ext k
    rw [List.coe_toFinset]
    constructor
    · rintro ⟨g, arg, hg, ⟨facts, hfacts, sf, hsf, hout, rfl⟩, harg, hresult, hsource⟩
      have hfact : (sf, arg) ∈ applied_facts t cs := mem_applied_facts.mpr ⟨g, facts, hg, hfacts, hsf, hout, harg⟩
      exact List.mem_map.mpr ⟨(sf, arg), List.mem_filter.mpr ⟨hfact, by simp [hresult, hsource]⟩, rfl⟩
    · intro hk
      obtain ⟨fact, hfact, rfl⟩ := List.mem_map.mp hk
      obtain ⟨happlied, hnodes⟩ := List.mem_filter.mp hfact
      obtain ⟨g, facts, hg, hfacts, hsf, hout, harg⟩ := mem_applied_facts.mp happlied
      rw [Bool.and_eq_true] at hnodes
      exact ⟨g, fact.2, hg, ⟨facts, hfacts, fact.1, hsf, hout, rfl⟩, harg, hnodes.1, hnodes.2⟩
  rw [hlength, hset, Set.ncard_coe_finset, List.toFinset_card_of_nodup hnodup, List.length_map]

theorem all_offers_length (ht : DistinctFormals t) (fns : FnMap) (resolve_node : String → Option NodeId) :
    (all_offers fns t resolve_node).length = offers fns (HasReturnFact t) resolve_node := by
  have hflat : all_offers fns t resolve_node = (call_sites fns).flatMap (offered t resolve_node) := by
    unfold all_offers call_sites
    rw [List.flatMap_assoc]
  rw [hflat, List.length_flatMap, offers]
  simp only [offered_length ht]

end count

/-- The summary of a function lacks nothing: recomputing it changes nothing, and every
formal that flows to its return is recorded. -/
structure CompleteAt (fns : FnMap) (t : Summaries) (f : String) : Prop where
  settled : SettledAt fns t f
  recorded : ∀ k, FlowsToReturn fns FormalIndexed f k → HasReturnFact t f k

section budget

variable (fns : FnMap) (resolve_node : String → Option NodeId) (budget : Nat)

/-- A run keeps its budget: it has no more edges than that, a run that leaves a fact or an
edge out counts a component, and then every edge is marked. -/
structure KeepsBudget : Prop where
  bounded : (run_ifds_summaries fns resolve_node budget).edges.length ≤ budget
  facts_counted : (∃ f, ¬ CompleteAt fns (run_ifds_summaries fns resolve_node budget).summaries f) →
    0 < (run_ifds_summaries fns resolve_node budget).stats.budget_exceeded_sccs
  edges_counted : (∃ cs g k result source, Applies fns resolve_node cs g k result source ∧
      FlowsToReturn fns FormalIndexed g k ∧
      ¬ ∃ e ∈ (run_ifds_summaries fns resolve_node budget).edges, e.edge.src = result ∧ e.edge.dst = source) →
    0 < (run_ifds_summaries fns resolve_node budget).stats.budget_exceeded_sccs
  marked : 0 < (run_ifds_summaries fns resolve_node budget).stats.budget_exceeded_sccs →
    ∀ e ∈ (run_ifds_summaries fns resolve_node budget).edges, .SummaryBudgetExceeded ∈ e.edge.cut_markers

theorem edges_length :
    (run_ifds_summaries fns resolve_node budget).edges.length =
      offers fns (HasReturnFact (run_fixpoint fns budget).summaries) resolve_node := by
  rw [← all_offers_length (run_fixpoint_distinct fns budget)]
  exact List.length_mapIdx

variable {fns resolve_node budget}

/-- A run in which no component is cut short lacks nothing. -/
theorem complete_of_uncut (hnone : (run_fixpoint fns budget).budget_exceeded_sccs = 0) (f : String) :
    CompleteAt fns (run_fixpoint fns budget).summaries f := by
  obtain ⟨hsound, hsettled⟩ := run_fixpoint_settled hnone
  exact ⟨hsettled f, fun k hk => (exists_fact_iff_flows hsound hsettled).mpr hk⟩

/-- What a cut run leaves out is counted and marked, whatever the budget. -/
theorem keepsBudget_iff_bounded :
    KeepsBudget fns resolve_node budget ↔
      (run_ifds_summaries fns resolve_node budget).edges.length ≤ budget := by
  refine ⟨KeepsBudget.bounded, fun hbounded => ⟨hbounded, ?_, ?_, fun hcut e he => ?_⟩⟩
  · rintro ⟨f, hlacks⟩
    by_contra hnone
    exact hlacks (complete_of_uncut (by simpa [run_ifds_summaries] using hnone) f)
  · rintro ⟨cs, g, k, result, source, happlies, hflows, hmissing⟩
    by_contra hnone
    have hcomplete : CompleteAt fns (run_fixpoint fns budget).summaries g :=
      complete_of_uncut (by simpa [run_ifds_summaries] using hnone) g
    exact hmissing (exists_edge_iff.mpr ⟨cs, g, k, happlies, hcomplete.recorded k hflows⟩)
  · obtain ⟨i, hi, rfl⟩ := List.mem_mapIdx.mp he
    obtain ⟨cs, _, hoffer⟩ := mem_all_offers.mp (List.getElem_mem hi)
    obtain ⟨fact, _, result, source, _, _, hedge⟩ := mem_offered.mp hoffer
    have hexceeded : 0 < (run_fixpoint fns budget).budget_exceeded_sccs := hcut
    rw [hedge]
    simp [interproc_edge, hexceeded]

end budget

/-- `g(x)` returns `x`. -/
def forwarded : FnDataflow :=
  ⟨[⟨"g::return#0", "g::x#0", .Copy, .Always⟩], ["g::return#0"], ["g::x#0"], []⟩

/-- `f` calls `g` 21 times. -/
def repeated_calls : FnMap where
  entries :=
    [("f", ⟨[], [], ["f::a#0"], List.replicate 21
      ⟨"f::r#0", some "g", [some "f::a#0"], .Always, ⟨"a.rs", 1, none⟩⟩⟩),
    ("g", forwarded)]
  ascending := by
    unfold sorted_map.Sorted
    decide

end cgx.resolve
