import Cgx.Resolve.Rounds

open cgx.core carry tarjan Relation

namespace cgx.resolve

/-- The work of the passes over a component until one is quiet. -/
def comp_work (comp : List String) : Nat :=
  (comp.length * fact_height + 1) * comp.length

section rounds

variable {fns : FnMap} {cap budget : Nat} {comp : List String} {rest : List (List String)} {r : Round} {s : Fixpoint}

@[simp] theorem recompute_global_applied (fd : FnDataflow) (f : String) (r : Round) :
    (recompute fd f r).charge.global_applied = r.global_applied + 1 := by
  obtain ⟨_, hsame⟩ | hupdate := recompute_cases fd f r
  · rw [hsame]
    rfl
  · rw [hupdate]
    rfl

@[simp] theorem recompute_scc_exhausted (fd : FnDataflow) (f : String) (r : Round) :
    (recompute fd f r).charge.scc_exhausted = r.scc_exhausted := by
  obtain ⟨_, hsame⟩ | hupdate := recompute_cases fd f r
  · rw [hsame]
    rfl
  · rw [hupdate]
    rfl

theorem recompute_eq_self {f : String} {fd : FnDataflow}
    (h : r.summaries f = some (compute_summary fd r.summaries)) : recompute fd f r = r :=
  if_neg (not_not.mpr h)

/-- What a pass with enough budget left does to the state of the loop. -/
structure Passed (fns : FnMap) (comp members : List String) (r r' : Round) : Prop where
  summaries : r'.summaries = round fns members r.summaries
  work : ∃ work ≤ members.length, r'.scc_applied = r.scc_applied + work ∧ r'.global_applied = r.global_applied + work
  scc_exhausted : r'.scc_exhausted = r.scc_exhausted
  global_exhausted : r'.global_exhausted = r.global_exhausted
  rises : r'.changed = true → r.changed = true ∨ comp_level comp r.summaries < comp_level comp r'.summaries

theorem run_round_passed (h : Consistent fns r.summaries) (members : List String)
    (hcarries : RoundCarries fns members r.summaries) (hmembers : ∀ f ∈ members, f ∈ comp)
    (hcap : r.scc_applied + members.length ≤ cap) (hbudget : r.global_applied + members.length ≤ budget) :
    Passed fns comp members r (run_round fns cap budget members r) := by
  induction members generalizing r with
  | nil => exact ⟨rfl, ⟨0, le_rfl, rfl, rfl⟩, rfl, rfl, .inl⟩
  | cons f members ih =>
    obtain ⟨hf, hrest⟩ := hcarries
    have hmembers' := fun g hg => hmembers g (List.mem_cons_of_mem f hg)
    rw [List.length_cons] at hcap hbudget
    obtain ⟨hnone, hrun⟩ | ⟨fd, hfd, ⟨_, hcut⟩ | ⟨hrun, _⟩⟩ := run_round_cons fns cap budget f members r
    · have hskip : recompute_at fns r.summaries f = r.summaries := recompute_at_none hnone
      rw [hskip] at hrest
      rw [hrun]
      obtain ⟨hsummaries, ⟨work, hwork, happlied⟩, hscc, hglobal, hrises⟩ := ih h hrest hmembers' (by omega) (by omega)
      refine ⟨?_, ⟨work, hwork.trans (Nat.le_succ _), happlied⟩, hscc, hglobal, hrises⟩
      rw [hsummaries, round, round, List.foldl_cons, hskip]
    · rw [recompute_charge, recompute_global_applied] at hcut
      omega
    · have hnext := recompute_summaries hfd r
      have hcharge := recompute_charge fd f r
      have hglobal_charge := recompute_global_applied fd f r
      have hconsistent := h.recompute_at f
      rw [← hnext] at hrest hconsistent
      obtain ⟨hsummaries, ⟨work, hwork, hscc_applied, hglobal_applied⟩, hscc, hglobal, hrises⟩ :=
        ih hconsistent hrest hmembers' (by omega) (by omega)
      rw [hrun]
      refine ⟨?_, ⟨work + 1, Nat.succ_le_succ hwork, by omega, by omega⟩, ?_, ?_, fun hchanged => ?_⟩
      · rw [hsummaries, hnext, round, round, List.foldl_cons]
      · rw [hscc, recompute_scc_exhausted]
      · rw [hglobal, recompute_global_exhausted]
      · -- what follows does not lower the level again
        have hafter := round_level hconsistent members hrest hmembers'
        rw [← hsummaries] at hafter
        obtain hsame | hlevel := compute_summary_level h hf hfd
        · rw [recompute_eq_self hsame] at hrises hchanged ⊢
          exact hrises hchanged
        · have hrecomputed : comp_level comp r.summaries < comp_level comp (recompute fd f r).charge.summaries := by
            rw [hnext, recompute_at_eq hfd]
            exact comp_level_update (hmembers f List.mem_cons_self) hlevel
          obtain hstays | hmore := hafter
          · rw [hstays]
            exact .inr hrecomputed
          · exact .inr (hrecomputed.trans hmore)

/-- The work until a component of this level is quiet. -/
def work_left (comp : List String) (t : Summaries) : Nat :=
  (comp.length * fact_height - comp_level comp t + 1) * comp.length

/-- With enough budget left, the loop ends with a quiet pass. -/
theorem run_rounds_passed (hrun : RunCarries fns) {fuel : Nat} (hcomes : Comes fns (comp :: rest) r.summaries)
    (hscc : r.scc_exhausted = false)
    (hcap : r.scc_applied + work_left comp r.summaries ≤ cap)
    (hbudget : r.global_applied + work_left comp r.summaries ≤ budget)
    (hfuel : comp.length * fact_height - comp_level comp r.summaries < fuel) :
    Comes fns rest (run_rounds fns cap budget comp fuel r).summaries ∧
      (run_rounds fns cap budget comp fuel r).scc_exhausted = false ∧
      (run_rounds fns cap budget comp fuel r).global_exhausted = r.global_exhausted ∧
      (run_rounds fns cap budget comp fuel r).global_applied ≤ r.global_applied + work_left comp r.summaries := by
  induction fuel generalizing r with
  | zero => omega
  | succ fuel ih =>
    have hsplit : work_left comp r.summaries =
        (comp.length * fact_height - comp_level comp r.summaries) * comp.length + comp.length := by
      rw [work_left, Nat.succ_mul]
    have hpassed : Passed fns comp comp { r with changed := false }
        (run_round fns cap budget comp { r with changed := false }) :=
      run_round_passed (r := { r with changed := false }) hcomes.consistent comp (hrun comp rest _ hcomes)
        (fun f hf => hf) (by simp only; omega) (by simp only; omega)
    obtain ⟨hsummaries, ⟨work, hwork, hscc_applied, hglobal_applied⟩, hstays, hglobal, hrises⟩ := hpassed
    have hscc' : (run_round fns cap budget comp { r with changed := false }).scc_exhausted = false :=
      hstays.trans hscc
    simp only at hsummaries hscc_applied hglobal_applied hglobal hrises
    simp only [run_rounds]
    split
    · rename_i hend
      have hquiet : (run_round fns cap budget comp { r with changed := false }).changed = false := by
        simpa [hscc'] using hend
      have hsame := (run_round_quiet hquiet hscc').1
      simp only at hsame
      rw [hsame]
      exact ⟨hcomes.next (hsummaries.symm.trans hsame), hscc', hglobal, by omega⟩
    · rename_i hend
      have hchanged : (run_round fns cap budget comp { r with changed := false }).changed = true := by
        simpa [hscc'] using hend
      have hlevel := (hrises hchanged).resolve_left Bool.false_ne_true
      have htop := comp_level_le comp (run_round fns cap budget comp { r with changed := false }).summaries
      have hstep : work_left comp (run_round fns cap budget comp { r with changed := false }).summaries + comp.length ≤
          work_left comp r.summaries := by
        rw [hsplit, work_left]
        refine Nat.add_le_add_right (Nat.mul_le_mul_right _ ?_) _
        omega
      obtain ⟨hcomes', hscc'', hglobal', happlied⟩ := ih (r := run_round fns cap budget comp { r with changed := false })
        (hsummaries ▸ hcomes.round) hscc' (by omega) (by omega) (by omega)
      exact ⟨hcomes', hscc'', hglobal'.trans hglobal, by omega⟩

/-- The work over several components. -/
def comps_work (comps : List (List String)) : Nat :=
  (comps.map comp_work).sum

theorem work_left_le (comp : List String) (t : Summaries) : work_left comp t ≤ comp_work comp := by
  refine Nat.mul_le_mul_right _ ?_
  omega

/-- With enough budget for what is left, no component is cut short. -/
theorem run_comps_passed (hrun : RunCarries fns) (comps : List (List String)) (hcomes : Comes fns comps s.summaries)
    (hglobal : s.global_exhausted = false) (hcap : ∀ comp ∈ comps, comp_work comp ≤ per_scc_cap budget)
    (hbudget : s.global_applied + comps_work comps ≤ budget) :
    (run_comps fns budget comps s).budget_exceeded_sccs = s.budget_exceeded_sccs := by
  induction comps generalizing s with
  | nil => rfl
  | cons comp rest ih =>
    have hwork : comps_work (comp :: rest) = comp_work comp + comps_work rest := by
      simp [comps_work]
    have hleft := work_left_le comp s.summaries
    have hcomp := hcap comp List.mem_cons_self
    have hlevels : comp.length * fact_height - comp_level comp s.summaries < per_scc_cap budget + 1 := by
      cases comp with
      | nil => simp
      | cons f members =>
        have hmul : (f :: members).length * fact_height + 1 ≤ comp_work (f :: members) :=
          Nat.le_mul_of_pos_right _ (Nat.succ_pos _)
        omega
    obtain ⟨hcomes', hscc', hglobal', happlied⟩ := @run_rounds_passed fns (per_scc_cap budget) budget comp rest
      ⟨s.summaries, false, 0, s.global_applied, false, s.global_exhausted⟩ hrun (per_scc_cap budget + 1) hcomes rfl
      (by simp only; omega) (by simp only; omega) hlevels
    have hgoes : (run_comp fns budget s comp).global_exhausted = false := hglobal'.trans hglobal
    have huncut : (run_comp fns budget s comp).budget_exceeded_sccs = s.budget_exceeded_sccs := by
      have hcut : (settle_comp fns budget comp s).scc_exhausted = false := hscc'
      simp [run_comp, hcut]
    simp only [run_comps, hgoes, Bool.false_eq_true, if_false]
    have happlied' : (run_comp fns budget s comp).global_applied ≤ s.global_applied + work_left comp s.summaries :=
      happlied
    rw [ih hcomes' hgoes (fun c hc => hcap c (List.mem_cons_of_mem _ hc)) (by omega), huncut]

end rounds

section run

variable {fns : FnMap}

theorem comps_work_le {n : Nat} (comps : List (List String)) (hlength : ∀ comp ∈ comps, comp.length ≤ n) :
    comps_work comps ≤ comps.flatten.length * (n * fact_height + 1) := by
  induction comps with
  | nil => exact Nat.zero_le _
  | cons comp rest ih =>
    have hrest := ih fun c hc => hlength c (List.mem_cons_of_mem _ hc)
    have hcomp : comp_work comp ≤ comp.length * (n * fact_height + 1) := by
      rw [comp_work, Nat.mul_comm]
      exact Nat.mul_le_mul_left _ (Nat.succ_le_succ (Nat.mul_le_mul_right _ (hlength comp List.mem_cons_self)))
    simp only [comps_work, List.map_cons, List.sum_cons, List.flatten_cons, List.length_append, Nat.add_mul] at hrest ⊢
    omega

/-- The components hold every function at most once. -/
theorem call_sccs_length (fns : FnMap) : (call_sccs fns).flatten.length ≤ fns.keys.length := by
  have hspec := call_sccs_spec fns
  exact (hspec.nodup.subperm fun f hf => (hspec.mem_iff f).mp hf).length_le

/-- A run whose recomputations carry what was recorded comes to a quiet pass over every
component by itself, and with enough budget none is counted. -/
theorem fixpoint_terminates (hrun : RunCarries fns) :
    TerminatesByItself fns ∧ ∀ resolve_node budget, enough_budget fns ≤ budget →
      (run_ifds_summaries fns resolve_node budget).stats.budget_exceeded_sccs = 0 := by
  refine ⟨terminates_of_runCarries hrun, fun resolve_node budget henough => ?_⟩
  have hlength := call_sccs_length fns
  have hcomp : ∀ comp ∈ call_sccs fns, comp.length ≤ fns.keys.length := by
    intro comp hcomp
    have hle := (List.sublist_flatten_of_mem hcomp).length_le
    omega
  have hwork : comps_work (call_sccs fns) ≤ fns.keys.length * (fns.keys.length * fact_height + 1) :=
    (comps_work_le (call_sccs fns) hcomp).trans (Nat.mul_le_mul_right _ hlength)
  have hcap : ∀ comp ∈ call_sccs fns, comp_work comp ≤ per_scc_cap budget := by
    intro comp hmem
    have hpart : comp_work comp ≤ comps_work (call_sccs fns) :=
      List.single_le_sum (fun _ _ => Nat.zero_le _) _ (List.mem_map_of_mem hmem)
    have hshare : budget / 10 ≤ per_scc_cap budget := Nat.le_max_left _ _
    unfold enough_budget at henough
    omega
  exact run_comps_passed hrun (call_sccs fns) .start rfl hcap (by
    unfold enough_budget at henough
    simp only
    omega)

end run

/-- `f(x)` returns `x`, or calls itself on it. -/
def echo : FnDataflow :=
  ⟨[⟨"f::return#0", "f::x#0", .Copy, .Always⟩], ["f::return#0"], ["f::x#0"],
    [⟨"f::return#0", some "f", [some "f::x#0"], .Always, ⟨"a.rs", 1, none⟩⟩]⟩

def echoing : FnMap where
  entries := [("f", echo)]
  ascending := by
    unfold sorted_map.Sorted
    decide

/-- The table once `f` has its summary. -/
def echo_table : Summaries :=
  Function.update (fun _ => none) "f" (some [⟨0, .Return, .Copy, .Always⟩])

theorem echo_recompute : compute_summary echo (fun _ => none) = [⟨0, .Return, .Copy, .Always⟩] ∧
    compute_summary echo echo_table = [⟨0, .Return, .Copy, .Always⟩] := by
  decide +kernel

theorem echo_terminates :
    TerminatesByItself echoing ∧ ∀ resolve_node budget, enough_budget echoing ≤ budget →
      (run_ifds_summaries echoing resolve_node budget).stats.budget_exceeded_sccs = 0 := by
  refine fixpoint_terminates fun comp rest t hcomes => ?_
  have hsccs : call_sccs echoing = [["f"]] := by decide +kernel
  -- every table of the run holds only copies
  have hrun : ∀ {comps t}, Comes echoing comps t →
      (∀ comp ∈ comps, comp = ["f"]) ∧ (t = (fun _ => none) ∨ t = echo_table) := by
    intro comps t h
    induction h with
    | start => exact ⟨by simp [hsccs], .inl rfl⟩
    | next _ _ ih => exact ⟨fun comp hcomp => ih.1 comp (List.mem_cons_of_mem _ hcomp), ih.2⟩
    | round _ ih =>
      refine ⟨ih.1, .inr ?_⟩
      rw [ih.1 _ List.mem_cons_self, round, List.foldl_cons, List.foldl_nil, recompute_at_eq rfl]
      obtain rfl | rfl := ih.2
      · rw [echo_recompute.1]
        rfl
      · rw [echo_recompute.2, echo_table, Function.update_idem]
  obtain ⟨hcomps, htable⟩ := hrun hcomes
  rw [hcomps comp List.mem_cons_self]
  refine ⟨fun fd facts _ hfacts sf hsf b _ => ?_, trivial⟩
  obtain rfl | rfl := htable
  · cases hfacts
  · rw [echo_table, Function.update_self] at hfacts
    rw [← Option.some.inj hfacts] at hsf
    rw [List.mem_singleton.mp hsf]
    exact Payload.start_le b

/-- `f(p, q)` returns a part of `p`, a sum with `q`, or `f(q, p)`. -/
def swap : FnDataflow :=
  ⟨[⟨"f::return#0", "f::p#0", .Projection, .Always⟩, ⟨"f::return#0", "f::q#0", .Arith, .Always⟩],
    ["f::return#0"], ["f::p#0", "f::q#0"],
    [⟨"f::return#0", some "f", [some "f::q#0", some "f::p#0"], .Always, ⟨"a.rs", 1, none⟩⟩]⟩

def swapping : FnMap where
  entries := [("f", swap)]
  ascending := by
    unfold sorted_map.Sorted
    decide

/-- A table with these transforms for the two formals of `f`. -/
def swap_table (p q : Transform) : Summaries :=
  Function.update (fun _ => none) "f" (some [⟨0, .Return, p, .Always⟩, ⟨1, .Return, q, .Always⟩])

/-- The summary of `f` goes back and forth between two tables. -/
theorem swap_recompute : compute_summary swap (fun _ => none) =
      [⟨0, .Return, .Projection, .Always⟩, ⟨1, .Return, .Arith, .Always⟩] ∧
    compute_summary swap (swap_table .Projection .Arith) =
      [⟨0, .Return, .Arith, .Always⟩, ⟨1, .Return, .Projection, .Always⟩] ∧
    compute_summary swap (swap_table .Arith .Projection) =
      [⟨0, .Return, .Projection, .Always⟩, ⟨1, .Return, .Arith, .Always⟩] := by
  decide +kernel

/-- The tables of its run. -/
def SwapTable (t : Summaries) : Prop :=
  t = (fun _ => none) ∨ t = swap_table .Projection .Arith ∨ t = swap_table .Arith .Projection

theorem SwapTable.update {t : Summaries} (h : SwapTable t) :
    SwapTable (Function.update t "f" (some (compute_summary swap t))) ∧ t "f" ≠ some (compute_summary swap t) := by
  obtain ⟨hfirst, hsecond, hthird⟩ := swap_recompute
  obtain rfl | rfl | rfl := h
  · rw [hfirst]
    exact ⟨.inr (.inl rfl), by simp⟩
  · rw [hsecond]
    refine ⟨.inr (.inr (Function.update_idem _ _ _)), ?_⟩
    rw [swap_table, Function.update_self]
    decide
  · rw [hthird]
    refine ⟨.inr (.inl (Function.update_idem _ _ _)), ?_⟩
    rw [swap_table, Function.update_self]
    decide

theorem swapped_arguments_never_settle :
    ¬ TerminatesByItself swapping ∧
      ¬ ∃ budget, (run_ifds_summaries swapping (fun _ => none) budget).stats.budget_exceeded_sccs = 0 := by
  constructor
  · intro hterminates
    have hsccs : call_sccs swapping = [["f"]] := by decide +kernel
    have hstart : Comes swapping [["f"]] fun _ => none := hsccs ▸ Comes.start
    obtain ⟨n, _, hquiet⟩ := hterminates _ _ _ hstart
    have htable : ∀ n, SwapTable ((round swapping ["f"])^[n] fun _ => none) := by
      intro n
      induction n with
      | zero => exact .inl rfl
      | succ n ih =>
        rw [Function.iterate_succ_apply', round, List.foldl_cons, List.foldl_nil, recompute_at_eq rfl]
        exact ih.update.1
    rw [Quiet, round, List.foldl_cons, List.foldl_nil, recompute_at_eq rfl] at hquiet
    have hsettled := congrFun hquiet "f"
    rw [Function.update_self] at hsettled
    exact (htable n).update.2 hsettled.symm
  · rintro ⟨budget, hnone⟩
    obtain ⟨_, hsettled⟩ := run_fixpoint_settled hnone
    have htable : SwapTable (run_fixpoint swapping budget).summaries := by
      refine run_comps_keeps (fun t ht f fd hf => ?_) (call_sccs swapping) (.inl rfl)
      have hentry : (f, fd) ∈ swapping.entries := FnMap.get_eq_some.mp hf
      cases List.mem_singleton.mp hentry
      exact ht.update.1
    exact htable.update.2 (hsettled "f" swap rfl)

end cgx.resolve
