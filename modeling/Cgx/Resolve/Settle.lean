import Mathlib.Data.List.Dedup
import Cgx.Resolve.Recompute

open cgx.core carry sorting tarjan Relation

namespace cgx.resolve

/-- Every recorded fact is a flow to the return. -/
def SoundTable (fns : FnMap) (t : Summaries) : Prop :=
  ∀ g facts, t g = some facts → (fns.get g).isSome ∧
    ∀ sf ∈ facts, sf.formal_out = .Return ∧ FlowsToReturn fns FormalIndexed g sf.formal_in_idx.toNat

/-- The summary of a function is what recomputing it gives. -/
def SettledAt (fns : FnMap) (t : Summaries) (f : String) : Prop :=
  ∀ fd, fns.get f = some fd → t f = some (compute_summary fd t)

section sound

variable {fns : FnMap} {t : Summaries} {f : String} {fd : FnDataflow}

/-- A path of the search over sound summaries is a balanced path. -/
theorem derives_of_path (ht : SoundTable fns t) (hf : fns.get f = some fd) {x y : String}
    (h : ReflTransGen (carry.Leads (back fd t)) x y) : Derives fns FormalIndexed f x y := by
  induction h using ReflTransGen.head_induction_on with
  | refl => exact .refl
  | head hstep _ ih =>
    obtain ⟨e, he, rfl, rfl⟩ | ⟨cs, hcs, rfl, g, facts, hcallee, hfacts, sf, hsf, _, harg⟩ := leads_back_iff.mp hstep
    · exact .hop hf he ih
    · obtain ⟨_, hflows⟩ := (ht g facts hfacts).2 sf hsf
      obtain ⟨gd, hg, ret, hret, v, hinner, hformal⟩ := hflows
      exact .call hf hcs hcallee hg hret hinner hformal harg ih

theorem compute_summary_sound (ht : SoundTable fns t) (hf : fns.get f = some fd) :
    ∀ sf ∈ compute_summary fd t, sf.formal_out = .Return ∧
      FlowsToReturn fns FormalIndexed f sf.formal_in_idx.toNat := by
  intro sf hsf
  obtain ⟨ret, hret, v, hpath, hidx⟩ := exists_fact_iff.mp ⟨sf, hsf, rfl⟩
  exact ⟨(mem_compute_summary.mp hsf).1, fd, hf, ret, hret, v, derives_of_path ht hf hpath, _, hidx, rfl⟩

/-- Over settled summaries the search follows every balanced path. -/
theorem path_of_derives (hsettled : ∀ g, SettledAt fns t g) (hf : fns.get f = some fd) {x y : String}
    (h : Derives fns FormalIndexed f x y) : ReflTransGen (carry.Leads (back fd t)) x y := by
  induction h generalizing fd with
  | refl => exact .refl
  | hop hf' he _ ih =>
    obtain rfl : _ = fd := Option.some.inj (hf'.symm.trans hf)
    exact .head (leads_back_iff.mpr (.inl ⟨_, he, rfl, rfl⟩)) (ih hf)
  | call hf' hcs hcallee hg hret _ hformal harg _ ihinner ih =>
    obtain rfl : _ = fd := Option.some.inj (hf'.symm.trans hf)
    obtain ⟨i, hidx, rfl⟩ := hformal
    obtain ⟨sf, hsf, rfl⟩ := exists_fact_iff.mpr ⟨_, hret, _, ihinner hg, hidx⟩
    exact .head (leads_back_iff.mpr (.inr ⟨_, hcs, rfl, _, _, hcallee, hsettled _ _ hg, sf, hsf,
      (mem_compute_summary.mp hsf).1, harg⟩)) (ih hf)

/-- Sound and settled summaries record exactly the flows. -/
theorem exists_fact_iff_flows (ht : SoundTable fns t) (hsettled : ∀ g, SettledAt fns t g) {k : Nat} :
    (∃ facts, t f = some facts ∧ ∃ sf ∈ facts, sf.formal_out = .Return ∧ sf.formal_in_idx.toNat = k) ↔
      FlowsToReturn fns FormalIndexed f k := by
  constructor
  · rintro ⟨facts, hfacts, sf, hsf, _, rfl⟩
    exact ((ht f facts hfacts).2 sf hsf).2
  · rintro ⟨fd, hf, ret, hret, v, hderives, i, hidx, rfl⟩
    obtain ⟨sf, hsf, rfl⟩ := exists_fact_iff.mpr ⟨ret, hret, v, path_of_derives hsettled hf hderives, hidx⟩
    exact ⟨_, hsettled f fd hf, sf, hsf, (mem_compute_summary.mp hsf).1, rfl⟩

end sound

section rounds

variable {fns : FnMap} {cap budget : Nat} {comp : List String} {r : Round}

theorem recompute_cases (fd : FnDataflow) (f : String) (r : Round) :
    (r.summaries f = some (compute_summary fd r.summaries) ∧ recompute fd f r = r) ∨
      recompute fd f r =
        { r with
          summaries := Function.update r.summaries f (some (compute_summary fd r.summaries))
          changed := true } := by
  unfold recompute
  by_cases hsame : r.summaries f = some (compute_summary fd r.summaries)
  · exact .inl ⟨hsame, if_neg (not_not.mpr hsame)⟩
  · exact .inr (if_pos hsame)

/-- A recomputation costs one unit. -/
@[simp] theorem recompute_charge (fd : FnDataflow) (f : String) (r : Round) :
    (recompute fd f r).charge.scc_applied = r.scc_applied + 1 := by
  obtain ⟨_, hsame⟩ | hupdate := recompute_cases fd f r
  · rw [hsame]
    rfl
  · rw [hupdate]
    rfl

@[simp] theorem recompute_global_exhausted (fd : FnDataflow) (f : String) (r : Round) :
    (recompute fd f r).charge.global_exhausted = r.global_exhausted := by
  obtain ⟨_, hsame⟩ | hupdate := recompute_cases fd f r
  · rw [hsame]
    rfl
  · rw [hupdate]
    rfl

/-- One member of a pass: it is no function, the pass is cut short after it, or the pass
goes on. -/
theorem run_round_cons (fns : FnMap) (cap budget : Nat) (f : String) (rest : List String) (r : Round) :
    (fns.get f = none ∧ run_round fns cap budget (f :: rest) r = run_round fns cap budget rest r) ∨
      ∃ fd, fns.get f = some fd ∧
        ((run_round fns cap budget (f :: rest) r = { (recompute fd f r).charge with
            scc_exhausted := true
            global_exhausted := decide (budget < (recompute fd f r).charge.global_applied) } ∧
          (cap < (recompute fd f r).charge.scc_applied ∨ budget < (recompute fd f r).charge.global_applied)) ∨
        (run_round fns cap budget (f :: rest) r = run_round fns cap budget rest (recompute fd f r).charge ∧
          (recompute fd f r).charge.scc_applied ≤ cap)) := by
  cases hf : fns.get f with
  | none => exact .inl ⟨rfl, by simp only [run_round, hf]⟩
  | some fd =>
    refine .inr ⟨fd, rfl, ?_⟩
    by_cases hcut : cap < (recompute fd f r).charge.scc_applied ∨ budget < (recompute fd f r).charge.global_applied
    · exact .inl ⟨by simp only [run_round, hf, hcut, if_true], hcut⟩
    · refine .inr ⟨by simp only [run_round, hf, hcut, if_false], ?_⟩
      omega

/-- Recomputing keeps a property of tables that every recomputed summary keeps. -/
theorem run_round_keeps {P : Summaries → Prop} (hstep : ∀ t, P t → ∀ f ∈ comp, ∀ fd, fns.get f = some fd →
      P (Function.update t f (some (compute_summary fd t)))) (h : P r.summaries) :
    P (run_round fns cap budget comp r).summaries := by
  induction comp generalizing r with
  | nil => exact h
  | cons f rest ih =>
    have hrest := fun t ht g hg => hstep t ht g (List.mem_cons_of_mem f hg)
    obtain ⟨_, hrun⟩ | ⟨fd, hf, hcases⟩ := run_round_cons fns cap budget f rest r
    · rw [hrun]
      exact ih hrest h
    · have hnext : P (recompute fd f r).charge.summaries := by
        obtain ⟨_, hsame⟩ | hupdate := recompute_cases fd f r
        · rw [hsame]
          exact h
        · rw [hupdate]
          exact hstep r.summaries h f List.mem_cons_self fd hf
      obtain ⟨hrun, _⟩ | ⟨hrun, _⟩ := hcases
      · rw [hrun]
        exact hnext
      · rw [hrun]
        exact ih hrest hnext

theorem run_rounds_keeps {P : Summaries → Prop} (hstep : ∀ t, P t → ∀ f ∈ comp, ∀ fd, fns.get f = some fd →
      P (Function.update t f (some (compute_summary fd t)))) {fuel : Nat} (h : P r.summaries) :
    P (run_rounds fns cap budget comp fuel r).summaries := by
  induction fuel generalizing r with
  | zero => exact h
  | succ fuel ih =>
    have hround : P (run_round fns cap budget comp { r with changed := false }).summaries :=
      run_round_keeps hstep h
    simp only [run_rounds]
    split
    · exact hround
    · exact ih hround

/-- A change is not taken back. -/
theorem run_round_changed (h : r.changed = true) : (run_round fns cap budget comp r).changed = true := by
  induction comp generalizing r with
  | nil => exact h
  | cons f rest ih =>
    have hnext : ∀ fd, (recompute fd f r).charge.changed = true := by
      intro fd
      obtain ⟨_, hsame⟩ | hupdate := recompute_cases fd f r
      · rw [hsame]
        exact h
      · rw [hupdate]
        rfl
    obtain ⟨_, hrun⟩ | ⟨fd, _, ⟨hrun, _⟩ | ⟨hrun, _⟩⟩ := run_round_cons fns cap budget f rest r
    · rw [hrun]
      exact ih h
    · rw [hrun]
      exact hnext fd
    · rw [hrun]
      exact ih (hnext fd)

/-- A pass that changes nothing and is not cut short found every member settled. -/
theorem run_round_quiet (hquiet : (run_round fns cap budget comp r).changed = false)
    (hcut : (run_round fns cap budget comp r).scc_exhausted = false) :
    (run_round fns cap budget comp r).summaries = r.summaries ∧
      ∀ f ∈ comp, SettledAt fns r.summaries f := by
  induction comp generalizing r with
  | nil => exact ⟨rfl, by simp⟩
  | cons f rest ih =>
    obtain ⟨hnone, hrun⟩ | ⟨fd, hf, ⟨hrun, _⟩ | ⟨hrun, _⟩⟩ := run_round_cons fns cap budget f rest r
    · rw [hrun] at hquiet hcut ⊢
      obtain ⟨hsame, hsettled⟩ := ih hquiet hcut
      refine ⟨hsame, fun g hg fd hfd => ?_⟩
      obtain rfl | hg := List.mem_cons.mp hg
      · simp [hnone] at hfd
      · exact hsettled g hg fd hfd
    · rw [hrun] at hcut
      simp at hcut
    · rw [hrun] at hquiet hcut ⊢
      obtain ⟨hstays, hsettled⟩ := ih hquiet hcut
      obtain ⟨hfsettled, hsame⟩ | hupdate := recompute_cases fd f r
      · rw [hsame] at hstays hsettled ⊢
        refine ⟨hstays, fun g hg gd hgd => ?_⟩
        obtain rfl | hg := List.mem_cons.mp hg
        · rw [hf] at hgd
          cases hgd
          exact hfsettled
        · exact hsettled g hg gd hgd
      · -- an update shows as a change
        have hchanged : (recompute fd f r).charge.changed = true := by
          rw [hupdate]
          rfl
        rw [run_round_changed hchanged] at hquiet
        cases hquiet

/-- A pass that is not cut short charges a unit for every member, within the cap. -/
theorem run_round_work (hmember : ∃ f ∈ comp, (fns.get f).isSome)
    (hcut : (run_round fns cap budget comp r).scc_exhausted = false) :
    r.scc_applied < (run_round fns cap budget comp r).scc_applied ∧
      (run_round fns cap budget comp r).scc_applied ≤ cap := by
  have hgrow : ∀ (comp : List String) (r : Round), r.scc_applied ≤ (run_round fns cap budget comp r).scc_applied ∧
      ((run_round fns cap budget comp r).scc_exhausted = false → r.scc_applied ≤ cap →
        (run_round fns cap budget comp r).scc_applied ≤ cap) := by
    intro comp
    induction comp with
    | nil => exact fun r => ⟨le_refl _, fun _ h => h⟩
    | cons f rest ih =>
      intro r
      obtain ⟨_, hrun⟩ | ⟨fd, _, ⟨hrun, _⟩ | ⟨hrun, hle⟩⟩ := run_round_cons fns cap budget f rest r
      · rw [hrun]
        exact ih r
      · rw [hrun]
        refine ⟨?_, by simp⟩
        simp only [recompute_charge]
        omega
      · rw [hrun]
        have hnext := recompute_charge fd f r
        obtain ⟨hmono, hbound⟩ := ih (recompute fd f r).charge
        exact ⟨by omega, fun h _ => hbound h hle⟩
  induction comp generalizing r with
  | nil => simp at hmember
  | cons f rest ih =>
    obtain ⟨hnone, hrun⟩ | ⟨fd, _, ⟨hrun, _⟩ | ⟨hrun, hle⟩⟩ := run_round_cons fns cap budget f rest r
    · rw [hrun] at hcut ⊢
      refine ih ?_ hcut
      obtain ⟨g, hg, hsome⟩ := hmember
      obtain rfl | hg := List.mem_cons.mp hg
      · simp [hnone] at hsome
      · exact ⟨g, hg, hsome⟩
    · rw [hrun] at hcut
      simp at hcut
    · rw [hrun] at hcut ⊢
      have hnext := recompute_charge fd f r
      obtain ⟨hmono, hbound⟩ := hgrow rest (recompute fd f r).charge
      exact ⟨by omega, hbound hcut hle⟩

/-- The index's budget runs out only in a pass that is cut short. -/
theorem run_round_global (hcut : (run_round fns cap budget comp r).scc_exhausted = false) :
    (run_round fns cap budget comp r).global_exhausted = r.global_exhausted := by
  induction comp generalizing r with
  | nil => rfl
  | cons f rest ih =>
    obtain ⟨_, hrun⟩ | ⟨fd, _, ⟨hrun, _⟩ | ⟨hrun, _⟩⟩ := run_round_cons fns cap budget f rest r
    · rw [hrun] at hcut ⊢
      exact ih hcut
    · rw [hrun] at hcut
      simp at hcut
    · rw [hrun] at hcut ⊢
      rw [ih hcut, recompute_global_exhausted]

/-- A loop that is not cut short ends with every member settled. -/
theorem run_rounds_settled (hmember : ∃ f ∈ comp, (fns.get f).isSome) {fuel : Nat}
    (hcut : (run_rounds fns cap budget comp fuel r).scc_exhausted = false) (hcap : r.scc_applied ≤ cap)
    (hfuel : cap < r.scc_applied + fuel) :
    (run_rounds fns cap budget comp fuel r).global_exhausted = r.global_exhausted ∧
      ∀ f ∈ comp, SettledAt fns (run_rounds fns cap budget comp fuel r).summaries f := by
  induction fuel generalizing r with
  | zero => omega
  | succ fuel ih =>
    simp only [run_rounds] at hcut ⊢
    split at hcut
    · rename_i hend
      rw [if_pos hend]
      have hquiet : (run_round fns cap budget comp { r with changed := false }).changed = false := by
        simpa [hcut] using hend
      obtain ⟨hsame, hsettled⟩ := run_round_quiet hquiet hcut
      rw [hsame]
      exact ⟨run_round_global hcut, hsettled⟩
    · rename_i hend
      rw [if_neg hend]
      have hcut' : (run_round fns cap budget comp { r with changed := false }).scc_exhausted = false := by
        simp only [Bool.or_eq_true, Bool.not_eq_eq_eq_not, Bool.not_true, not_or, Bool.not_eq_true] at hend
        exact hend.2
      obtain ⟨hgrow, hbound⟩ := run_round_work hmember hcut'
      obtain ⟨hglobal, hsettled⟩ := ih hcut hbound (by simp only at hgrow; omega)
      exact ⟨hglobal.trans (run_round_global hcut'), hsettled⟩

end rounds

section comps

variable {fns : FnMap} {budget : Nat} {comp : List String} {s : Fixpoint}

theorem mem_keys {f : String} : f ∈ fns.keys ↔ (fns.get f).isSome := by
  rw [Option.isSome_iff_exists]
  constructor
  · intro hf
    obtain ⟨entry, hentry, rfl⟩ := List.mem_map.mp hf
    exact ⟨entry.2, FnMap.get_eq_some.mpr hentry⟩
  · rintro ⟨fd, hf⟩
    exact List.mem_map.mpr ⟨(f, fd), FnMap.get_eq_some.mp hf, rfl⟩

theorem mem_call_succ {f g : String} {fd : FnDataflow} (hf : fns.get f = some fd) :
    g ∈ call_succ fns f ↔ g ∈ fns.keys ∧ ∃ cs ∈ fd.calls, cs.callee_fqn = some g := by
  unfold call_succ
  rw [hf]
  simp only [mem_sort_by, List.mem_dedup, List.mem_filter, List.mem_filterMap, decide_eq_true_eq]
  exact and_comm

/-- The call graph the components are those of. -/
def call_adjacency (fns : FnMap) (f : String) : List String :=
  (call_succ fns f).filter fun g => g ∈ fns.keys

theorem call_sccs_spec (fns : FnMap) : Condensation (call_adjacency fns) fns.keys (call_sccs fns) :=
  tarjan_sccs_spec _ _ _

/-- A recomputed summary is sound over sound ones. -/
theorem SoundTable.update {t : Summaries} {f : String} {fd : FnDataflow} (ht : SoundTable fns t)
    (hf : fns.get f = some fd) : SoundTable fns (Function.update t f (some (compute_summary fd t))) := by
  intro g facts hfacts
  by_cases heq : g = f
  · subst heq
    rw [Function.update_self] at hfacts
    obtain rfl := Option.some.inj hfacts
    exact ⟨by rw [hf]; rfl, compute_summary_sound ht hf⟩
  · rw [Function.update_of_ne heq] at hfacts
    exact ht g facts hfacts

/-- The loop of a component changes no summary outside it. -/
theorem settle_comp_frame (budget : Nat) (comp : List String) {g : String} (hg : g ∉ comp) :
    (settle_comp fns budget comp s).summaries g = s.summaries g := by
  refine @run_rounds_keeps fns _ _ comp _ (fun t => t g = s.summaries g) (fun t ht f hf fd _ => ?_) _ rfl
  have hne : g ≠ f := fun heq => hg (heq ▸ hf)
  rw [Function.update_of_ne hne]
  exact ht

/-- The loop of a component keeps the summaries sound. -/
theorem settle_comp_sound (budget : Nat) (comp : List String) (hsound : SoundTable fns s.summaries) :
    SoundTable fns (settle_comp fns budget comp s).summaries :=
  run_rounds_keeps (fun _ ht _ _ _ hf => ht.update hf) hsound

/-- A component that is not cut short is settled, and the index's budget is left. -/
theorem settle_comp_settled (hmember : ∃ f ∈ comp, (fns.get f).isSome)
    (hcut : (settle_comp fns budget comp s).scc_exhausted = false) :
    (settle_comp fns budget comp s).global_exhausted = s.global_exhausted ∧
      ∀ f ∈ comp, SettledAt fns (settle_comp fns budget comp s).summaries f :=
  run_rounds_settled hmember hcut (Nat.zero_le _) (by simp)

/-- A settled function stays settled while only others change that it does not call. -/
theorem SettledAt.of_agree {t t' : Summaries} {f : String} (h : SettledAt fns t f)
    (ht : SoundTable fns t) (ht' : SoundTable fns t') (hf : t' f = t f)
    (hcallees : ∀ g ∈ call_succ fns f, t' g = t g) : SettledAt fns t' f := by
  intro fd hfd
  have hnone : ∀ (t : Summaries), SoundTable fns t → ∀ g, g ∉ fns.keys → t g = none := by
    intro t ht g hg
    cases hfacts : t g with
    | none => rfl
    | some facts => exact absurd (mem_keys.mpr (ht g facts hfacts).1) hg
  rw [hf, h fd hfd]
  refine congrArg some (compute_summary_congr fun cs hcs g hg => ?_)
  by_cases hkey : g ∈ fns.keys
  · exact (hcallees g ((mem_call_succ hfd).mpr ⟨hkey, cs, hcs, hg⟩)).symm
  · rw [hnone t ht g hkey, hnone t' ht' g hkey]

theorem run_comp_exceeded_le (comp : List String) (s : Fixpoint) :
    s.budget_exceeded_sccs ≤ (run_comp fns budget s comp).budget_exceeded_sccs :=
  Nat.le_add_right _ _

theorem run_comps_exceeded_le (fns : FnMap) (budget : Nat) (after : List (List String)) (s : Fixpoint) :
    s.budget_exceeded_sccs ≤ (run_comps fns budget after s).budget_exceeded_sccs := by
  induction after generalizing s with
  | nil => exact le_refl _
  | cons comp rest ih =>
    simp only [run_comps]
    split
    · exact run_comp_exceeded_le comp s
    · exact (run_comp_exceeded_le comp s).trans (ih (run_comp fns budget s comp))

/-- A run keeps a property of tables that every recomputed summary keeps. -/
theorem run_comps_keeps {P : Summaries → Prop} (hstep : ∀ t, P t → ∀ f fd, fns.get f = some fd →
      P (Function.update t f (some (compute_summary fd t)))) (after : List (List String)) (h : P s.summaries) :
    P (run_comps fns budget after s).summaries := by
  induction after generalizing s with
  | nil => exact h
  | cons comp rest ih =>
    have hnext : P (run_comp fns budget s comp).summaries :=
      run_rounds_keeps (fun t ht f _ fd hf => hstep t ht f fd hf) h
    simp only [run_comps]
    split
    · exact hnext
    · exact ih hnext

/-- Every recorded fact of a run is a flow to the return, whether it was cut short or not. -/
theorem run_fixpoint_sound (fns : FnMap) (budget : Nat) : SoundTable fns (run_fixpoint fns budget).summaries := by
  refine run_comps_keeps (fun t ht f fd hf => ht.update hf) (call_sccs fns) fun g facts hfacts => ?_
  cases hfacts

/-- Every component has a member that is a function of the run. -/
theorem exists_member {comp : List String} (hcomp : comp ∈ call_sccs fns) : ∃ f ∈ comp, (fns.get f).isSome := by
  have hspec := call_sccs_spec fns
  obtain ⟨f, hf⟩ := List.exists_mem_of_ne_nil comp (hspec.nonempty comp hcomp)
  exact ⟨f, hf, mem_keys.mp ((hspec.mem_iff f).mp (List.mem_flatten.mpr ⟨comp, hcomp, hf⟩))⟩

/-- Where no component is cut short, the first one is not, and the run goes on. -/
theorem run_comps_uncut {rest : List (List String)} (hmember : ∃ f ∈ comp, (fns.get f).isSome)
    (hleft : s.global_exhausted = false) (hnone : (run_comps fns budget (comp :: rest) s).budget_exceeded_sccs = 0) :
    (settle_comp fns budget comp s).scc_exhausted = false ∧ (run_comp fns budget s comp).global_exhausted = false ∧
      run_comps fns budget (comp :: rest) s = run_comps fns budget rest (run_comp fns budget s comp) := by
  simp only [run_comps] at hnone ⊢
  have hcut : (settle_comp fns budget comp s).scc_exhausted = false := by
    cases hexhausted : (settle_comp fns budget comp s).scc_exhausted with
    | false => rfl
    | true =>
      have hcounted : (run_comp fns budget s comp).budget_exceeded_sccs = s.budget_exceeded_sccs + 1 := by
        simp [run_comp, hexhausted]
      have hle := run_comps_exceeded_le fns budget rest (run_comp fns budget s comp)
      split at hnone <;> omega
  have hgoes : (run_comp fns budget s comp).global_exhausted = false := (settle_comp_settled hmember hcut).1.trans hleft
  exact ⟨hcut, hgoes, by simp only [hgoes, Bool.false_eq_true, if_false]⟩

/-- Where no component is cut short, the index's budget is left. -/
theorem run_comps_global (comps : List (List String)) (hmember : ∀ comp ∈ comps, ∃ f ∈ comp, (fns.get f).isSome)
    (hleft : s.global_exhausted = false) (hnone : (run_comps fns budget comps s).budget_exceeded_sccs = 0) :
    (run_comps fns budget comps s).global_exhausted = false := by
  induction comps generalizing s with
  | nil => exact hleft
  | cons comp rest ih =>
    obtain ⟨_, hgoes, hrun⟩ := run_comps_uncut (hmember comp List.mem_cons_self) hleft hnone
    rw [hrun] at hnone ⊢
    exact ih (fun c hc => hmember c (List.mem_cons_of_mem comp hc)) hgoes hnone

theorem run_fixpoint_global (hnone : (run_fixpoint fns budget).budget_exceeded_sccs = 0) :
    (run_fixpoint fns budget).global_exhausted = false :=
  run_comps_global (call_sccs fns) (fun _ hcomp => exists_member hcomp) rfl hnone

/-- A run in which no component is cut short settles every function. -/
theorem run_comps_settled (before : List (List String)) {after : List (List String)} (hsplit : call_sccs fns = before ++ after)
    (hsound : SoundTable fns s.summaries) (hdone : ∀ f ∈ before.flatten, SettledAt fns s.summaries f)
    (hleft : s.global_exhausted = false)
    (hnone : (run_comps fns budget after s).budget_exceeded_sccs = 0) :
    ∀ f ∈ (call_sccs fns).flatten, SettledAt fns (run_comps fns budget after s).summaries f := by
  induction after generalizing before s with
  | nil =>
    rw [List.append_nil] at hsplit
    rw [hsplit]
    exact hdone
  | cons comp rest ih =>
    have hspec := call_sccs_spec fns
    have hmember : ∃ f ∈ comp, (fns.get f).isSome := exists_member (by rw [hsplit]; simp)
    obtain ⟨hcut, hgoes, hrun⟩ := run_comps_uncut hmember hleft hnone
    obtain ⟨_, hsettled⟩ := settle_comp_settled hmember hcut
    have hsound' := settle_comp_sound budget comp hsound
    have hframe : ∀ g, g ∉ comp → (settle_comp fns budget comp s).summaries g = s.summaries g :=
      fun g hg => settle_comp_frame budget comp hg
    rw [hrun] at hnone ⊢
    refine ih (before ++ [comp]) (by simp [hsplit]) hsound' ?_ hgoes hnone
    intro f hf
    rw [List.flatten_append, List.flatten_singleton] at hf
    obtain hf | hf := List.mem_append.mp hf
    · -- what a function of an earlier component calls is in an earlier component
      have hnodup := hspec.nodup
      rw [hsplit, List.flatten_append, List.flatten_cons, List.nodup_append] at hnodup
      have hapart : ∀ g ∈ before.flatten, g ∉ comp := fun g hg hmem =>
        hnodup.2.2 g hg g (List.mem_append_left _ hmem) rfl
      refine (hdone f hf).of_agree hsound hsound' (hframe f (hapart f hf)) fun g hg => hframe g (hapart g ?_)
      obtain ⟨c, hc, hfc⟩ := List.mem_flatten.mp hf
      obtain ⟨pre, post, hpre⟩ := List.append_of_mem hc
      have hsplit' : call_sccs fns = pre ++ c :: (post ++ comp :: rest) := by
        rw [hsplit, hpre, List.append_assoc, List.cons_append]
      have hgkey : g ∈ fns.keys := by
        have hfkey : f ∈ fns.keys := (hspec.mem_iff f).mp (by rw [hsplit]; simp [hf])
        obtain ⟨fd, hfd⟩ := Option.isSome_iff_exists.mp (mem_keys.mp hfkey)
        exact ((mem_call_succ hfd).mp hg).1
      have hadj : g ∈ call_adjacency fns f := List.mem_filter.mpr ⟨hg, by simpa using hgkey⟩
      rw [hpre, List.flatten_append, List.flatten_cons]
      obtain hlow | hsame := hspec.ordered pre c _ hsplit' f hfc g hadj
      · exact List.mem_append_left _ hlow
      · exact List.mem_append_right _ (List.mem_append_left _ hsame)
    · exact hsettled f hf

/-- A run in which no component is cut short has sound and settled summaries. -/
theorem run_fixpoint_settled (hnone : (run_fixpoint fns budget).budget_exceeded_sccs = 0) :
    SoundTable fns (run_fixpoint fns budget).summaries ∧
      ∀ f, SettledAt fns (run_fixpoint fns budget).summaries f := by
  have hempty : SoundTable fns fun _ => none := by
    intro g facts hfacts
    cases hfacts
  refine ⟨run_fixpoint_sound fns budget, fun f fd hfd => ?_⟩
  have hmem : f ∈ (call_sccs fns).flatten := by
    rw [(call_sccs_spec fns).mem_iff, mem_keys, hfd]
    rfl
  exact run_comps_settled [] rfl hempty (by simp) rfl hnone f hmem fd hfd

end comps

end cgx.resolve
