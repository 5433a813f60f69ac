import Mathlib.Data.Set.Function
import Cgx.Resolve.Rounds

open cgx.core carry sorting tarjan Relation Std

namespace cgx.resolve

/-! ### Runs that are not cut short -/

/-- The loop over a component takes the table `t` to `t'`: passes up to a quiet one. -/
def Settles (fns : FnMap) (comp : List String) (t t' : Summaries) : Prop :=
  ∃ n, (round fns comp)^[n] t = t' ∧ Quiet fns comp t'

section uncut

variable {fns : FnMap} {cap budget : Nat} {comp : List String} {r : Round} {s : Fixpoint} {t t' : Summaries}

/-- A pass that is not cut short recomputes every member. -/
theorem run_round_uncut (hcut : (run_round fns cap budget comp r).scc_exhausted = false) :
    (run_round fns cap budget comp r).summaries = round fns comp r.summaries := by
  induction comp generalizing r with
  | nil => rfl
  | cons f rest ih =>
    obtain ⟨hnone, hrun⟩ | ⟨fd, hfd, ⟨hrun, _⟩ | ⟨hrun, _⟩⟩ := run_round_cons fns cap budget f rest r
    · rw [hrun] at hcut ⊢
      rw [ih hcut, round, round, List.foldl_cons, recompute_at_none hnone]
    · rw [hrun] at hcut
      cases hcut
    · rw [hrun] at hcut ⊢
      rw [ih hcut, recompute_summaries hfd, round, round, List.foldl_cons]

/-- A loop that is not cut short ends with a quiet pass. -/
theorem run_rounds_uncut (hmember : ∃ f ∈ comp, (fns.get f).isSome) {fuel : Nat}
    (hcut : (run_rounds fns cap budget comp fuel r).scc_exhausted = false) (hcap : r.scc_applied ≤ cap)
    (hfuel : cap < r.scc_applied + fuel) :
    Settles fns comp r.summaries (run_rounds fns cap budget comp fuel r).summaries := by
  induction fuel generalizing r with
  | zero => omega
  | succ fuel ih =>
    simp only [run_rounds] at hcut ⊢
    split at hcut
    case isTrue hend =>
      rw [if_pos hend]
      have hquiet : (run_round fns cap budget comp { r with changed := false }).changed = false := by
        simpa [hcut] using hend
      have hround : _ = round fns comp r.summaries := run_round_uncut (r := { r with changed := false }) hcut
      have hsame : _ = r.summaries := (run_round_quiet hquiet hcut).1
      rw [hsame] at hround ⊢
      exact ⟨0, rfl, hround.symm⟩
    case isFalse hend =>
      rw [if_neg hend]
      have hcut' : (run_round fns cap budget comp { r with changed := false }).scc_exhausted = false := by
        cases hexhausted : (run_round fns cap budget comp { r with changed := false }).scc_exhausted with
        | false => rfl
        | true => simp [hexhausted] at hend
      obtain ⟨hgrow, hbound⟩ := run_round_work hmember hcut'
      have hround : _ = round fns comp r.summaries := run_round_uncut (r := { r with changed := false }) hcut'
      obtain ⟨n, hn, hquiet⟩ := ih hcut hbound (by simp only at hgrow; omega)
      rw [hround] at hn
      exact ⟨n + 1, hn, hquiet⟩

theorem settle_comp_uncut (hmember : ∃ f ∈ comp, (fns.get f).isSome)
    (hcut : (settle_comp fns budget comp s).scc_exhausted = false) :
    Settles fns comp s.summaries (settle_comp fns budget comp s).summaries :=
  run_rounds_uncut hmember hcut (Nat.zero_le _) (by simp)

/-- A run changes no summary outside its components. -/
theorem run_comps_frame (comps : List (List String)) {f : String} (hf : f ∉ comps.flatten) :
    (run_comps fns budget comps s).summaries f = s.summaries f := by
  induction comps generalizing s with
  | nil => rfl
  | cons comp rest ih =>
    rw [List.flatten_cons, List.mem_append, not_or] at hf
    have hnext : (run_comp fns budget s comp).summaries f = s.summaries f := settle_comp_frame budget comp hf.1
    simp only [run_comps]
    split
    · exact hnext
    · rw [ih hf.2, hnext]

/-- In a run in which nothing is cut short, the loop over a component starts with the summaries
of the components before it and leaves those that the run ends with. -/
theorem run_comps_at {before after : List (List String)}
    (hmember : ∀ c ∈ before ++ comp :: after, ∃ f ∈ c, (fns.get f).isSome) (hleft : s.global_exhausted = false)
    (hnone : (run_comps fns budget (before ++ comp :: after) s).budget_exceeded_sccs = 0) :
    ∃ t t', Settles fns comp t t' ∧ (∀ f, f ∉ before.flatten → t f = s.summaries f) ∧ (∀ f, f ∉ comp → t' f = t f) ∧
      ∀ f, f ∉ after.flatten → (run_comps fns budget (before ++ comp :: after) s).summaries f = t' f := by
  induction before generalizing s with
  | nil =>
    rw [List.nil_append] at hmember hnone ⊢
    obtain ⟨hcut, _, hrun⟩ := run_comps_uncut (hmember comp List.mem_cons_self) hleft hnone
    refine ⟨s.summaries, _, settle_comp_uncut (hmember comp List.mem_cons_self) hcut, fun _ _ => rfl,
      fun f hf => settle_comp_frame budget comp hf, fun f hf => ?_⟩
    rw [hrun, run_comps_frame after hf]
    rfl
  | cons first before ih =>
    rw [List.cons_append] at hmember hnone ⊢
    obtain ⟨_, hgoes, hrun⟩ := run_comps_uncut (hmember first List.mem_cons_self) hleft hnone
    rw [hrun] at hnone ⊢
    obtain ⟨t, t', hsettles, hstart, hframe, hend⟩ := ih (fun c hc => hmember c (List.mem_cons_of_mem first hc)) hgoes hnone
    refine ⟨t, t', hsettles, fun f hf => ?_, hframe, hend⟩
    rw [List.flatten_cons, List.mem_append, not_or] at hf
    rw [hstart f hf.2]
    exact settle_comp_frame budget first hf.1

end uncut

/-! ### Two runs that agree on some functions -/

/-- Both runs read the same of some functions, and these call only one another. -/
structure Agree (fns fns' : FnMap) (S : Set String) : Prop where
  same : ∀ f ∈ S, fns.get f = fns'.get f
  closed : ∀ f ∈ S, ∀ fd, fns.get f = some fd → ∀ cs ∈ fd.calls, ∀ g, cs.callee_fqn = some g → g ∈ S

/-- The members of a component and what they call. -/
def Around (fns : FnMap) (comp : List String) : Set String :=
  {g | g ∈ comp ∨ ∃ f ∈ comp, ∃ fd, fns.get f = some fd ∧ ∃ cs ∈ fd.calls, cs.callee_fqn = some g}

section agree

variable {fns fns' : FnMap} {S : Set String} {comp : List String} {t t' u u' : Summaries}

/-- Recomputing a member keeps two tables in agreement around the component. -/
theorem eqOn_recompute_at (h : Agree fns fns' S) (hcomp : ∀ f ∈ comp, f ∈ S) {f : String} (hf : f ∈ comp)
    (hsame : Set.EqOn t u (Around fns comp)) :
    Set.EqOn (recompute_at fns t f) (recompute_at fns' u f) (Around fns comp) := by
  have hget := h.same f (hcomp f hf)
  cases hfd : fns.get f with
  | none =>
    rw [recompute_at_none hfd, recompute_at_none (hget ▸ hfd)]
    exact hsame
  | some fd =>
    have hsummary : compute_summary fd t = compute_summary fd u :=
      compute_summary_congr fun cs hcs g hg => hsame (.inr ⟨f, hf, fd, hfd, cs, hcs, hg⟩)
    rw [recompute_at_eq hfd, recompute_at_eq (hget ▸ hfd), hsummary]
    intro g hg
    by_cases heq : g = f
    · rw [heq, Function.update_self, Function.update_self]
    · rw [Function.update_of_ne heq, Function.update_of_ne heq]
      exact hsame hg

theorem eqOn_round (h : Agree fns fns' S) (hcomp : ∀ f ∈ comp, f ∈ S) (hsame : Set.EqOn t u (Around fns comp)) :
    Set.EqOn (round fns comp t) (round fns' comp u) (Around fns comp) := by
  have hmembers : ∀ members : List String, (∀ f ∈ members, f ∈ comp) → ∀ t u, Set.EqOn t u (Around fns comp) →
      Set.EqOn (round fns members t) (round fns' members u) (Around fns comp) := by
    intro members
    induction members with
    | nil => exact fun _ _ _ hsame => hsame
    | cons f rest ih =>
      intro hmem t u hsame
      exact ih (fun g hg => hmem g (List.mem_cons_of_mem f hg)) _ _
        (eqOn_recompute_at h hcomp (hmem f List.mem_cons_self) hsame)
  exact hmembers comp (fun _ hf => hf) t u hsame

theorem eqOn_iterate (h : Agree fns fns' S) (hcomp : ∀ f ∈ comp, f ∈ S) (hsame : Set.EqOn t u (Around fns comp)) (n : Nat) :
    Set.EqOn ((round fns comp)^[n] t) ((round fns' comp)^[n] u) (Around fns comp) := by
  induction n with
  | zero => exact hsame
  | succ n ih =>
    rw [Function.iterate_succ_apply', Function.iterate_succ_apply']
    exact eqOn_round h hcomp ih

/-- More passes change nothing behind a quiet one. -/
theorem iterate_of_quiet {n m : Nat} (hn : (round fns comp)^[n] t = t') (hquiet : Quiet fns comp t') (hle : n ≤ m) :
    (round fns comp)^[m] t = t' := by
  obtain ⟨k, rfl⟩ := Nat.exists_eq_add_of_le hle
  rw [Nat.add_comm, Function.iterate_add_apply, hn]
  exact Function.iterate_fixed hquiet k

/-- Loops that start in agreement end in agreement, whatever passes each of them takes. -/
theorem eqOn_of_settles (h : Agree fns fns' S) (hcomp : ∀ f ∈ comp, f ∈ S) (hsame : Set.EqOn t u (Around fns comp))
    (ht : Settles fns comp t t') (hu : Settles fns' comp u u') : Set.EqOn t' u' (Around fns comp) := by
  obtain ⟨n, hn, hquiet⟩ := ht
  obtain ⟨m, hm, hquiet'⟩ := hu
  rw [← iterate_of_quiet hn hquiet (Nat.le_max_left n m), ← iterate_of_quiet hm hquiet' (Nat.le_max_right n m)]
  exact eqOn_iterate h hcomp hsame (max n m)

theorem Agree.mem_keys_iff (h : Agree fns fns' S) {f : String} (hf : f ∈ S) : f ∈ fns.keys ↔ f ∈ fns'.keys := by
  rw [mem_keys, mem_keys, h.same f hf]

theorem Agree.adjacency (h : Agree fns fns' S) {f : String} (hf : f ∈ S) :
    call_adjacency fns f = call_adjacency fns' f ∧ ∀ g ∈ call_adjacency fns f, g ∈ S := by
  cases hfd : fns.get f with
  | none =>
    have hnone : ∀ fns : FnMap, fns.get f = none → call_adjacency fns f = [] := by
      intro fns hfd
      rw [call_adjacency, call_succ, hfd]
      rfl
    rw [hnone fns hfd, hnone fns' (h.same f hf ▸ hfd)]
    exact ⟨rfl, fun g hg => nomatch hg⟩
  | some fd =>
    have hcallee : ∀ g ∈ fd.calls.filterMap CallSite.callee_fqn, g ∈ S := by
      intro g hg
      obtain ⟨cs, hcs, hcs_callee⟩ := List.mem_filterMap.mp hg
      exact h.closed f hf fd hfd cs hcs g hcs_callee
    have hsucc : call_succ fns f = call_succ fns' f := by
      rw [call_succ, call_succ, ← h.same f hf, hfd]
      simp only
      congr 2
      exact List.filter_congr fun g hg => decide_eq_decide.mpr (h.mem_keys_iff (hcallee g hg))
    have hmem : ∀ g ∈ call_succ fns f, g ∈ S := by
      intro g hg
      obtain ⟨_, cs, hcs, hcs_callee⟩ := (mem_call_succ hfd).mp hg
      exact h.closed f hf fd hfd cs hcs g hcs_callee
    refine ⟨?_, fun g hg => hmem g (List.mem_filter.mp hg).1⟩
    rw [call_adjacency, call_adjacency, ← hsucc]
    exact List.filter_congr fun g hg => decide_eq_decide.mpr (h.mem_keys_iff (hmem g hg))

/-- The component of a function on which two runs agree is the same in both. -/
theorem Agree.comp_eq (h : Agree fns fns' S) {comp' : List String} (hcomp : comp ∈ call_sccs fns)
    (hcomp' : comp' ∈ call_sccs fns') {f : String} (hS : f ∈ S) (hf : f ∈ comp) (hf' : f ∈ comp') :
    comp' = comp ∧ ∀ g ∈ comp, g ∈ S := by
  have hspec := call_sccs_spec fns
  have hspec' := call_sccs_spec fns'
  have hclosed : ∀ x, x ∈ S → ∀ y ∈ call_adjacency fns x, y ∈ S := fun x hx => (h.adjacency hx).2
  have hsame : ∀ x, x ∈ S → call_adjacency fns x = call_adjacency fns' x := fun x hx => (h.adjacency hx).1
  have hmem : ∀ g, g ∈ comp ↔ g ∈ comp' := fun g => hspec.mem_comp_of_same hspec' hclosed hsame hcomp hcomp' hS hf hf'
  have hperm : comp'.Perm comp := by
    have hnodup := (List.nodup_flatten.mp hspec.nodup).1 comp hcomp
    have hnodup' := (List.nodup_flatten.mp hspec'.nodup).1 comp' hcomp'
    exact (List.perm_ext_iff_of_nodup hnodup' hnodup).mpr fun g => (hmem g).symm
  have hsorted := sorted_tarjan_sccs compare fns.keys (call_succ fns) comp hcomp
  have hsorted' := sorted_tarjan_sccs compare fns'.keys (call_succ fns') comp' hcomp'
  refine ⟨?_, fun g hg => ?_⟩
  · rw [← sort_by_eq_self hsorted']
    exact sort_by_eq_of_perm (fun _ _ _ _ heq => LawfulEqCmp.eq_of_compare heq) hsorted hperm
  · exact (Condensation.reach_of_same hclosed hsame hS (hspec.connected comp hcomp f hf g hg)).1

/-- The loop over a component, in a run in which nothing is cut short: it starts with the final
summaries of the components before it and no others, and leaves its own final ones. -/
theorem run_fixpoint_at {budget : Nat} (hnone : (run_fixpoint fns budget).budget_exceeded_sccs = 0)
    {before after : List (List String)} (hsplit : call_sccs fns = before ++ comp :: after) :
    ∃ t t', Settles fns comp t t' ∧ (∀ f, f ∉ before.flatten → t f = none) ∧
      (∀ f ∈ before.flatten, t f = (run_fixpoint fns budget).summaries f) ∧
      ∀ f ∈ comp, t' f = (run_fixpoint fns budget).summaries f := by
  have hmember : ∀ c ∈ before ++ comp :: after, ∃ f ∈ c, (fns.get f).isSome := fun c hc => exists_member (hsplit ▸ hc)
  rw [run_fixpoint, hsplit] at hnone ⊢
  obtain ⟨t, t', hsettles, hstart, hframe, hend⟩ := run_comps_at hmember rfl hnone
  have hnodup := (call_sccs_spec fns).nodup
  rw [hsplit, List.flatten_append, List.flatten_cons, List.nodup_append, List.nodup_append] at hnodup
  obtain ⟨_, ⟨_, _, hafter⟩, hbefore⟩ := hnodup
  refine ⟨t, t', hsettles, hstart, fun f hf => ?_, fun f hf => ?_⟩
  · have hcomp : f ∉ comp := fun hmem => hbefore f hf f (List.mem_append_left _ hmem) rfl
    rw [hend f fun hmem => hbefore f hf f (List.mem_append_right _ hmem) rfl, hframe f hcomp]
  · rw [hend f fun hmem => hafter f hf f hmem rfl]

/-- What a component calls outside itself is settled before it, or is no function of the run. -/
theorem callee_before {before after : List (List String)} (hsplit : call_sccs fns = before ++ comp :: after) {f g : String}
    (hf : f ∈ comp) {fd : FnDataflow} (hfd : fns.get f = some fd) {cs : CallSite} (hcs : cs ∈ fd.calls)
    (hcallee : cs.callee_fqn = some g) (hg : g ∉ comp) : g ∈ before.flatten ↔ g ∈ fns.keys := by
  have hspec := call_sccs_spec fns
  constructor
  · intro hmem
    refine (hspec.mem_iff g).mp ?_
    rw [hsplit, List.flatten_append]
    exact List.mem_append_left _ hmem
  · intro hkey
    have hsucc : g ∈ call_succ fns f := (mem_call_succ hfd).mpr ⟨hkey, cs, hcs, hcallee⟩
    have hadj : g ∈ call_adjacency fns f := List.mem_filter.mpr ⟨hsucc, decide_eq_true hkey⟩
    exact (hspec.ordered before comp after hsplit f hf g hadj).resolve_right hg

theorem not_mem_before {before after : List (List String)} (hsplit : call_sccs fns = before ++ comp :: after) {f : String}
    (hf : f ∈ comp) : f ∉ before.flatten := by
  have hnodup := (call_sccs_spec fns).nodup
  rw [hsplit, List.flatten_append, List.flatten_cons, List.nodup_append] at hnodup
  exact fun hmem => hnodup.2.2 f hmem f (List.mem_append_left _ hf) rfl

/-- Runs that agree on some functions give them the same summaries, if none is cut short. -/
theorem Agree.summaries_eq (h : Agree fns fns' S) {budget budget' : Nat}
    (hnone : (run_fixpoint fns budget).budget_exceeded_sccs = 0)
    (hnone' : (run_fixpoint fns' budget').budget_exceeded_sccs = 0) {f : String} (hf : f ∈ S) :
    (run_fixpoint fns budget).summaries f = (run_fixpoint fns' budget').summaries f := by
  have hspec := call_sccs_spec fns
  have hspec' := call_sccs_spec fns'
  -- by the place of the component in the first run
  have hcomps : ∀ n before comp after, before.length = n → call_sccs fns = before ++ comp :: after →
      ∀ f ∈ comp, f ∈ S → (run_fixpoint fns budget).summaries f = (run_fixpoint fns' budget').summaries f := by
    intro n
    induction n using Nat.strong_induction_on with
    | _ n ih =>
      intro before comp after hlength hsplit f hf hS
      have hcomp : comp ∈ call_sccs fns := by rw [hsplit]; simp
      have hkey : f ∈ fns.keys := (hspec.mem_iff f).mp (List.mem_flatten.mpr ⟨comp, hcomp, hf⟩)
      obtain ⟨before', comp', after', hsplit', hf'⟩ := hspec'.exists_split ((h.mem_keys_iff hS).mp hkey)
      obtain ⟨rfl, hsub⟩ := h.comp_eq hcomp (by rw [hsplit']; simp) hS hf hf'
      obtain ⟨t, t', ht, htnone, htbefore, htend⟩ := run_fixpoint_at hnone hsplit
      obtain ⟨u, u', hu, hunone, hubefore, huend⟩ := run_fixpoint_at hnone' hsplit'
      have hsame : Set.EqOn t u (Around fns comp') := by
        intro g hg
        by_cases hgcomp : g ∈ comp'
        · rw [htnone g (not_mem_before hsplit hgcomp), hunone g (not_mem_before hsplit' hgcomp)]
        · obtain ⟨p, hp, fd, hfd, cs, hcs, hcallee⟩ := hg.resolve_left hgcomp
          have hgS : g ∈ S := h.closed p (hsub p hp) fd hfd cs hcs g hcallee
          have hbefore := callee_before hsplit hp hfd hcs hcallee hgcomp
          have hbefore' := callee_before hsplit' hp (h.same p (hsub p hp) ▸ hfd) hcs hcallee hgcomp
          by_cases hgkey : g ∈ fns.keys
          · have hmem := hbefore.mpr hgkey
            rw [htbefore g hmem, hubefore g (hbefore'.mpr ((h.mem_keys_iff hgS).mp hgkey))]
            obtain ⟨first, hfirst, hgfirst⟩ := List.mem_flatten.mp hmem
            obtain ⟨front, back, rfl⟩ := List.append_of_mem hfirst
            refine ih front.length ?_ front first (back ++ comp' :: after) rfl ?_ g hgfirst hgS
            · rw [← hlength, List.length_append, List.length_cons]
              omega
            · rw [hsplit, List.append_assoc, List.cons_append]
          · rw [htnone g fun hmem => hgkey (hbefore.mp hmem),
              hunone g fun hmem => hgkey ((h.mem_keys_iff hgS).mpr (hbefore'.mp hmem))]
      rw [← htend f hf, ← huend f hf]
      exact eqOn_of_settles h hsub hsame ht hu (.inl hf)
  by_cases hkey : f ∈ fns.keys
  · obtain ⟨before, comp, after, hsplit, hfcomp⟩ := hspec.exists_split hkey
    exact hcomps before.length before comp after rfl hsplit f hfcomp hf
  · have hempty : ∀ (fns : FnMap) (budget : Nat), f ∉ fns.keys → (run_fixpoint fns budget).summaries f = none := by
      intro fns budget hkey
      cases hfacts : (run_fixpoint fns budget).summaries f with
      | none => rfl
      | some facts => exact absurd (mem_keys.mpr (run_fixpoint_sound fns budget f facts hfacts).1) hkey
    rw [hempty fns budget hkey, hempty fns' budget' fun hmem => hkey ((h.mem_keys_iff hf).mpr hmem)]

end agree

end cgx.resolve
