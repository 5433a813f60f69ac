import Mathlib.Algebra.BigOperators.Group.Finset.Basic
import Mathlib.Algebra.Order.BigOperators.Group.Finset
import Mathlib.Logic.Function.Iterate
import Cgx.Resolve.Recompute
import Cgx.Resolve.Settle

open cgx.core carry Relation

namespace cgx.resolve

section loop

variable (fns : FnMap)

/-- Recompute a member in place, without a budget. -/
def recompute_at (t : Summaries) (f : String) : Summaries :=
  match fns.get f with
  | none => t
  | some fd => if t f ≠ some (compute_summary fd t) then Function.update t f (some (compute_summary fd t)) else t

/-- One pass over the members, without a budget. -/
def round (comp : List String) (t : Summaries) : Summaries :=
  comp.foldl (recompute_at fns) t

/-- A pass in which no member's summary changes. -/
def Quiet (comp : List String) (t : Summaries) : Prop :=
  round fns comp t = t

/-- The loop without a budget comes to the table `t` with these components left: it starts
with all of them, makes passes over the first, and goes on after a quiet one. -/
inductive Comes : List (List String) → Summaries → Prop
  | start : Comes (call_sccs fns) fun _ => none
  | round {comp : List String} {rest : List (List String)} {t : Summaries} (h : Comes (comp :: rest) t) :
      Comes (comp :: rest) (round fns comp t)
  | next {comp : List String} {rest : List (List String)} {t : Summaries} (h : Comes (comp :: rest) t)
      (hquiet : Quiet fns comp t) : Comes rest t

/-- The searches over the current summaries still carry to every recorded formal of `f` what
was recorded: what bounds their visits to it bounds the fact. -/
def StillCarries (t : Summaries) (f : String) : Prop :=
  ∀ fd facts, fns.get f = some fd → t f = some facts → ∀ sf ∈ facts, ∀ b : Payload,
    (∀ visit ∈ return_visits fd t, formal_idx fd visit.1 = some sf.formal_in_idx → visit.2 ≤ b) →
      (sf.transform, sf.condition) ≤ b

/-- This holds before every recomputation of a pass. -/
def RoundCarries : List String → Summaries → Prop
  | [], _ => True
  | f :: rest, t => StillCarries fns t f ∧ RoundCarries rest (recompute_at fns t f)

/-- This holds before every recomputation of the run. -/
def RunCarries : Prop :=
  ∀ comp rest t, Comes fns (comp :: rest) t → RoundCarries fns comp t

/-- The height of a summary: it is missing, or each of 256 formals is missing or at one of
seven levels. -/
def fact_height : Nat := 256 * 7 + 1

/-- Every component comes to a quiet pass, after no more passes than its size times the
height of a summary. -/
def TerminatesByItself : Prop :=
  ∀ comp rest t, Comes fns (comp :: rest) t →
    ∃ n ≤ comp.length * fact_height, Quiet fns comp ((round fns comp)^[n] t)

/-- A budget that covers such passes over every component. -/
def enough_budget : Nat :=
  10 * (fns.keys.length * (fns.keys.length * fact_height + 1))

end loop

section levels

/-- The level of a transform: a copy, one shape, or several. -/
def transform_level : Transform → Nat
  | .Copy => 0
  | .Other => 2
  | _ => 1

def payload_level (p : Payload) : Nat :=
  transform_level p.1 + p.2.precedence

theorem payload_level_le (p : Payload) : payload_level p ≤ 6 := by
  have htransform : transform_level p.1 ≤ 2 := by cases p.1 <;> decide
  have hcondition : p.2.precedence ≤ 4 := by cases p.2 <;> decide
  unfold payload_level
  omega

theorem transform_level_lt {a b : Transform} (hle : a ≤ b) (hne : a ≠ b) :
    transform_level a < transform_level b := by
  have hjoin : join_transform a b = b := sup_eq_right.mpr hle
  revert hjoin hne
  cases a <;> cases b <;> decide

theorem precedence_lt {a b : EdgeCondition} (hle : a ≤ b) (hne : a ≠ b) : a.precedence < b.precedence := by
  have hjoin : join_condition a b = b := sup_eq_right.mpr hle
  revert hjoin hne
  cases a <;> cases b <;> decide

/-- A greater payload has a greater level. -/
theorem payload_level_mono {p q : Payload} (hle : p ≤ q) :
    payload_level p ≤ payload_level q ∧ (p ≠ q → payload_level p < payload_level q) := by
  obtain ⟨htransform, hcondition⟩ := Prod.le_def.mp hle
  have h₁ : p.1 = q.1 ∨ transform_level p.1 < transform_level q.1 :=
    (eq_or_ne p.1 q.1).imp_right (transform_level_lt htransform)
  have h₂ : p.2 = q.2 ∨ p.2.precedence < q.2.precedence :=
    (eq_or_ne p.2 q.2).imp_right (precedence_lt hcondition)
  unfold payload_level
  obtain h₁ | h₁ := h₁ <;> obtain h₂ | h₂ := h₂
  · rw [h₁, h₂]
    exact ⟨le_refl _, fun hne => absurd (Prod.ext h₁ h₂) hne⟩
  · rw [h₁]
    exact ⟨by omega, fun _ => by omega⟩
  · rw [h₂]
    exact ⟨by omega, fun _ => by omega⟩
  · exact ⟨by omega, fun _ => by omega⟩

/-- The level of what is recorded for a formal. -/
def recorded_level : Option Payload → Nat
  | none => 0
  | some p => payload_level p + 1

/-- The level of the recorded facts of a function. -/
def facts_level (facts : UInt8 → Option Payload) : Nat :=
  ∑ i ∈ Finset.range 256, recorded_level (facts i.toUInt8)

theorem facts_level_le (facts : UInt8 → Option Payload) : facts_level facts ≤ 256 * 7 := by
  have hlevel : ∀ i ∈ Finset.range 256, recorded_level (facts i.toUInt8) ≤ 7 := by
    intro i _
    cases facts i.toUInt8 with
    | none => exact Nat.zero_le _
    | some p => exact Nat.succ_le_succ (payload_level_le p)
  have hsum := Finset.sum_le_card_nsmul (Finset.range 256) _ 7 hlevel
  simpa [facts_level] using hsum

/-- Every fact is kept, and carries at least what it did. -/
def FactsGrow (facts facts' : UInt8 → Option Payload) : Prop :=
  ∀ i p, facts i = some p → ∃ q, facts' i = some q ∧ p ≤ q

theorem recorded_level_mono {facts facts' : UInt8 → Option Payload} (h : FactsGrow facts facts') (i : UInt8) :
    recorded_level (facts i) ≤ recorded_level (facts' i) ∧
      (facts i ≠ facts' i → recorded_level (facts i) < recorded_level (facts' i)) := by
  cases hfact : facts i with
  | none =>
    refine ⟨Nat.zero_le _, fun hne => ?_⟩
    cases hfact' : facts' i with
    | none => exact absurd hfact'.symm hne
    | some q => exact Nat.succ_pos _
  | some p =>
    obtain ⟨q, hq, hle⟩ := h i p hfact
    obtain ⟨hmono, hstrict⟩ := payload_level_mono hle
    rw [hq]
    refine ⟨Nat.succ_le_succ hmono, fun hne => Nat.succ_lt_succ (hstrict fun heq => hne (heq ▸ rfl))⟩

/-- Facts that grow and change rise in level. -/
theorem facts_level_lt {facts facts' : UInt8 → Option Payload} (h : FactsGrow facts facts') (hne : facts ≠ facts') :
    facts_level facts < facts_level facts' := by
  obtain ⟨i, hi⟩ := Function.ne_iff.mp hne
  have hidx : i.toNat.toUInt8 = i := by simp
  refine Finset.sum_lt_sum (fun j _ => (recorded_level_mono h j.toUInt8).1) ⟨i.toNat, ?_, ?_⟩
  · exact Finset.mem_range.mpr i.toNat_lt
  · rw [hidx]
    exact (recorded_level_mono h i).2 hi

/-- The facts of a summary by formal index. -/
def fact_at (facts : List SummaryFact) (i : UInt8) : Option Payload :=
  (facts.find? fun sf => sf.formal_in_idx = i).map fun sf => (sf.transform, sf.condition)

theorem fact_at_compute_summary (fd : FnDataflow) (t : Summaries) :
    fact_at (compute_summary fd t) = summary_facts fd t := by
  funext i
  unfold fact_at
  cases hfind : (compute_summary fd t).find? fun sf => decide (sf.formal_in_idx = i) with
  | some sf =>
    have hidx : sf.formal_in_idx = i := by simpa using List.find?_some hfind
    have hfact := (mem_compute_summary.mp (List.mem_of_find?_eq_some hfind)).2
    rw [hidx] at hfact
    exact hfact.symm
  | none =>
    cases hfact : summary_facts fd t i with
    | none => rfl
    | some p =>
      have hmem : (⟨i, .Return, p.1, p.2⟩ : SummaryFact) ∈ compute_summary fd t :=
        mem_compute_summary.mpr ⟨rfl, hfact⟩
      have hnone := List.find?_eq_none.mp hfind _ hmem
      simp at hnone

/-- The level of an entry of the summary table. -/
def entry_level : Option (List SummaryFact) → Nat
  | none => 0
  | some facts => facts_level (fact_at facts) + 1

theorem entry_level_le (entry : Option (List SummaryFact)) : entry_level entry ≤ fact_height := by
  cases entry with
  | none => exact Nat.zero_le _
  | some facts => exact Nat.succ_le_succ (facts_level_le _)

/-- The level of a component. -/
def comp_level (comp : List String) (t : Summaries) : Nat :=
  (comp.map fun f => entry_level (t f)).sum

theorem comp_level_le (comp : List String) (t : Summaries) : comp_level comp t ≤ comp.length * fact_height := by
  unfold comp_level
  induction comp with
  | nil => simp
  | cons f rest ih =>
    have hentry := entry_level_le (t f)
    rw [List.map_cons, List.sum_cons, List.length_cons, Nat.succ_mul]
    omega

end levels

/-- A table of the run: every summary was computed, and recomputing it loses no fact. -/
structure Consistent (fns : FnMap) (t : Summaries) : Prop where
  computed : ∀ f facts, t f = some facts → ∃ fd t₀, fns.get f = some fd ∧ facts = compute_summary fd t₀
  kept : ∀ f fd facts, fns.get f = some fd → t f = some facts → ∀ sf ∈ facts,
    ∃ sf' ∈ compute_summary fd t, sf'.formal_in_idx = sf.formal_in_idx

section consistent

variable {fns : FnMap} {t t' : Summaries} {f : String} {comp : List String} {rest : List (List String)}

theorem recompute_at_cases (fns : FnMap) (t : Summaries) (f : String) :
    (recompute_at fns t f = t ∧ ∀ fd, fns.get f = some fd → t f = some (compute_summary fd t)) ∨
      ∃ fd, fns.get f = some fd ∧ t f ≠ some (compute_summary fd t) ∧
        recompute_at fns t f = Function.update t f (some (compute_summary fd t)) := by
  unfold recompute_at
  cases hf : fns.get f with
  | none => exact .inl ⟨rfl, by simp⟩
  | some fd =>
    by_cases hsame : t f = some (compute_summary fd t)
    · refine .inl ⟨if_neg (not_not.mpr hsame), fun fd' hfd => ?_⟩
      cases hfd
      exact hsame
    · exact .inr ⟨fd, rfl, hsame, if_pos hsame⟩

theorem recompute_at_none (hf : fns.get f = none) : recompute_at fns t f = t := by
  unfold recompute_at
  rw [hf]

theorem recompute_at_eq {fd : FnDataflow} (hf : fns.get f = some fd) :
    recompute_at fns t f = Function.update t f (some (compute_summary fd t)) := by
  obtain ⟨hsame, hsettled⟩ | ⟨fd', hf', _, hupdate⟩ := recompute_at_cases fns t f
  · rw [hsame, ← hsettled fd hf, Function.update_eq_self]
  · cases hf.symm.trans hf'
    exact hupdate

/-- The loop of the run recomputes a member in place. -/
theorem recompute_summaries {fd : FnDataflow} (hf : fns.get f = some fd) (r : Round) :
    (recompute fd f r).charge.summaries = recompute_at fns r.summaries f := by
  unfold recompute recompute_at
  rw [hf]
  simp only
  split <;> rfl

theorem Consistent.formal_out (h : Consistent fns t) {facts : List SummaryFact} (hfacts : t f = some facts) :
    ∀ sf ∈ facts, sf.formal_out = .Return := by
  obtain ⟨fd, t₀, _, rfl⟩ := h.computed f facts hfacts
  exact fun sf hsf => (mem_compute_summary.mp hsf).1

/-- The facts of every summary of `t` have their formals recorded in `t'`. -/
def Covered (t t' : Summaries) : Prop :=
  ∀ g facts, t g = some facts → ∃ facts', t' g = some facts' ∧
    ∀ sf ∈ facts, ∃ sf' ∈ facts', sf'.formal_in_idx = sf.formal_in_idx ∧ sf'.formal_out = sf.formal_out

/-- More facts of the callees lose no fact of a function. -/
theorem Covered.compute_summary (h : Covered t t') {fd : FnDataflow} {sf : SummaryFact}
    (hsf : sf ∈ compute_summary fd t) : ∃ sf' ∈ compute_summary fd t', sf'.formal_in_idx = sf.formal_in_idx := by
  obtain ⟨ret, hret, v, hreach, hidx⟩ := exists_fact_iff.mp ⟨sf, hsf, rfl⟩
  refine exists_fact_iff.mpr ⟨ret, hret, v, hreach.lift id fun x y hleads => ?_, hidx⟩
  obtain hintra | ⟨cs, hcs, hresult, g, facts, hg, hfacts, sf, hsf, hout, harg⟩ := leads_back_iff.mp hleads
  · exact leads_back_iff.mpr (.inl hintra)
  · obtain ⟨facts', hfacts', hcover⟩ := h g facts hfacts
    obtain ⟨sf', hsf', hidx', hout'⟩ := hcover sf hsf
    rw [← hidx'] at harg
    exact leads_back_iff.mpr (.inr ⟨cs, hcs, hresult, g, facts', hg, hfacts', sf', hsf', hout'.trans hout, harg⟩)

theorem Consistent.covered_update (h : Consistent fns t) {fd : FnDataflow} (hf : fns.get f = some fd) :
    Covered t (Function.update t f (some (compute_summary fd t))) := by
  intro g facts hfacts
  by_cases heq : g = f
  · subst heq
    refine ⟨compute_summary fd t, Function.update_self _ _ _, fun sf hsf => ?_⟩
    obtain ⟨sf', hsf', hidx⟩ := h.kept g fd facts hf hfacts sf hsf
    exact ⟨sf', hsf', hidx, (mem_compute_summary.mp hsf').1.trans (h.formal_out hfacts sf hsf).symm⟩
  · exact ⟨facts, by rw [Function.update_of_ne heq, hfacts], fun sf hsf => ⟨sf, hsf, rfl, rfl⟩⟩

/-- Recomputing a member keeps the table consistent. -/
theorem Consistent.recompute_at (h : Consistent fns t) (f : String) : Consistent fns (recompute_at fns t f) := by
  obtain ⟨hsame, _⟩ | ⟨fd, hf, _, hupdate⟩ := recompute_at_cases fns t f
  · rw [hsame]
    exact h
  · rw [hupdate]
    have hcovered := h.covered_update hf
    constructor
    · intro g facts hfacts
      by_cases heq : g = f
      · subst heq
        rw [Function.update_self] at hfacts
        exact ⟨fd, t, hf, (Option.some.inj hfacts).symm⟩
      · rw [Function.update_of_ne heq] at hfacts
        exact h.computed g facts hfacts
    · intro g gd facts hg hfacts sf hsf
      by_cases heq : g = f
      · subst heq
        cases hf.symm.trans hg
        rw [Function.update_self] at hfacts
        rw [← Option.some.inj hfacts] at hsf
        exact hcovered.compute_summary hsf
      · rw [Function.update_of_ne heq] at hfacts
        obtain ⟨sf', hsf', hidx⟩ := h.kept g gd facts hg hfacts sf hsf
        obtain ⟨sf'', hsf'', hidx'⟩ := hcovered.compute_summary hsf'
        exact ⟨sf'', hsf'', hidx'.trans hidx⟩

theorem Consistent.round (h : Consistent fns t) (comp : List String) : Consistent fns (round fns comp t) := by
  induction comp generalizing t with
  | nil => exact h
  | cons f rest ih => exact ih (h.recompute_at f)

theorem Comes.consistent {comps : List (List String)} (h : Comes fns comps t) : Consistent fns t := by
  induction h with
  | start =>
    refine ⟨fun f facts hfacts => ?_, fun f fd facts _ hfacts => ?_⟩ <;> cases hfacts
  | round _ ih => exact ih.round _
  | next _ _ ih => exact ih

/-- A summary that still carries what was recorded is the recorded one, or of a greater
level. -/
theorem compute_summary_level (h : Consistent fns t) (hcarries : StillCarries fns t f) {fd : FnDataflow}
    (hf : fns.get f = some fd) :
    t f = some (compute_summary fd t) ∨ entry_level (t f) < entry_level (some (compute_summary fd t)) := by
  by_cases hsame : t f = some (compute_summary fd t)
  · exact .inl hsame
  · right
    cases hfacts : t f with
    | none => exact Nat.succ_pos _
    | some facts =>
      obtain ⟨fd₀, t₀, hf₀, hcomputed⟩ := h.computed f facts hfacts
      cases hf.symm.trans hf₀
      have hgrow : FactsGrow (fact_at facts) (fact_at (compute_summary fd t)) := by
        intro i p hp
        rw [hcomputed, fact_at_compute_summary] at hp
        have hsf : (⟨i, .Return, p.1, p.2⟩ : SummaryFact) ∈ facts :=
          hcomputed ▸ mem_compute_summary.mpr ⟨rfl, hp⟩
        obtain ⟨sf', hsf', hidx⟩ := h.kept f fd facts hf hfacts _ hsf
        have hfact' := (mem_compute_summary.mp hsf').2
        rw [hidx] at hfact'
        refine ⟨_, by rw [fact_at_compute_summary, hfact'], ?_⟩
        refine hcarries fd facts hf hfacts _ hsf _ fun visit hvisit hvidx => ?_
        rw [summary_facts_eq] at hfact'
        refine (joined_isLUB hfact').1 ?_
        exact List.mem_map_of_mem (List.mem_filter.mpr ⟨hvisit, by simpa using hvidx⟩)
      refine Nat.succ_lt_succ (facts_level_lt hgrow fun heq => hsame ?_)
      rw [hcomputed, fact_at_compute_summary, fact_at_compute_summary] at heq
      rw [hfacts, hcomputed]
      unfold compute_summary
      rw [heq]

theorem comp_level_update {facts : List SummaryFact} (hf : f ∈ comp)
    (hlevel : entry_level (t f) < entry_level (some facts)) :
    comp_level comp t < comp_level comp (Function.update t f (some facts)) := by
  refine List.sum_lt_sum _ _ (fun g _ => ?_) ⟨f, hf, ?_⟩
  · by_cases heq : g = f
    · subst heq
      rw [Function.update_self]
      exact hlevel.le
    · rw [Function.update_of_ne heq]
  · rw [Function.update_self]
    exact hlevel

/-- A recomputation that carries changes nothing, or raises the level of the component. -/
theorem recompute_at_level (h : Consistent fns t) (hcarries : StillCarries fns t f) (hf : f ∈ comp) :
    recompute_at fns t f = t ∨ comp_level comp t < comp_level comp (recompute_at fns t f) := by
  obtain ⟨hsame, _⟩ | ⟨fd, hfd, hne, hupdate⟩ := recompute_at_cases fns t f
  · exact .inl hsame
  · rw [hupdate]
    exact .inr (comp_level_update hf ((compute_summary_level h hcarries hfd).resolve_left hne))

/-- A pass that carries changes nothing, or raises the level of the component. -/
theorem round_level (h : Consistent fns t) (members : List String) (hcarries : RoundCarries fns members t)
    (hmembers : ∀ f ∈ members, f ∈ comp) :
    round fns members t = t ∨ comp_level comp t < comp_level comp (round fns members t) := by
  induction members generalizing t with
  | nil => exact .inl rfl
  | cons f rest ih =>
    obtain ⟨hf, hrest⟩ := hcarries
    have hafter := ih (h.recompute_at f) hrest fun g hg => hmembers g (List.mem_cons_of_mem f hg)
    rw [round, List.foldl_cons]
    obtain hsame | hrises := recompute_at_level h hf (hmembers f List.mem_cons_self)
    · rw [hsame] at hafter ⊢
      exact hafter
    · obtain hstays | hmore := hafter
      · rw [round] at hstays
        rw [hstays]
        exact .inr hrises
      · exact .inr (hrises.trans hmore)

theorem Comes.iterate (h : Comes fns (comp :: rest) t) (n : Nat) :
    Comes fns (comp :: rest) ((resolve.round fns comp)^[n] t) := by
  induction n with
  | zero => exact h
  | succ n ih =>
    rw [Function.iterate_succ_apply']
    exact ih.round

/-- A run that carries comes to a quiet pass over every component, since until then every
pass raises the component's level. -/
theorem terminates_of_runCarries (hcarries : RunCarries fns) : TerminatesByItself fns := by
  intro comp rest t hcomes
  by_contra hnever
  have hclimb : ∀ n ≤ comp.length * fact_height + 1, n ≤ comp_level comp ((round fns comp)^[n] t) := by
    intro n hn
    induction n with
    | zero => exact Nat.zero_le _
    | succ n ih =>
      have hat := hcomes.iterate n
      rw [Function.iterate_succ_apply']
      obtain hquiet | hrises := round_level hat.consistent comp (hcarries comp rest _ hat) fun f hf => hf
      · exact absurd ⟨n, by omega, hquiet⟩ hnever
      · have hih := ih (by omega)
        omega
  have htop := hclimb _ le_rfl
  have hbound := comp_level_le comp ((round fns comp)^[comp.length * fact_height + 1] t)
  omega

end consistent

end cgx.resolve
