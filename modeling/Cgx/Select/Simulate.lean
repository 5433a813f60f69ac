import Mathlib.Computability.EpsilonNFA
import Cgx.Select.Grammar

namespace cgx.select

namespace Nfa

/-- The automaton without its bound on active states. -/
def machine (nfa : Nfa) : εNFA String Nat where
  step s
    | none => {t | t ∈ (nfa.state s).eps}
    | some seg => {t | ∃ m, (m, t) ∈ (nfa.state s).edges ∧ m.matches seg = true}
  start := {nfa.start}
  accept := {nfa.accept}

/-- Transitions lead to states of the automaton, and those without a segment lead forward. -/
structure Forward (nfa : Nfa) : Prop where
  start : nfa.start < nfa.states.length
  eps : ∀ s, ∀ t ∈ (nfa.state s).eps, s < t ∧ t < nfa.states.length
  edges : ∀ s, ∀ e ∈ (nfa.state s).edges, e.2 < nfa.states.length

/-- The states from `n` on have their transitions without a segment in the set. -/
def ClosedFrom (nfa : Nfa) (n : Nat) (set : List Nat) : Prop :=
  ∀ x ∈ set, n ≤ x → ∀ t ∈ (nfa.state x).eps, t ∈ set

variable {nfa : Nfa}

theorem Forward.le_of_mem (h : nfa.Forward) {s x : Nat} (hx : x ∈ nfa.machine.εClosure {s}) : s ≤ x := by
  induction hx with
  | base x hx => exact (Set.mem_singleton_iff.mp hx).ge
  | step x y hy _ ih => exact ih.trans (h.eps x y hy).1.le

/-- What a closure adds to a set that is closed from its state on. -/
structure Added (nfa : Nfa) (state : Nat) (set set' : List Nat) : Prop where
  keeps : set ⊆ set'
  has : state ∈ set'
  only : ∀ x ∈ set', x ∈ set ∨ x ∈ nfa.machine.εClosure {state}
  closed : nfa.ClosedFrom state set'

/-- The transitions of a state, each closed in turn. -/
theorem foldlM_added (h : nfa.Forward) {state : Nat} {f : List Nat → Nat → Option (List Nat)} {es : List Nat}
    (hes : ∀ e ∈ es, state < e)
    (hf : ∀ e ∈ es, ∀ set, nfa.ClosedFrom e set → ∃ set', f set e = some set' ∧ nfa.Added e set set')
    {set : List Nat} (hclosed : nfa.ClosedFrom (state + 1) set) :
    ∃ set', es.foldlM f set = some set' ∧ set ⊆ set' ∧ (∀ e ∈ es, e ∈ set') ∧
      (∀ x ∈ set', x ∈ set ∨ ∃ e ∈ es, x ∈ nfa.machine.εClosure {e}) ∧ nfa.ClosedFrom (state + 1) set' := by
  induction es generalizing set with
  | nil => exact ⟨set, rfl, fun _ hx => hx, by simp, fun x hx => .inl hx, hclosed⟩
  | cons e rest ih =>
    have he := hes e List.mem_cons_self
    obtain ⟨mid, hmid, hadded⟩ := hf e List.mem_cons_self set fun x hx hle => hclosed x hx (by omega)
    have hclosed' : nfa.ClosedFrom (state + 1) mid := by
      intro x hx hle t ht
      obtain hold | hnew := hadded.only x hx
      · exact hadded.keeps (hclosed x hold hle t ht)
      · exact hadded.closed x hx (h.le_of_mem hnew) t ht
    obtain ⟨set', hset', hkeeps, hhas, honly, hend⟩ := ih (fun e' he' => hes e' (List.mem_cons_of_mem e he'))
      (fun e' he' => hf e' (List.mem_cons_of_mem e he')) hclosed'
    refine ⟨set', ?_, fun x hx => hkeeps (hadded.keeps hx), ?_, ?_, hend⟩
    · rw [List.foldlM_cons, hmid]
      exact hset'
    · intro e' he'
      obtain rfl | he' := List.mem_cons.mp he'
      · exact hkeeps hadded.has
      · exact hhas e' he'
    · intro x hx
      obtain hmem | ⟨e', he', hx⟩ := honly x hx
      · exact (hadded.only x hmem).imp_right fun hx => ⟨e, List.mem_cons_self, hx⟩
      · exact .inr ⟨e', List.mem_cons_of_mem e he', hx⟩

theorem closedFrom_orderedInsert {state : Nat} {set : List Nat} (hclosed : nfa.ClosedFrom state set) :
    nfa.ClosedFrom (state + 1) (set.orderedInsert (· ≤ ·) state) := by
  intro x hx hle t ht
  rw [List.mem_orderedInsert] at hx ⊢
  obtain rfl | hx := hx
  · omega
  · exact .inr (hclosed x hx (by omega) t ht)

theorem εClosure_of_step {s t x : Nat} (ht : t ∈ (nfa.state s).eps) (hx : x ∈ nfa.machine.εClosure {t}) :
    x ∈ nfa.machine.εClosure {s} := by
  induction hx with
  | base x hx =>
    rw [Set.mem_singleton_iff.mp hx]
    exact εNFA.εClosure.step s t ht (.base s rfl)
  | step x y hy _ ih => exact εNFA.εClosure.step x y hy ih

/-- A closure ends within as many levels as there are states from its state on. -/
theorem Forward.eps_closure_spec (h : nfa.Forward) {fuel state : Nat} (hstate : state < nfa.states.length)
    (hfuel : nfa.states.length ≤ fuel + state) {set : List Nat} (hclosed : nfa.ClosedFrom state set) :
    ∃ set', nfa.eps_closure fuel state set = some set' ∧ nfa.Added state set set' := by
  induction fuel generalizing state set with
  | zero => omega
  | succ fuel ih =>
    rw [eps_closure]
    split
    · rename_i hmem
      exact ⟨set, rfl, fun _ hx => hx, hmem, fun x hx => .inl hx, hclosed⟩
    · obtain ⟨set', hset', hkeeps, hhas, honly, hend⟩ := foldlM_added h
        (f := fun set e => nfa.eps_closure fuel e set) (fun e he => (h.eps state e he).1)
        (fun e he set hset => ih (h.eps state e he).2 (by have := (h.eps state e he).1; omega) hset)
        (closedFrom_orderedInsert hclosed)
      have hin : ∀ x, x ∈ set.orderedInsert (· ≤ ·) state ↔ x = state ∨ x ∈ set := fun x => List.mem_orderedInsert _
      have hstate' : state ∈ set' := hkeeps ((hin state).mpr (.inl rfl))
      refine ⟨set', hset', fun x hx => hkeeps ((hin x).mpr (.inr hx)), hstate', ?_, ?_⟩
      · intro x hx
        obtain hold | ⟨e, he, hx⟩ := honly x hx
        · obtain rfl | hold := (hin x).mp hold
          · exact .inr (.base x rfl)
          · exact .inl hold
        · exact .inr (εClosure_of_step he hx)
      · intro x hx hle t ht
        obtain rfl | hlt := hle.eq_or_lt
        · exact hhas t ht
        · exact hend x hx hlt t ht

/-- In a closed set a closure adds exactly what its state reaches without a segment. -/
theorem Added.mem_iff {state : Nat} {set set' : List Nat} (h : nfa.Forward) (hadded : nfa.Added state set set')
    {x : Nat} : x ∈ set' ↔ x ∈ set ∨ x ∈ nfa.machine.εClosure {state} := by
  refine ⟨hadded.only x, ?_⟩
  rintro (hx | hx)
  · exact hadded.keeps hx
  · induction hx with
    | base x hx => exact Set.mem_singleton_iff.mp hx ▸ hadded.has
    | step x y hy hx ih => exact hadded.closed x ih (h.le_of_mem hx) y hy

theorem Added.closed_all {state : Nat} {set set' : List Nat} (h : nfa.Forward) (hadded : nfa.Added state set set')
    (hclosed : nfa.ClosedFrom 0 set) : nfa.ClosedFrom 0 set' := by
  intro x hx _ t ht
  obtain hold | hnew := hadded.only x hx
  · exact hadded.keeps (hclosed x hold (Nat.zero_le x) t ht)
  · exact hadded.closed x hx (h.le_of_mem hnew) t ht

/-! ### One segment -/

/-- The transitions of a state on a segment. -/
theorem Forward.edges_spec (h : nfa.Forward) {fuel : Nat} (hfuel : nfa.states.length ≤ fuel) (seg : String)
    {edges : List (EdgeMatcher × Nat)} (hedges : ∀ e ∈ edges, e.2 < nfa.states.length) {next : List Nat}
    (hclosed : nfa.ClosedFrom 0 next) :
    ∃ next', (edges.foldlM (fun next e =>
        if e.1.matches seg then nfa.eps_closure fuel e.2 next else some next) next) = some next' ∧
      nfa.ClosedFrom 0 next' ∧
      ∀ x, x ∈ next' ↔ x ∈ next ∨ ∃ e ∈ edges, e.1.matches seg = true ∧ x ∈ nfa.machine.εClosure {e.2} := by
  induction edges generalizing next with
  | nil => exact ⟨next, rfl, hclosed, by simp⟩
  | cons e rest ih =>
    have hrest : ∀ e ∈ rest, e.2 < nfa.states.length := fun e' he' => hedges e' (List.mem_cons_of_mem e he')
    rw [List.foldlM_cons]
    by_cases hmatch : e.1.matches seg = true
    · obtain ⟨mid, hmid, hadded⟩ := h.eps_closure_spec (hedges e List.mem_cons_self)
        (hfuel.trans (Nat.le_add_right fuel e.2)) fun x hx _ => hclosed x hx (Nat.zero_le x)
      obtain ⟨next', hnext', hclosed', hmem⟩ := ih hrest (hadded.closed_all h hclosed)
      refine ⟨next', ?_, hclosed', fun x => ?_⟩
      · rw [if_pos hmatch, hmid]
        exact hnext'
      · rw [hmem, hadded.mem_iff h, List.exists_mem_cons_iff, or_assoc]
        simp only [hmatch, true_and]
    · obtain ⟨next', hnext', hclosed', hmem⟩ := ih hrest hclosed
      refine ⟨next', ?_, hclosed', fun x => ?_⟩
      · rw [if_neg hmatch]
        exact hnext'
      · rw [hmem, List.exists_mem_cons_iff]
        simp only [hmatch, false_and, false_or, Bool.false_eq_true]

/-- A segment leads from the active states to those that the automaton has after it. -/
theorem Forward.advance_spec (h : nfa.Forward) {fuel : Nat} (hfuel : nfa.states.length ≤ fuel) (seg : String)
    (active : List Nat) :
    ∃ next, nfa.advance fuel active seg = some next ∧
      ∀ x, x ∈ next ↔ x ∈ nfa.machine.stepSet {s | s ∈ active} seg := by
  suffices hfold : ∀ next, nfa.ClosedFrom 0 next →
      ∃ next', (active.foldlM (fun next s => (nfa.state s).edges.foldlM (fun next e =>
          if e.1.matches seg then nfa.eps_closure fuel e.2 next else some next) next) next) = some next' ∧
        ∀ x, x ∈ next' ↔ x ∈ next ∨ ∃ s ∈ active, ∃ e ∈ (nfa.state s).edges,
          e.1.matches seg = true ∧ x ∈ nfa.machine.εClosure {e.2} by
    obtain ⟨next, hnext, hmem⟩ := hfold [] (by simp [ClosedFrom])
    refine ⟨next, hnext, fun x => ?_⟩
    rw [hmem, εNFA.mem_stepSet_iff]
    constructor
    · rintro (hx | ⟨s, hs, e, he, hmatch, hx⟩)
      · simp at hx
      · exact ⟨s, hs, (nfa.machine.mem_εClosure_iff_exists).mpr ⟨e.2, ⟨e.1, he, hmatch⟩, hx⟩⟩
    · rintro ⟨s, hs, hx⟩
      obtain ⟨t, ⟨m, he, hmatch⟩, hx⟩ := (nfa.machine.mem_εClosure_iff_exists).mp hx
      exact .inr ⟨s, hs, (m, t), he, hmatch, hx⟩
  induction active with
  | nil => exact fun next _ => ⟨next, rfl, by simp⟩
  | cons s rest ih =>
    intro next hclosed
    obtain ⟨mid, hmid, hclosed', hmem⟩ := h.edges_spec hfuel seg (h.edges s) hclosed
    obtain ⟨next', hnext', hmem'⟩ := ih mid hclosed'
    refine ⟨next', ?_, fun x => ?_⟩
    · rw [List.foldlM_cons, hmid]
      exact hnext'
    · rw [hmem', hmem, List.exists_mem_cons_iff, or_assoc]

/-! ### All segments -/

theorem cut_subset {cap : Nat} {next : List Nat} : (cut cap next).1 ⊆ next := by
  rw [cut]
  split
  · exact List.take_subset cap next
  · exact fun _ hx => hx

theorem cut_eq_of_not_dropped {cap : Nat} {next : List Nat} (h : (cut cap next).2 = false) :
    (cut cap next).1 = next := by
  rw [cut] at h ⊢
  split at h
  · cases h
  · rename_i hle
    rw [if_neg hle]

theorem evalFrom_foldl_empty (M : εNFA String Nat) (segments : List String) :
    segments.foldl M.stepSet ∅ = ∅ := by
  induction segments with
  | nil => rfl
  | cons seg rest ih => rw [List.foldl_cons, εNFA.stepSet_empty, ih]

theorem stepSet_mono (M : εNFA String Nat) {S T : Set Nat} (h : S ⊆ T) (seg : String) :
    M.stepSet S seg ⊆ M.stepSet T seg := by
  intro x hx
  rw [εNFA.mem_stepSet_iff] at hx ⊢
  obtain ⟨t, ht, hx⟩ := hx
  exact ⟨t, h ht, hx⟩

/-- At every segment the active states are states that the automaton has there, and all of
them as long as none was dropped. -/
theorem Forward.simulate_from_spec (h : nfa.Forward) {fuel : Nat} (hfuel : nfa.states.length ≤ fuel) (cap : Nat)
    (segments : List String) {active : List Nat} {truncated : Bool} {S : Set Nat} (hsound : {s | s ∈ active} ⊆ S)
    (hcomplete : truncated = false → S ⊆ {s | s ∈ active}) :
    ∃ active' truncated', nfa.simulate_from fuel cap segments active truncated = some (active', truncated') ∧
      {s | s ∈ active'} ⊆ segments.foldl nfa.machine.stepSet S ∧
      (truncated' = false → segments.foldl nfa.machine.stepSet S ⊆ {s | s ∈ active'}) := by
  induction segments generalizing active truncated S with
  | nil => exact ⟨active, truncated, rfl, hsound, hcomplete⟩
  | cons seg rest ih =>
    obtain ⟨next, hnext, hmem⟩ := h.advance_spec hfuel seg active
    have hsound' : {s | s ∈ (cut cap next).1} ⊆ nfa.machine.stepSet S seg := by
      intro x hx
      exact stepSet_mono _ hsound seg ((hmem x).mp (cut_subset hx))
    have hcomplete' : (truncated || (cut cap next).2) = false →
        nfa.machine.stepSet S seg ⊆ {s | s ∈ (cut cap next).1} := by
      intro hflag x hx
      obtain ⟨htruncated, hdropped⟩ := Bool.or_eq_false_iff.mp hflag
      have hx' := (hmem x).mpr (stepSet_mono _ (hcomplete htruncated) seg hx)
      rwa [← cut_eq_of_not_dropped hdropped] at hx'
    rw [simulate_from, hnext, List.foldl_cons, Option.bind_eq_bind, Option.bind_some]
    dsimp only
    split
    · rename_i hempty
      have hnone : {s | s ∈ (cut cap next).1} = (∅ : Set Nat) := by
        rw [List.isEmpty_iff.mp hempty]
        simp
      refine ⟨_, _, rfl, ?_, fun hflag => ?_⟩
      · rw [hnone]
        exact Set.empty_subset _
      · have hset : nfa.machine.stepSet S seg = ∅ := Set.subset_eq_empty (hcomplete' hflag) hnone
        rw [hset, evalFrom_foldl_empty]
        exact Set.empty_subset _
    · exact ih hsound' hcomplete'

/-- The simulation ends. It accepts only what the automaton accepts, and all of that unless
it was truncated. -/
theorem Forward.simulate_spec (h : nfa.Forward) (segments : List String) (cap : Nat) :
    ∃ outcome, nfa.simulate segments cap = some outcome ∧
      (outcome.matched = true → segments ∈ nfa.machine.accepts) ∧
      (outcome.truncated = false → segments ∈ nfa.machine.accepts → outcome.matched = true) := by
  have hempty : nfa.ClosedFrom nfa.start [] := by simp [ClosedFrom]
  obtain ⟨first, hfirst, hadded⟩ := h.eps_closure_spec h.start (Nat.le_add_right _ _) hempty
  have hstart : {s | s ∈ first} = nfa.machine.εClosure nfa.machine.start := by
    ext x
    exact (hadded.mem_iff h).trans (or_iff_right List.not_mem_nil)
  have hcomplete₀ : false = false → nfa.machine.εClosure nfa.machine.start ⊆ {s | s ∈ first} := fun _ => hstart.superset
  obtain ⟨active, truncated, hrun, hsound, hcomplete⟩ :=
    h.simulate_from_spec le_rfl cap segments hstart.subset hcomplete₀
  have haccepts : segments ∈ nfa.machine.accepts ↔
      nfa.accept ∈ segments.foldl nfa.machine.stepSet (nfa.machine.εClosure nfa.machine.start) := by
    constructor
    · rintro ⟨s, hs, hx⟩
      exact Set.mem_singleton_iff.mp hs ▸ hx
    · exact fun hx => ⟨nfa.accept, rfl, hx⟩
  refine ⟨⟨decide (nfa.accept ∈ active), truncated⟩, ?_, fun hmatched => ?_, fun htruncated hx => ?_⟩
  · simp only [simulate, hfirst, hrun, Option.bind_eq_bind, Option.bind_some]
  · exact haccepts.mpr (hsound (of_decide_eq_true hmatched))
  · exact decide_eq_true (hcomplete htruncated (haccepts.mp hx))

end Nfa

end cgx.select
