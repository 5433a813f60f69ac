import Mathlib.Data.Finset.Card
import Mathlib.Data.List.Nodup
import Mathlib.Data.List.Perm.Basic

/-! Recursive functions with a cycle guard: a set of keys, one of which is put in before the rest
of a function is run. The guard may be shared by everything that runs later, or hold only the
keys of the calls that are still open. -/

namespace guarded

variable {κ ι ρ : Type}

/-- The body of a function: it returns, calls a function, or goes on if a key is new to the
guard. -/
inductive Prog (κ ι ρ : Type) where
  | done (r : ρ)
  | ask (i : ι) (next : ρ → Prog κ ι ρ)
  | guard (key : κ) (fallback : ρ) (rest : Prog κ ι ρ)

/-- A statement of a body, in front of what comes after it. -/
def Calls (κ ι ρ α : Type) : Type :=
  (α → Prog κ ι ρ) → Prog κ ι ρ

instance : Monad (Calls κ ι ρ) where
  pure a := fun next => next a
  bind m f := fun next => m fun a => f a next

/-- Call a function. -/
def call (i : ι) : Calls κ ι ρ ρ :=
  Prog.ask i

/-- Return `fallback` if the key is in the guard already, otherwise put it in. -/
def guard_key (key : κ) (fallback : ρ) : Calls κ ι ρ Unit :=
  fun next => .guard key fallback (next ())

/-- A whole body. -/
def Calls.body (m : Calls κ ι ρ ρ) : Prog κ ι ρ :=
  m .done

/-- Who shares a guard: all later calls, or only the calls made inside. -/
inductive Scope where
  | Shared
  | Branch
deriving DecidableEq

/-- The guard after a call, from the guards before it and at its end. -/
def Scope.next (scope : Scope) (before after : List κ) : List κ :=
  match scope with
  | .Shared => after
  | .Branch => before

/-- What a run returns, the guard at its end, and the keys it has put in, in order. -/
structure Outcome (κ ρ : Type) where
  value : ρ
  guard : List κ
  trace : List κ
deriving DecidableEq

variable [DecidableEq κ] (scope : Scope)

/-- Run a body, with `eval` for the calls. -/
def run (eval : ι → List κ → Option (Outcome κ ρ)) : Prog κ ι ρ → List κ → Option (Outcome κ ρ)
  | .done r, g => some ⟨r, g, []⟩
  | .ask i next, g => do
    let first ← eval i g
    let rest ← run eval (next first.value) (scope.next g first.guard)
    some ⟨rest.value, rest.guard, first.trace ++ rest.trace⟩
  | .guard key fallback rest, g =>
    if key ∈ g then some ⟨fallback, g, []⟩
    else do
      let inner ← run eval rest (key :: g)
      some ⟨inner.value, inner.guard, key :: inner.trace⟩

/-- Run a function, calls nested no deeper than `fuel`. -/
def evaluate (body : ι → Prog κ ι ρ) : Nat → ι → List κ → Option (Outcome κ ρ)
  | 0, _, _ => none
  | fuel + 1, i, g => run scope (evaluate body fuel) (body i) g

variable {scope} {body : ι → Prog κ ι ρ} {eval : ι → List κ → Option (Outcome κ ρ)}

theorem run_ask_eq_some {i : ι} {next : ρ → Prog κ ι ρ} {g : List κ} {out : Outcome κ ρ} :
    run scope eval (.ask i next) g = some out ↔ ∃ first rest, eval i g = some first ∧
      run scope eval (next first.value) (scope.next g first.guard) = some rest ∧
      out = ⟨rest.value, rest.guard, first.trace ++ rest.trace⟩ := by
  simp only [run, Option.bind_eq_bind, Option.bind_eq_some_iff, Option.some.injEq]
  constructor
  · rintro ⟨first, hfirst, rest, hrest, rfl⟩
    exact ⟨first, rest, hfirst, hrest, rfl⟩
  · rintro ⟨first, rest, hfirst, hrest, rfl⟩
    exact ⟨first, hfirst, rest, hrest, rfl⟩

theorem run_guard_eq_some {key : κ} {fallback : ρ} {rest : Prog κ ι ρ} {g : List κ} {out : Outcome κ ρ} :
    run scope eval (.guard key fallback rest) g = some out ↔
      (key ∈ g ∧ out = ⟨fallback, g, []⟩) ∨
        (key ∉ g ∧ ∃ inner, run scope eval rest (key :: g) = some inner ∧
          out = ⟨inner.value, inner.guard, key :: inner.trace⟩) := by
  rw [run]
  by_cases hkey : key ∈ g
  · rw [if_pos hkey, Option.some.injEq]
    constructor
    · intro h
      exact .inl ⟨hkey, h.symm⟩
    · rintro (⟨_, rfl⟩ | ⟨hnot, _⟩)
      · rfl
      · exact absurd hkey hnot
  · rw [if_neg hkey]
    simp only [Option.bind_eq_bind, Option.bind_eq_some_iff, Option.some.injEq]
    constructor
    · rintro ⟨inner, hinner, rfl⟩
      exact .inr ⟨hkey, inner, hinner, rfl⟩
    · rintro (⟨hmem, _⟩ | ⟨_, inner, hinner, rfl⟩)
      · exact absurd hmem hkey
      · exact ⟨inner, hinner, rfl⟩

/-! ### More fuel -/

/-- What one evaluation answers, the other answers alike. -/
def Extends (eval eval' : ι → List κ → Option (Outcome κ ρ)) : Prop :=
  ∀ i g out, eval i g = some out → eval' i g = some out

theorem Extends.run {eval' : ι → List κ → Option (Outcome κ ρ)} (h : Extends eval eval') (p : Prog κ ι ρ) {g : List κ}
    {out : Outcome κ ρ} (hrun : run scope eval p g = some out) : run scope eval' p g = some out := by
  induction p generalizing g out with
  | done r => exact hrun
  | ask i next ih =>
    obtain ⟨first, rest, hfirst, hrest, rfl⟩ := run_ask_eq_some.mp hrun
    exact run_ask_eq_some.mpr ⟨first, rest, h i g first hfirst, ih _ hrest, rfl⟩
  | guard key fallback rest ih =>
    rw [run_guard_eq_some] at hrun ⊢
    exact hrun.imp_right fun ⟨hnot, inner, hinner, hout⟩ => ⟨hnot, inner, ih hinner, hout⟩

theorem evaluate_succ (fuel : Nat) : Extends (evaluate scope body fuel) (evaluate scope body (fuel + 1)) := by
  induction fuel with
  | zero => intro i g out h; cases h
  | succ fuel ih => exact fun i g out h => ih.run (body i) h

theorem evaluate_mono {fuel fuel' : Nat} (h : fuel ≤ fuel') : Extends (evaluate scope body fuel) (evaluate scope body fuel') := by
  induction h with
  | refl => exact fun _ _ _ h => h
  | step _ ih => exact fun i g out hout => evaluate_succ _ i g out (ih i g out hout)

/-! ### Termination -/

/-- A body under which the recursion ends: as long as no key is put in, the calls descend in
rank, and every key put in is one of finitely many. -/
def Prog.Descends (keys : Finset κ) (ok : ι → Prop) (rank : ι → Nat) : Option Nat → Prog κ ι ρ → Prop
  | _, .done _ => True
  | bound, .ask i next => ok i ∧ (∀ n, bound = some n → rank i < n) ∧ ∀ r, (next r).Descends keys ok rank bound
  | _, .guard key _ rest => key ∈ keys ∧ rest.Descends keys ok rank none

theorem subset_guard_run (heval : ∀ i g out, eval i g = some out → g ⊆ out.guard) (p : Prog κ ι ρ) {g : List κ}
    {out : Outcome κ ρ} (h : run scope eval p g = some out) : g ⊆ out.guard := by
  induction p generalizing g out with
  | done r =>
    cases h
    exact fun _ h => h
  | ask i next ih =>
    obtain ⟨first, rest, hfirst, hrest, rfl⟩ := run_ask_eq_some.mp h
    have hrest' := ih _ hrest
    cases scope with
    | Shared => exact fun k hk => hrest' (heval i g first hfirst hk)
    | Branch => exact hrest'
  | guard key fallback rest ih =>
    obtain ⟨_, rfl⟩ | ⟨_, inner, hinner, rfl⟩ := run_guard_eq_some.mp h
    · exact fun _ h => h
    · exact fun k hk => ih hinner (List.mem_cons_of_mem key hk)

theorem subset_guard (fuel : Nat) (i : ι) (g : List κ) (out : Outcome κ ρ)
    (h : evaluate scope body fuel i g = some out) : g ⊆ out.guard := by
  induction fuel generalizing i g out with
  | zero => cases h
  | succ fuel ih => exact subset_guard_run ih (body i) h

/-- The keys not yet in the guard. -/
def missing (keys : Finset κ) (g : List κ) : Nat :=
  (keys.filter fun k => k ∉ g).card

theorem missing_mono {keys : Finset κ} {g g' : List κ} (h : g ⊆ g') : missing keys g' ≤ missing keys g := by
  apply Finset.card_le_card
  intro k hk
  rw [Finset.mem_filter] at hk ⊢
  exact ⟨hk.1, fun hmem => hk.2 (h hmem)⟩

theorem missing_cons {keys : Finset κ} {g : List κ} {key : κ} (hkey : key ∈ keys) (hnew : key ∉ g) :
    missing keys (key :: g) < missing keys g := by
  apply Finset.card_lt_card
  rw [Finset.ssubset_iff_of_subset]
  · refine ⟨key, Finset.mem_filter.mpr ⟨hkey, hnew⟩, fun h => ?_⟩
    exact (Finset.mem_filter.mp h).2 List.mem_cons_self
  · intro k hk
    rw [Finset.mem_filter] at hk ⊢
    exact ⟨hk.1, fun hmem => hk.2 (List.mem_cons_of_mem key hmem)⟩

section terminates

variable {keys : Finset κ} {ok : ι → Prop} {rank : ι → Nat}

/-- A body ends if its calls do: those before a key is put in, and those after. -/
theorem run_terminates {bound : Option Nat} {p : Prog κ ι ρ} (hp : p.Descends keys ok rank bound) {g : List κ} {m : Nat}
    (hcalls : ∀ i, ok i → (∀ n, bound = some n → rank i < n) → ∀ g', missing keys g' ≤ m →
      ∃ fuel out, evaluate scope body fuel i g' = some out)
    (hinner : ∀ i, ok i → ∀ g', missing keys g' < m → ∃ fuel out, evaluate scope body fuel i g' = some out)
    (hg : missing keys g ≤ m) : ∃ fuel out, run scope (evaluate scope body fuel) p g = some out := by
  induction p generalizing bound g m with
  | done r => exact ⟨0, _, rfl⟩
  | ask i next ih =>
    obtain ⟨hok, hrank, hnext⟩ := hp
    obtain ⟨fuel, first, hfirst⟩ := hcalls i hok hrank g hg
    have hguard : missing keys (scope.next g first.guard) ≤ m := by
      cases scope with
      | Shared => exact (missing_mono (subset_guard fuel i g first hfirst)).trans hg
      | Branch => exact hg
    obtain ⟨fuel', rest, hrest⟩ := ih first.value (hnext first.value) hcalls hinner hguard
    refine ⟨max fuel fuel', _, run_ask_eq_some.mpr ⟨first, rest, ?_, ?_, rfl⟩⟩
    · exact evaluate_mono (Nat.le_max_left fuel fuel') i g first hfirst
    · exact (evaluate_mono (Nat.le_max_right fuel fuel')).run _ hrest
  | guard key fallback rest ih =>
    obtain ⟨hkey, hrest⟩ := hp
    by_cases hmem : key ∈ g
    · exact ⟨0, _, run_guard_eq_some.mpr (.inl ⟨hmem, rfl⟩)⟩
    · have hless : missing keys (key :: g) < m := (missing_cons hkey hmem).trans_le hg
      obtain ⟨fuel, inner, hrun⟩ := ih hrest (g := key :: g) (m := missing keys (key :: g))
        (fun i hok _ g' hg' => hinner i hok g' (hg'.trans_lt hless))
        (fun i hok g' hg' => hinner i hok g' (hg'.trans hless)) (le_refl _)
      exact ⟨fuel, _, run_guard_eq_some.mpr (.inr ⟨hmem, inner, hrun, rfl⟩)⟩

/-- The recursion ends, whoever shares the guard. -/
theorem terminates (hbody : ∀ i, ok i → (body i).Descends keys ok rank (some (rank i))) {i : ι} (hok : ok i) (g : List κ) :
    ∃ fuel out, evaluate scope body fuel i g = some out := by
  induction hm : missing keys g using Nat.strong_induction_on generalizing i g with
  | _ m ihm =>
    -- Within one number of missing keys, the rank descends.
    have hranks : ∀ n i, ok i → rank i < n → ∀ g', missing keys g' ≤ m →
        ∃ fuel out, evaluate scope body fuel i g' = some out := by
      intro n
      induction n with
      | zero => intro i _ hlt; omega
      | succ n ihn =>
        intro i hok hlt g' hg'
        obtain ⟨fuel, out, hrun⟩ := run_terminates (hbody i hok)
          (fun j hj hless => ihn j hj (by have hjn := hless (rank i) rfl; omega))
          (fun j hj g'' hless => ihm _ hless hj g'' rfl) hg'
        exact ⟨fuel + 1, out, hrun⟩
    exact hranks (rank i + 1) i hok (Nat.lt_succ_self _) g (le_of_eq hm)

end terminates

/-! ### A shared guard against one of the open calls -/

/-- The answers under a shared guard are those under a guard of the open calls, wherever that
puts in each key once and none that the shared guard holds. -/
def Agrees (branch shared : ι → List κ → Option (Outcome κ ρ)) : Prop :=
  ∀ i g out, branch i g = some out → out.trace.Nodup → ∀ seen, g ⊆ seen → (∀ k ∈ out.trace, k ∉ seen) →
    shared i seen = some ⟨out.value, out.trace.reverse ++ seen, out.trace⟩

theorem Agrees.run {branch shared : ι → List κ → Option (Outcome κ ρ)} (h : Agrees branch shared) (p : Prog κ ι ρ)
    {g seen : List κ} {out : Outcome κ ρ} (hrun : run .Branch branch p g = some out) (hnodup : out.trace.Nodup)
    (hsub : g ⊆ seen) (hnew : ∀ k ∈ out.trace, k ∉ seen) :
    run .Shared shared p seen = some ⟨out.value, out.trace.reverse ++ seen, out.trace⟩ := by
  induction p generalizing g seen out with
  | done r =>
    cases hrun
    rfl
  | ask i next ih =>
    obtain ⟨first, rest, hfirst, hrest, rfl⟩ := run_ask_eq_some.mp hrun
    obtain ⟨hnodupFirst, hnodupRest, hdisjoint⟩ := List.nodup_append.mp hnodup
    have hshared := h i g first hfirst hnodupFirst seen hsub fun k hk => hnew k (List.mem_append_left _ hk)
    have hwider : g ⊆ first.trace.reverse ++ seen := fun k hk => List.mem_append_right _ (hsub hk)
    have hbehind := ih first.value hrest hnodupRest hwider fun k hk hmem => by
      obtain hmem | hmem := List.mem_append.mp hmem
      · exact hdisjoint k (List.mem_reverse.mp hmem) k hk rfl
      · exact hnew k (List.mem_append_right _ hk) hmem
    refine run_ask_eq_some.mpr ⟨_, _, hshared, hbehind, ?_⟩
    rw [List.reverse_append, List.append_assoc]
  | guard key fallback rest ih =>
    obtain ⟨hmem, rfl⟩ | ⟨_, inner, hinner, rfl⟩ := run_guard_eq_some.mp hrun
    · exact run_guard_eq_some.mpr (.inl ⟨hsub hmem, rfl⟩)
    · obtain ⟨hkey, hnodupInner⟩ := List.nodup_cons.mp hnodup
      have hinside := ih hinner hnodupInner (List.cons_subset_cons key hsub) fun k hk hmem => by
        obtain rfl | hmem := List.mem_cons.mp hmem
        · exact hkey hk
        · exact hnew k (List.mem_cons_of_mem key hk) hmem
      refine run_guard_eq_some.mpr (.inr ⟨hnew key List.mem_cons_self, _, hinside, ?_⟩)
      rw [List.reverse_cons, List.append_assoc]
      rfl

theorem agrees (fuel : Nat) : Agrees (evaluate .Branch body fuel) (evaluate .Shared body fuel) := by
  induction fuel with
  | zero => intro i g out h; cases h
  | succ fuel ih => exact fun i g out h hnodup seen hsub hnew => ih.run (body i) h hnodup hsub hnew

end guarded
