import Mathlib.Data.List.Perm.Basic
import Cgx.Lib.Guarded

/-! Loops over calls under a guard of the open calls: every call of a loop starts from the same
guard, so the calls may be made in any order. -/

namespace guarded

variable {α β σ κ ι ρ : Type} {step : σ → ρ → σ}

/-- Join what `m` answers for the members of a list. -/
def loop {μ : Type → Type} [Monad μ] (step : σ → ρ → σ) (m : α → μ ρ) (xs : List α) (init : σ) : μ σ :=
  xs.foldlM (fun acc x => do
    let r ← m x
    pure (step acc r)) init

/-! ### Loops of answers -/

theorem loop_eq_some {f : α → Option ρ} {xs : List α} {init out : σ} :
    loop step f xs init = some out ↔
      ∃ rs, List.Forall₂ (fun x r => f x = some r) xs rs ∧ out = rs.foldl step init := by
  induction xs generalizing init with
  | nil =>
    constructor
    · intro h
      cases h
      exact ⟨[], .nil, rfl⟩
    · rintro ⟨_, ⟨⟩, rfl⟩
      rfl
  | cons x xs ih =>
    simp only [loop, List.foldlM_cons, Option.bind_eq_bind, Option.bind_eq_some_iff, Option.pure_def, Option.some.injEq]
    constructor
    · rintro ⟨_, ⟨r, hr, rfl⟩, hrest⟩
      obtain ⟨rs, hrs, rfl⟩ := ih.mp hrest
      exact ⟨r :: rs, .cons hr hrs, rfl⟩
    · rintro ⟨_, hall, rfl⟩
      cases hall with
      | cons hr hrs => exact ⟨_, ⟨_, hr, rfl⟩, ih.mpr ⟨_, hrs, rfl⟩⟩

/-- Joined in another order, the same answers give the same result. -/
theorem loop_perm [hcomm : RightCommutative step] {f g : α → Option ρ} {xs ys : List α} (hperm : ys.Perm xs)
    (hfg : ∀ x ∈ xs, ∀ r, f x = some r → g x = some r) {init out : σ} (h : loop step f xs init = some out) :
    loop step g ys init = some out := by
  obtain ⟨rs, hrs, rfl⟩ := loop_eq_some.mp h
  have hanswers : List.Forall₂ (fun x r => g x = some r) xs rs :=
    ((List.forall₂_and_left xs rs).mpr ⟨fun _ hx => hx, hrs⟩).imp fun x r hx => hfg x hx.1 r hx.2
  obtain ⟨rs', hrs', hsame⟩ := List.perm_comp_forall₂ hperm hanswers
  exact loop_eq_some.mpr ⟨rs', hrs', (hsame.foldl_eq init).symm⟩

/-! ### Loops in a body -/

section descends

variable {keys : Finset κ} {ok : ι → Prop} {rank : ι → Nat} {bound : Option Nat}

/-- A part of a body under which the recursion ends, with the bounds on the rank before and
behind it. -/
def Calls.Sinks (keys : Finset κ) (ok : ι → Prop) (rank : ι → Nat) (bound bound' : Option Nat) (m : Calls κ ι ρ α) :
    Prop :=
  ∀ next : α → Prog κ ι ρ, (∀ a, (next a).Descends keys ok rank bound') → (m next).Descends keys ok rank bound

/-- Behind a key that was put in, the ranks are free. -/
theorem Prog.Descends.free {p : Prog κ ι ρ} (h : p.Descends keys ok rank bound) : p.Descends keys ok rank none := by
  induction p with
  | done r => trivial
  | ask i next ih =>
    obtain ⟨hok, _, hnext⟩ := h
    exact ⟨hok, fun n hn => (nomatch hn), fun r => ih r (hnext r)⟩
  | guard key fallback rest ih => exact h

namespace Calls.Sinks

theorem free {bound' : Option Nat} {m : Calls κ ι ρ α} (h : m.Sinks keys ok rank bound none) :
    m.Sinks keys ok rank bound bound' :=
  fun next hnext => h next fun a => (hnext a).free

theorem body {bound' : Option Nat} {m : Calls κ ι ρ ρ} (h : m.Sinks keys ok rank bound bound') :
    m.body.Descends keys ok rank bound :=
  h .done fun _ => trivial

theorem pure (a : α) : (Pure.pure a : Calls κ ι ρ α).Sinks keys ok rank bound bound :=
  fun _ hnext => hnext a

theorem call {i : ι} (hok : ok i) (hrank : ∀ n, bound = some n → rank i < n) :
    (call i : Calls κ ι ρ ρ).Sinks keys ok rank bound bound :=
  fun _ hnext => ⟨hok, hrank, hnext⟩

theorem call_free {i : ι} (hok : ok i) : (guarded.call i : Calls κ ι ρ ρ).Sinks keys ok rank none none :=
  call hok fun _ hn => nomatch hn

theorem guard_key {key : κ} (hkey : key ∈ keys) (fallback : ρ) :
    (guard_key key fallback : Calls κ ι ρ Unit).Sinks keys ok rank bound none :=
  fun _ hnext => ⟨hkey, hnext ()⟩

theorem bind {bound' bound'' : Option Nat} {m : Calls κ ι ρ α} {f : α → Calls κ ι ρ β}
    (hm : m.Sinks keys ok rank bound bound') (hf : ∀ a, (f a).Sinks keys ok rank bound' bound'') :
    (m >>= f).Sinks keys ok rank bound bound'' :=
  fun next hnext => hm _ fun a => hf a next hnext

theorem loop {m : α → Calls κ ι ρ ρ} {xs : List α} (hm : ∀ x ∈ xs, (m x).Sinks keys ok rank bound bound) (init : σ) :
    (loop step m xs init : Calls κ ι ρ σ).Sinks keys ok rank bound bound := by
  induction xs generalizing init with
  | nil => exact pure init
  | cons x xs ih =>
    exact ((hm x List.mem_cons_self).bind fun r => pure (step init r)).bind fun acc =>
      ih (fun y hy => hm y (List.mem_cons_of_mem x hy)) acc

end Calls.Sinks

end descends

variable [DecidableEq κ] {eval eval' : ι → List κ → Option (Outcome κ ρ)}

/-- A part of a body that puts no key in: what comes after it starts from the same guard. -/
def Calls.Plain (m : Calls κ ι ρ ρ) : Prop :=
  ∀ (eval : ι → List κ → Option (Outcome κ ρ)) (next : ρ → Prog κ ι ρ) (g : List κ) (out : Outcome κ ρ),
    run .Branch eval (m next) g = some out ↔ ∃ first rest, run .Branch eval m.body g = some first ∧
      run .Branch eval (next first.value) g = some rest ∧ out = ⟨rest.value, rest.guard, first.trace ++ rest.trace⟩

theorem plain_pure (r : ρ) : (pure r : Calls κ ι ρ ρ).Plain := by
  intro eval next g out
  constructor
  · intro h
    exact ⟨⟨r, g, []⟩, out, rfl, h, rfl⟩
  · rintro ⟨first, rest, hfirst, hrest, rfl⟩
    cases hfirst
    exact hrest

/-- A call whose answer is changed on the way. -/
theorem plain_map_call (i : ι) (f : ρ → ρ) : (call i >>= fun r => pure (f r) : Calls κ ι ρ ρ).Plain := by
  intro eval next g out
  constructor
  · intro h
    obtain ⟨first, rest, hfirst, hrest, rfl⟩ := run_ask_eq_some.mp h
    refine ⟨⟨f first.value, g, first.trace ++ []⟩, rest, ?_, hrest, ?_⟩
    · exact run_ask_eq_some.mpr ⟨first, ⟨f first.value, g, []⟩, hfirst, rfl, rfl⟩
    · rw [List.append_nil]
  · rintro ⟨_, rest, hfirst, hrest, rfl⟩
    obtain ⟨first, inner, hcall, hinner, rfl⟩ := run_ask_eq_some.mp hfirst
    cases hinner
    refine run_ask_eq_some.mpr ⟨first, rest, hcall, hrest, ?_⟩
    rw [List.append_nil]

theorem plain_call (i : ι) : (call i : Calls κ ι ρ ρ).Plain :=
  plain_map_call i id

theorem run_loop {m : α → Calls κ ι ρ ρ} (hm : ∀ x, (m x).Plain) {xs : List α} {init : σ} {next : σ → Prog κ ι ρ}
    {g : List κ} {out : Outcome κ ρ} :
    run .Branch eval ((loop step m xs init : Calls κ ι ρ σ) next) g = some out ↔
      ∃ outs rest, List.Forall₂ (fun x o => run .Branch eval (m x).body g = some o) xs outs ∧
        run .Branch eval (next ((outs.map Outcome.value).foldl step init)) g = some rest ∧
        out = ⟨rest.value, rest.guard, outs.flatMap Outcome.trace ++ rest.trace⟩ := by
  induction xs generalizing init out with
  | nil =>
    constructor
    · intro h
      exact ⟨[], out, .nil, h, rfl⟩
    · rintro ⟨_, rest, ⟨⟩, hrest, rfl⟩
      exact hrest
  | cons x xs ih =>
    have hcons : (loop step m (x :: xs) init : Calls κ ι ρ σ) next =
        m x fun r => (loop step m xs (step init r) : Calls κ ι ρ σ) next := rfl
    rw [hcons, hm x]
    constructor
    · rintro ⟨first, _, hfirst, hloop, rfl⟩
      obtain ⟨outs, rest, houts, hrest, rfl⟩ := ih.mp hloop
      refine ⟨first :: outs, rest, .cons hfirst houts, hrest, ?_⟩
      rw [List.flatMap_cons, List.append_assoc]
    · rintro ⟨_, rest, houts, hrest, rfl⟩
      cases houts with
      | @cons _ first _ outs hfirst houts =>
        refine ⟨first, _, hfirst, ih.mpr ⟨outs, rest, houts, hrest, rfl⟩, ?_⟩
        rw [List.flatMap_cons, List.append_assoc]

/-! ### The same answers in another order -/

/-- What one run answers, the other answers too, and puts in the same keys in some order. -/
def Refines (a b : Option (Outcome κ ρ)) : Prop :=
  ∀ out, a = some out → ∃ out', b = some out' ∧ out'.value = out.value ∧ out'.trace.Perm out.trace

/-- Two parts of bodies, run with two evaluations, that are followed alike if they are
continued alike. -/
def Alike (eval eval' : ι → List κ → Option (Outcome κ ρ)) (m m' : Calls κ ι ρ α) : Prop :=
  ∀ next next' : α → Prog κ ι ρ,
    (∀ a g, Refines (run .Branch eval (next a) g) (run .Branch eval' (next' a) g)) →
    ∀ g, Refines (run .Branch eval (m next) g) (run .Branch eval' (m' next') g)

namespace Alike

theorem body {m m' : Calls κ ι ρ ρ} (h : Alike eval eval' m m') (g : List κ) :
    Refines (run .Branch eval m.body g) (run .Branch eval' m'.body g) :=
  h .done .done (fun _ _ out hout => ⟨out, hout, rfl, .refl _⟩) g

theorem pure (a : α) : Alike eval eval' (Pure.pure a) (Pure.pure a) :=
  fun _ _ hnext => hnext a

theorem call {i : ι} (hcall : ∀ g, Refines (eval i g) (eval' i g)) : Alike eval eval' (call i) (call i) := by
  intro next next' hnext g out h
  obtain ⟨first, rest, hfirst, hrest, rfl⟩ := run_ask_eq_some.mp h
  obtain ⟨first', hfirst', hvalue, htrace⟩ := hcall g first hfirst
  obtain ⟨rest', hrest', hvalueRest, htraceRest⟩ := hnext first.value g rest hrest
  rw [← hvalue] at hrest'
  exact ⟨_, run_ask_eq_some.mpr ⟨first', rest', hfirst', hrest', rfl⟩, hvalueRest, htrace.append htraceRest⟩

theorem guard_key (key : κ) (fallback : ρ) :
    Alike eval eval' (guard_key key fallback : Calls κ ι ρ Unit) (guard_key key fallback) := by
  intro next next' hnext g out h
  obtain ⟨hmem, rfl⟩ | ⟨hnot, inner, hinner, rfl⟩ := run_guard_eq_some.mp h
  · exact ⟨_, run_guard_eq_some.mpr (.inl ⟨hmem, rfl⟩), rfl, .refl _⟩
  · obtain ⟨inner', hinner', hvalue, htrace⟩ := hnext () (key :: g) inner hinner
    exact ⟨_, run_guard_eq_some.mpr (.inr ⟨hnot, inner', hinner', rfl⟩), hvalue, htrace.cons key⟩

theorem bind {m m' : Calls κ ι ρ α} {f f' : α → Calls κ ι ρ β} (hm : Alike eval eval' m m')
    (hf : ∀ a, Alike eval eval' (f a) (f' a)) : Alike eval eval' (m >>= f) (m' >>= f') :=
  fun next next' hnext => hm _ _ fun a => hf a next next' hnext

/-- A loop over the same members in another order, with a join that does not see the order. -/
theorem loop [hcomm : RightCommutative step] {m m' : α → Calls κ ι ρ ρ} (hm : ∀ x, (m x).Plain)
    (hm' : ∀ x, (m' x).Plain) {xs ys : List α} (hperm : ys.Perm xs)
    (hparts : ∀ x ∈ xs, Alike eval eval' (m x) (m' x)) (init : σ) :
    Alike eval eval' (loop step m xs init : Calls κ ι ρ σ) (loop step m' ys init) := by
  intro next next' hnext g out h
  obtain ⟨outs, rest, houts, hrest, rfl⟩ := (run_loop hm).mp h
  -- The parts answer alike, member by member, and then in the other order.
  have hsame : ∃ outs', List.Forall₂ (fun x o => run .Branch eval' (m' x).body g = some o) xs outs' ∧
      outs'.map Outcome.value = outs.map Outcome.value ∧
      (outs'.flatMap Outcome.trace).Perm (outs.flatMap Outcome.trace) := by
    clear h hrest hperm
    induction houts with
    | nil => exact ⟨[], .nil, rfl, .refl _⟩
    | @cons x o xs outs ho _ ih =>
      obtain ⟨o', ho', hvalue, htrace⟩ := (hparts x List.mem_cons_self).body g o ho
      obtain ⟨outs', houts', hvalues, htraces⟩ := ih fun y hy => hparts y (List.mem_cons_of_mem x hy)
      refine ⟨o' :: outs', .cons ho' houts', ?_, ?_⟩
      · rw [List.map_cons, List.map_cons, hvalue, hvalues]
      · exact htrace.append htraces
  obtain ⟨outs', houts', hvalues, htraces⟩ := hsame
  obtain ⟨outs'', houts'', hsame⟩ := List.perm_comp_forall₂ hperm houts'
  have hfold : (outs''.map Outcome.value).foldl step init = (outs.map Outcome.value).foldl step init := by
    rw [← hvalues]
    exact (hsame.map _).foldl_eq init
  obtain ⟨rest', hrest', hvalue, htrace⟩ := hnext _ g rest hrest
  refine ⟨_, (run_loop hm').mpr ⟨outs'', rest', houts'', ?_, rfl⟩, hvalue, ?_⟩
  · rw [hfold]
    exact hrest'
  · exact ((hsame.flatMap_right _).trans htraces).append htrace

end Alike

end guarded
