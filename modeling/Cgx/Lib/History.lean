import Mathlib.Data.List.Basic
import Mathlib.Data.List.Induction

/-! The elements of a list together with what precedes them, and runs that keep a log. -/

namespace history

variable {α β σ : Type}

def preceded_from (before : List α) : List α → List (List α × α)
  | [] => []
  | x :: rest => (before, x) :: preceded_from (before ++ [x]) rest

/-- Each element of a list with the elements before it. -/
def preceded (l : List α) : List (List α × α) :=
  preceded_from [] l

theorem mem_preceded_from {before l b : List α} {x : α} :
    (b, x) ∈ preceded_from before l ↔ ∃ pre after, l = pre ++ x :: after ∧ b = before ++ pre := by
  induction l generalizing before with
  | nil => simp [preceded_from]
  | cons y rest ih =>
    rw [preceded_from, List.mem_cons, ih]
    constructor
    · rintro (heq | ⟨pre, after, rfl, rfl⟩)
      · obtain ⟨rfl, rfl⟩ := Prod.mk.inj heq
        exact ⟨[], rest, rfl, (List.append_nil b).symm⟩
      · exact ⟨y :: pre, after, rfl, List.append_assoc ..⟩
    · rintro ⟨pre, after, heq, rfl⟩
      cases pre with
      | nil =>
        obtain ⟨rfl, rfl⟩ := List.cons.inj heq
        exact .inl (by rw [List.append_nil])
      | cons z pre =>
        obtain ⟨rfl, rfl⟩ := List.cons.inj heq
        exact .inr ⟨pre, after, rfl, (List.append_assoc before [y] pre).symm⟩

theorem mem_preceded {l before : List α} {x : α} :
    (before, x) ∈ preceded l ↔ ∃ after, l = before ++ x :: after := by
  rw [preceded, mem_preceded_from]
  constructor
  · rintro ⟨pre, after, heq, rfl⟩
    exact ⟨after, heq⟩
  · rintro ⟨after, heq⟩
    exact ⟨before, after, heq, rfl⟩

section log

variable {step : σ → α → σ} {out : σ → α → List β} {log : σ → List β}

theorem foldl_log_from (hstep : ∀ s x, log (step s x) = log s ++ out s x) (s : σ) (before l : List α) :
    log (l.foldl step (before.foldl step s)) =
      log (before.foldl step s) ++ (preceded_from before l).flatMap fun t => out (t.1.foldl step s) t.2 := by
  induction l generalizing before with
  | nil => rw [preceded_from, List.flatMap_nil, List.append_nil, List.foldl_nil]
  | cons x rest ih =>
    have happend : step (before.foldl step s) x = (before ++ [x]).foldl step s := by
      rw [List.foldl_append, List.foldl_cons, List.foldl_nil]
    rw [List.foldl_cons, happend, ih, ← happend, hstep, preceded_from, List.flatMap_cons, List.append_assoc]

/-- A log is what each step writes, in the state that the steps before it lead to. -/
theorem foldl_log (hstep : ∀ s x, log (step s x) = log s ++ out s x) (s : σ) (l : List α) :
    log (l.foldl step s) = log s ++ (preceded l).flatMap fun t => out (t.1.foldl step s) t.2 :=
  foldl_log_from hstep s [] l

end log

section view

variable {step : σ → α → σ} {own : β → α → β} {p : α → Bool}

/-- A part of the state that only the elements with `p` change, by what it holds, is a run over
these elements. -/
theorem foldl_view (view : σ → β) (hstep : ∀ s x, view (step s x) = if p x then own (view s) x else view s) (s : σ)
    (l : List α) : view (l.foldl step s) = (l.filter p).foldl own (view s) := by
  induction l generalizing s with
  | nil => rfl
  | cons x rest ih =>
    rw [List.foldl_cons, ih, hstep, List.filter_cons]
    cases p x <;> rfl

end view

section latest

variable {p : α → Bool} {f : α → β} {d : β}

/-- The value of the last element that satisfies `p`, or the default. -/
def latest (p : α → Bool) (f : α → β) (d : β) (l : List α) : β :=
  ((l.reverse.find? p).map f).getD d

@[simp] theorem latest_nil : latest p f d [] = d := rfl

theorem latest_append_singleton (l : List α) (x : α) :
    latest p f d (l ++ [x]) = if p x then f x else latest p f d l := by
  rw [latest, List.reverse_append, List.reverse_singleton, List.singleton_append, List.find?_cons]
  cases p x <;> rfl

/-- A cell that the elements with `p` write, and no others, holds the latest value. -/
theorem foldl_latest {step : σ → α → σ} (cell : σ → β)
    (hstep : ∀ s x, cell (step s x) = if p x then f x else cell s) (s : σ) (l : List α) :
    cell (l.foldl step s) = latest p f (cell s) l := by
  induction l using List.reverseRecOn with
  | nil => rfl
  | append_singleton l x ih =>
    rw [List.foldl_append, List.foldl_cons, List.foldl_nil, hstep, ih, latest_append_singleton]

end latest

end history

/-! The last element of a list that satisfies a predicate. -/

namespace last

variable {α : Type} {p : α → Bool} {l : List α} {x : α}

/-- `x` is the last element that satisfies `p`. -/
def LastOf (p : α → Bool) (l : List α) (x : α) : Prop :=
  ∃ before after, l = before ++ x :: after ∧ p x = true ∧ ∀ y ∈ after, p y = false

theorem find?_reverse_eq_some_iff : l.reverse.find? p = some x ↔ LastOf p l x := by
  rw [List.find?_eq_some_iff_append]
  constructor
  · rintro ⟨hx, after, before, heq, hafter⟩
    refine ⟨before.reverse, after.reverse, ?_, hx, fun y hy => ?_⟩
    · have hl := congrArg List.reverse heq
      rw [List.reverse_reverse, List.reverse_append, List.reverse_cons, List.append_assoc] at hl
      exact hl
    · simpa using hafter y (List.mem_reverse.mp hy)
  · rintro ⟨before, after, rfl, hx, hafter⟩
    refine ⟨hx, after.reverse, before.reverse, ?_, fun y hy => ?_⟩
    · rw [List.reverse_append, List.reverse_cons, List.append_assoc]
      rfl
    · simp [hafter y (List.mem_reverse.mp hy)]

/-- The place of the last element that satisfies a predicate. -/
theorem zipIdx_find?_reverse_iff {i : Nat} :
    (l.zipIdx.reverse.find? fun e => p e.1) = some (x, i) ↔
      ∃ before after, l = before ++ x :: after ∧ before.length = i ∧ p x = true ∧ ∀ y ∈ after, p y = false := by
  rw [find?_reverse_eq_some_iff]
  constructor
  · rintro ⟨before, after, heq, hx, hafter⟩
    obtain ⟨l₁, l₂, rfl, rfl, htail⟩ := List.zipIdx_eq_append_iff.mp heq
    obtain ⟨a, as, rfl, ha, rfl⟩ := List.zipIdx_eq_cons_iff.mp htail.symm
    obtain ⟨rfl, rfl⟩ := Prod.mk.inj ha
    refine ⟨l₁, as, rfl, (Nat.zero_add _).symm, hx, fun y hy => ?_⟩
    rw [← List.zipIdx_map_fst (0 + l₁.length + 1) as] at hy
    obtain ⟨e, he, rfl⟩ := List.mem_map.mp hy
    exact hafter e he
  · rintro ⟨before, after, rfl, rfl, hx, hafter⟩
    refine ⟨before.zipIdx, after.zipIdx (before.length + 1), ?_, hx, fun y hy => ?_⟩
    · rw [List.zipIdx_append, List.zipIdx_cons, Nat.zero_add]
    · exact hafter y.1 (List.fst_mem_of_mem_zipIdx hy)

end last
