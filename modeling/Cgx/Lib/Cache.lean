import Mathlib.Logic.Function.Basic
import Cgx.Lib.Buckets
import Cgx.Lib.Result

/-! Computations that keep their answers in a table. The keys have levels, and a key's answer
is computed from the answers of keys below it: then an answer does not depend on what the
table held before. -/

namespace memo

variable {κ β γ δ α : Type} [DecidableEq κ]

abbrev Table (κ β : Type) := κ → Option β

/-- A computation over the table. It may run out of fuel. -/
abbrev Memoized (κ β : Type) := StateT (Table κ β) Option

/-- The table with `answer` held for `key`, where there is an answer. -/
def hold (table : Table κ β) (key : κ) : Option β → Table κ β
  | some answer => Function.update table key (some answer)
  | none => table

/-- The answer held for `key`, or the one of `body`, which is then held. While `body` runs the
table holds `seed` for `key`, where there is one. -/
def memoize (key : κ) (seed : Option β) (body : Memoized κ β β) : Memoized κ β β := fun table =>
  match table key with
  | some hit => some (hit, table)
  | none => do
    let (out, table) ← body (hold table key seed)
    some (out, hold table key (some out))

theorem hold_of_ne (table : Table κ β) {key k : κ} (hne : k ≠ key) (seed : Option β) :
    hold table key seed k = table k := by
  cases seed with
  | some answer => exact Function.update_of_ne hne _ _
  | none => rfl

theorem memoize_hit {table : Table κ β} {key : κ} {hit : β} (h : table key = some hit)
    (seed : Option β) (body : Memoized κ β β) :
    memoize key seed body table = some (hit, table) := by
  simp only [memoize, h]

theorem memoize_miss {table after : Table κ β} {key : κ} {seed : Option β} {out : β}
    {body : Memoized κ β β} (h : table key = none)
    (hrun : body (hold table key seed) = some (out, after)) :
    memoize key seed body table = some (out, hold after key (some out)) := by
  simp only [memoize, h, hrun, Option.bind_eq_bind, Option.bind_some]

variable (level : κ → Nat) (spec : κ → β)

/-- What the table holds for the keys below `n` is right. -/
def RightBelow (n : Nat) (table : Table κ β) : Prop :=
  ∀ key answer, level key < n → table key = some answer → answer = spec key

/-- From a table right below `n` the computation answers `v`, and leaves the entries from `n`
up as they are: among them are the seeds of the computations that are waiting for it. -/
def Answers (n : Nat) (f : Memoized κ β γ) (v : γ) : Prop :=
  ∀ table, RightBelow level spec n table →
    ∃ table', f table = some (v, table') ∧ RightBelow level spec n table' ∧
      ∀ key, n ≤ level key → table' key = table key

variable {level spec} {n n' : Nat} {f : Memoized κ β γ} {v : γ}

omit [DecidableEq κ] in
theorem Answers.pure (v : γ) : Answers level spec n (Pure.pure v) v :=
  fun table hright => ⟨table, rfl, hright, fun _ _ => rfl⟩

omit [DecidableEq κ] in
theorem Answers.bind {g : γ → Memoized κ β δ} {w : δ} (hf : Answers level spec n f v)
    (hg : Answers level spec n (g v) w) : Answers level spec n (f >>= g) w := by
  intro table hright
  obtain ⟨t₁, h₁, hright₁, hsame₁⟩ := hf table hright
  obtain ⟨t₂, h₂, hright₂, hsame₂⟩ := hg t₁ hright₁
  refine ⟨t₂, ?_, hright₂, fun key hle => (hsame₂ key hle).trans (hsame₁ key hle)⟩
  simp only [Bind.bind, StateT.bind, h₁, Option.bind_some, h₂]

omit [DecidableEq κ] in
theorem Answers.mono (hle : n ≤ n') (hf : Answers level spec n f v) : Answers level spec n' f v := by
  intro table hright
  obtain ⟨t, h, hright', hsame⟩ := hf table fun key answer hlt => hright key answer (by omega)
  refine ⟨t, h, fun key answer hlt hkey => ?_, fun key hge => hsame key (by omega)⟩
  by_cases hbelow : level key < n
  · exact hright' key answer hbelow hkey
  · rw [hsame key (by omega)] at hkey
    exact hright key answer hlt hkey

omit [DecidableEq κ] in
/-- A loop whose every round answers what the round of another loop gives. -/
theorem Answers.foldlM {step : γ → α → Memoized κ β γ} {round : γ → α → Id γ} {xs : List α}
    (h : ∀ acc, ∀ x ∈ xs, Answers level spec n (step acc x) (round acc x)) (acc : γ) :
    Answers level spec n (xs.foldlM step acc) (xs.foldlM round acc : Id γ) := by
  induction xs generalizing acc with
  | nil => exact .pure acc
  | cons x rest ih =>
    rw [List.foldlM_cons, List.foldlM_cons]
    exact (h acc x List.mem_cons_self).bind
      (ih (fun acc y hy => h acc y (List.mem_cons_of_mem x hy)) (round acc x))

/-- The body of a key may use the answers below the key. -/
theorem Answers.memoize (key : κ) (seed : Option β) {body : Memoized κ β β}
    (h : Answers level spec (level key) body (spec key)) :
    Answers level spec (level key + 1) (memo.memoize key seed body) (spec key) := by
  intro table hright
  cases hkey : table key with
  | some hit =>
    obtain rfl := hright key hit (Nat.lt_succ_self _) hkey
    exact ⟨table, memoize_hit hkey seed body, hright, fun _ _ => rfl⟩
  | none =>
    have hbelow : RightBelow level spec (level key) (hold table key seed) := by
      intro k answer hlt hk
      rw [hold_of_ne table (fun heq => by subst heq; omega)] at hk
      exact hright k answer (by omega) hk
    obtain ⟨after, hrun, hright', hsame⟩ := h _ hbelow
    refine ⟨_, memoize_miss hkey hrun, fun k answer hlt hk => ?_, fun k hge => ?_⟩
    · by_cases heq : k = key
      · subst heq
        rw [hold, Function.update_self] at hk
        exact (Option.some.inj hk).symm
      · rw [hold_of_ne after heq] at hk
        by_cases hk' : level k < level key
        · exact hright' k answer hk' hk
        · rw [hsame k (by omega), hold_of_ne table heq] at hk
          exact hright k answer hlt hk
    · have hne : k ≠ key := fun heq => by subst heq; omega
      rw [hold_of_ne after hne, hsame k (by omega), hold_of_ne table hne]

omit [DecidableEq κ] in
/-- Computations made one after another from the empty table answer as each does alone. -/
theorem answers_after {ask : κ → Memoized κ β β} {keys : List κ}
    (h : ∀ key ∈ keys, Answers level spec n (ask key) (spec key)) :
    ∃ table, (keys.mapM ask).run (fun _ => none) = some (keys.map spec, table) ∧
      RightBelow level spec n table := by
  have hall : Answers level spec n (keys.mapM ask) (keys.map spec) := by
    induction keys with
    | nil => exact .pure []
    | cons key rest ih =>
      rw [List.mapM_cons, List.map_cons]
      exact (h key List.mem_cons_self).bind
        ((ih fun k hk => h k (List.mem_cons_of_mem key hk)).bind (.pure _))
  obtain ⟨table, hrun, hright, -⟩ := hall (fun _ => none) fun _ _ _ hnone => (nomatch hnone)
  exact ⟨table, hrun, hright⟩

end memo

/-!
# Computing what a cache does not hold

A list of items is answered from a cache where it can be, the rest is computed, and a
stable sort brings the results into order. When what the cache holds is what the
computation gives, the cache can be seen in one way only: where an item that had to be
computed stood in front of an item of equal rank that was held.
-/

namespace caching

open Std sorting buckets results

variable {ε α β : Type} (cmp : β → β → Ordering)

/-- The results of the items: those held first, then the computed ones, and all sorted. -/
def gather (hit : α → Option β) (compute : α → Except ε β) (items : List α) : Except ε (List β) := do
  let computed ← (items.filter fun a => (hit a).isNone).mapM compute
  .ok (sort_by cmp (items.filterMap hit ++ computed))

/-- What is held is what the computation gives. -/
def Faithful (hit : α → Option β) (compute : α → Except ε β) (items : List α) : Prop :=
  ∀ a ∈ items, ∀ b, hit a = some b → compute a = .ok b

/-- No item that has to be computed stands in front of one of equal rank that is held. -/
def InOrder (hit : α → Option β) (compute : α → Except ε β) (items : List α) : Prop :=
  items.Pairwise fun a a' => (hit a).isNone → (hit a').isSome →
    ∀ b b', compute a = .ok b → compute a' = .ok b' → cmp b b' ≠ .eq

variable {cmp} {hit : α → Option β} {compute : α → Except ε β} {items : List α}

theorem Faithful.tail {a : α} (h : Faithful hit compute (a :: items)) : Faithful hit compute items :=
  fun a' ha' => h a' (List.mem_cons_of_mem a ha')

/-- When the items that are not held can be computed, all of them can. -/
theorem Faithful.all_of_missed (hfaithful : Faithful hit compute items) {computed : List β}
    (h : (items.filter fun a => (hit a).isNone).mapM compute = .ok computed) :
    ∃ all, items.mapM compute = .ok all := by
  induction items generalizing computed with
  | nil => exact ⟨[], rfl⟩
  | cons a rest ih =>
    rw [List.filter_cons] at h
    cases hhit : hit a with
    | none =>
      rw [hhit, Option.isNone_none, if_pos rfl, List.mapM_cons] at h
      obtain ⟨b, hb, h⟩ := bind_ok_iff.mp h
      obtain ⟨computed, hcomputed, _⟩ := bind_ok_iff.mp h
      obtain ⟨all, hall⟩ := ih hfaithful.tail hcomputed
      exact ⟨b :: all, by rw [List.mapM_cons, hb, hall]; rfl⟩
    | some b =>
      rw [hhit, Option.isNone_some, if_neg Bool.false_ne_true] at h
      obtain ⟨all, hall⟩ := ih hfaithful.tail h
      exact ⟨b :: all, by rw [List.mapM_cons, hfaithful a List.mem_cons_self b hhit, hall]; rfl⟩

/-- When all items can be computed, so can those that are not held. -/
theorem missed_of_all {all : List β} (h : items.mapM compute = .ok all) :
    ∃ computed, (items.filter fun a => (hit a).isNone).mapM compute = .ok computed := by
  induction items generalizing all with
  | nil => exact ⟨[], rfl⟩
  | cons a rest ih =>
    rw [List.mapM_cons] at h
    obtain ⟨b, hb, h⟩ := bind_ok_iff.mp h
    obtain ⟨more, hmore, _⟩ := bind_ok_iff.mp h
    obtain ⟨computed, hcomputed⟩ := ih hmore
    rw [List.filter_cons]
    split
    · exact ⟨b :: computed, by rw [List.mapM_cons, hb, hcomputed]; rfl⟩
    · exact ⟨computed, hcomputed⟩

variable [TransCmp cmp]

/-- Items in order: the results held and then the computed ones have the classes of all
results in the order of the items. -/
theorem InOrder.filter_eq (horder : InOrder cmp hit compute items) (hfaithful : Faithful hit compute items)
    {all computed : List β} (hall : items.mapM compute = .ok all)
    (hcomputed : (items.filter fun a => (hit a).isNone).mapM compute = .ok computed) (c : β) :
    (items.filterMap hit ++ computed).filter (fun b => cmp c b = .eq) = all.filter fun b => cmp c b = .eq := by
  induction items generalizing all computed with
  | nil =>
    cases hall
    cases hcomputed
    rfl
  | cons a rest ih =>
    obtain ⟨hfirst, hrest⟩ := List.pairwise_cons.mp horder
    rw [List.mapM_cons] at hall
    obtain ⟨b, hb, hall⟩ := bind_ok_iff.mp hall
    obtain ⟨more, hmore, hall⟩ := bind_ok_iff.mp hall
    cases hall
    rw [List.filter_cons] at hcomputed
    cases hhit : hit a with
    | some held =>
      rw [hhit, Option.isNone_some, if_neg Bool.false_ne_true] at hcomputed
      have heq : held = b := Except.ok.inj ((hfaithful a List.mem_cons_self held hhit).symm.trans hb)
      have htail := ih hrest hfaithful.tail hmore hcomputed
      rw [List.filterMap_cons_some hhit, heq, List.cons_append, List.filter_cons, htail, List.filter_cons]
    | none =>
      rw [hhit, Option.isNone_none, if_pos rfl, List.mapM_cons] at hcomputed
      obtain ⟨b', hb', hcomputed⟩ := bind_ok_iff.mp hcomputed
      obtain ⟨computed, hcomputed', hcomputed⟩ := bind_ok_iff.mp hcomputed
      cases hcomputed
      have heq : b' = b := Except.ok.inj (hb'.symm.trans hb)
      have htail := ih hrest hfaithful.tail hmore hcomputed'
      rw [List.filter_append] at htail
      rw [List.filterMap_cons_none hhit, heq, List.filter_append, List.filter_cons, List.filter_cons, ← htail]
      by_cases hclass : cmp c b = .eq
      · -- No result held later is of the class of this one, so this one comes first in its class.
        have hnone : (rest.filterMap hit).filter (fun b => cmp c b = .eq) = [] := by
          rw [List.filter_eq_nil_iff]
          intro later hlater hin
          obtain ⟨a', ha', hhit'⟩ := List.mem_filterMap.mp hlater
          have hbands := hfirst a' ha' (by rw [hhit]; rfl) (by rw [hhit']; rfl) b later hb
            (hfaithful a' (List.mem_cons_of_mem a ha') later hhit')
          rw [← TransCmp.congr_left hclass] at hbands
          exact hbands (of_decide_eq_true hin)
        rw [hnone, List.nil_append, List.nil_append]
      · have hdrop : decide (cmp c b = .eq) = false := decide_eq_false hclass
        rw [hdrop, if_neg Bool.false_ne_true, if_neg Bool.false_ne_true]

/-- A faithful cache cannot be seen in the results of items in order. -/
theorem gather_eq (hfaithful : Faithful hit compute items) (horder : InOrder cmp hit compute items) :
    (gather cmp hit compute items).toOption = ((items.mapM compute).map (sort_by cmp)).toOption := by
  rw [gather]
  cases hall : items.mapM compute with
  | ok all =>
    obtain ⟨computed, hcomputed⟩ : ∃ computed, (items.filter fun a => (hit a).isNone).mapM compute = .ok computed :=
      missed_of_all hall
    rw [hcomputed]
    apply congrArg some
    apply sort_by_eq_of_filter_eq (pairwise_sort_by all)
    intro c
    rw [filter_class_sort_by, horder.filter_eq hfaithful hall hcomputed]
  | error e =>
    cases hcomputed : (items.filter fun a => (hit a).isNone).mapM compute with
    | ok computed =>
      obtain ⟨all, hall'⟩ := hfaithful.all_of_missed hcomputed
      cases hall.symm.trans hall'
    | error e' => rfl

end caching
