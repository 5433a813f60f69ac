import Mathlib.Data.List.Nodup
import Mathlib.Data.List.Infix
import Mathlib.Data.List.Forall2

/-! The C3 linearization of a class over its parents: the class, then the parents'
linearizations and the list of parents merged, always taking the first head that stands in
no tail. -/

namespace linearize

variable {α : Type} [DecidableEq α]

/-- The first head that stands in the tail of no list. -/
def next_head (ls : List (List α)) : Option α :=
  (ls.filterMap List.head?).find? fun x => ls.all fun l => x ∉ l.tail

/-- Drop `x` from the front. -/
def drop_head (x : α) (l : List α) : List α :=
  if l.head? = some x then l.tail else l

def merge_within : Nat → List (List α) → Option (List α)
  | 0, ls => if ls.all List.isEmpty then some [] else none
  | fuel + 1, ls =>
    if ls.all List.isEmpty then some []
    else do
      let x ← next_head ls
      let rest ← merge_within fuel (ls.map (drop_head x))
      some (x :: rest)

/-- Every round takes an element, so the total length bounds the rounds. -/
def merge (ls : List (List α)) : Option (List α) :=
  merge_within ls.flatten.length ls

/-- The linearization of `c`, over parents that all have one. -/
def mro_within (parents : α → List α) : Nat → α → Option (List α)
  | 0, _ => none
  | fuel + 1, c => do
    let ls ← (parents c).mapM (mro_within parents fuel)
    let rest ← merge (ls ++ [parents c])
    some (c :: rest)

/-- `l` is the method resolution order of `c`. -/
def Mro (parents : α → List α) (c : α) (l : List α) : Prop :=
  ∃ fuel, mro_within parents fuel c = some l

theorem mapM_some_iff {β γ : Type} {f : β → Option γ} {l : List β} {bs : List γ} :
    l.mapM f = some bs ↔ List.Forall₂ (fun a b => f a = some b) l bs := by
  induction l generalizing bs with
  | nil => simp [eq_comm]
  | cons a rest ih =>
    rw [List.mapM_cons, List.forall₂_cons_left_iff]
    simp only [Option.bind_eq_bind, Option.bind_eq_some_iff, Option.pure_def, Option.some.injEq, ih]
    exact ⟨fun ⟨b, hb, bs, hbs, heq⟩ => ⟨b, bs, hb, hbs, heq.symm⟩,
      fun ⟨b, bs, hb, hbs, heq⟩ => ⟨b, hb, bs, hbs, heq.symm⟩⟩

theorem next_head_spec {ls : List (List α)} {x : α} (h : next_head ls = some x) :
    (∃ l ∈ ls, l.head? = some x) ∧ ∀ l ∈ ls, x ∉ l.tail := by
  have hmem := List.mem_of_find?_eq_some h
  have hfree := List.find?_some h
  obtain ⟨l, hl, hhead⟩ := List.mem_filterMap.mp hmem
  exact ⟨⟨l, hl, hhead⟩, by simpa using hfree⟩

theorem mem_of_mem_drop_head {x y : α} {l : List α} (h : y ∈ drop_head x l) : y ∈ l := by
  rw [drop_head] at h
  split at h
  · exact List.mem_of_mem_tail h
  · exact h

theorem mem_of_merge_within {fuel : Nat} {ls : List (List α)} {rest : List α} {y : α}
    (h : merge_within fuel ls = some rest) (hy : y ∈ rest) : ∃ l ∈ ls, y ∈ l := by
  induction fuel generalizing ls rest with
  | zero =>
    rw [merge_within] at h
    split at h <;> cases h
    cases hy
  | succ fuel ih =>
    rw [merge_within] at h
    split at h
    · cases h
      cases hy
    · obtain ⟨x, hx, h⟩ := Option.bind_eq_some_iff.mp h
      obtain ⟨later, hlater, h⟩ := Option.bind_eq_some_iff.mp h
      cases h
      cases List.mem_cons.mp hy with
      | inl heq =>
        obtain ⟨l, hl, hhead⟩ := (next_head_spec hx).1
        exact ⟨l, hl, heq ▸ List.mem_of_head? hhead⟩
      | inr hy =>
        obtain ⟨l', hl', hy'⟩ := ih hlater hy
        obtain ⟨l, hl, rfl⟩ := List.mem_map.mp hl'
        exact ⟨l, hl, mem_of_mem_drop_head hy'⟩

/-- A list that drops its head `x` still precedes nothing by losing it: with `x` in front
again it is a sublist of the result. -/
theorem sublist_cons_of_drop_head {x : α} {l rest : List α} (h : (drop_head x l).Sublist rest) :
    l.Sublist (x :: rest) := by
  rw [drop_head] at h
  split at h
  · rename_i hhead
    obtain ⟨tail, rfl⟩ := List.head?_eq_some_iff.mp hhead
    exact List.Sublist.cons_cons x h
  · exact List.Sublist.cons x h

theorem sublist_of_merge_within {fuel : Nat} {ls : List (List α)} {rest l : List α}
    (h : merge_within fuel ls = some rest) (hl : l ∈ ls) : l.Sublist rest := by
  have hempty : ∀ {ls : List (List α)}, ls.all List.isEmpty = true → l ∈ ls → l = [] := by
    intro ls hall hl
    simpa using List.all_eq_true.mp hall l hl
  induction fuel generalizing ls rest l with
  | zero =>
    rw [merge_within] at h
    split at h
    · rename_i hall
      rw [hempty hall hl]
      exact List.nil_sublist rest
    · cases h
  | succ fuel ih =>
    rw [merge_within] at h
    split at h
    · rename_i hall
      rw [hempty hall hl]
      exact List.nil_sublist rest
    · obtain ⟨x, hx, h⟩ := Option.bind_eq_some_iff.mp h
      obtain ⟨later, hlater, h⟩ := Option.bind_eq_some_iff.mp h
      cases h
      refine sublist_cons_of_drop_head (ih hlater (List.mem_map.mpr ⟨l, hl, rfl⟩) ?_)
      intro ls hall hl
      simpa using List.all_eq_true.mp hall _ hl

theorem not_mem_drop_head {x : α} {l : List α} (h : x ∉ l.tail) : x ∉ drop_head x l := by
  rw [drop_head]
  split
  · exact h
  · rename_i hhead
    cases l with
    | nil => exact List.not_mem_nil
    | cons y l =>
      intro hmem
      cases List.mem_cons.mp hmem with
      | inl heq => exact hhead (congrArg some heq.symm)
      | inr htail => exact h htail

theorem nodup_of_merge_within {fuel : Nat} {ls : List (List α)} {rest : List α}
    (h : merge_within fuel ls = some rest) : rest.Nodup := by
  induction fuel generalizing ls rest with
  | zero =>
    rw [merge_within] at h
    split at h <;> cases h
    exact List.nodup_nil
  | succ fuel ih =>
    rw [merge_within] at h
    split at h
    · cases h
      exact List.nodup_nil
    · obtain ⟨x, hx, h⟩ := Option.bind_eq_some_iff.mp h
      obtain ⟨later, hlater, h⟩ := Option.bind_eq_some_iff.mp h
      cases h
      refine List.nodup_cons.mpr ⟨fun hmem => ?_, ih hlater⟩
      obtain ⟨l', hl', hx'⟩ := mem_of_merge_within hlater hmem
      obtain ⟨l, hl, rfl⟩ := List.mem_map.mp hl'
      exact not_mem_drop_head ((next_head_spec hx).2 l hl) hx'

omit [DecidableEq α] in
/-- The first element that satisfies `p` comes after none that does. -/
theorem find_spec {p : α → Bool} {l : List α} {x : α} (hnodup : l.Nodup)
    (h : l.find? p = some x) :
    x ∈ l ∧ p x = true ∧ ∀ y, [y, x].Sublist l → p y = false := by
  refine ⟨List.mem_of_find?_eq_some h, by simpa using List.find?_some h, fun y hy => ?_⟩
  induction l with
  | nil => cases h
  | cons a rest ih =>
    obtain ⟨hnot, hnodup⟩ := List.nodup_cons.mp hnodup
    rw [List.find?_cons] at h
    split at h
    · -- `x` is the head, and stands only there
      cases h
      cases hy with
      | cons _ hlater => exact absurd (hlater.subset (by simp)) hnot
      | cons_cons _ hlater => exact absurd (hlater.subset (by simp)) hnot
    · rename_i ha
      cases hy with
      | cons _ hlater => exact ih hnodup h hlater
      | cons_cons _ _ => exact ha

section mro

variable {parents : α → List α} {c d : α} {l : List α} {fuel : Nat}

theorem mro_within_spec (h : mro_within parents (fuel + 1) c = some l) :
    ∃ ls rest, List.Forall₂ (fun p o => mro_within parents fuel p = some o) (parents c) ls ∧
      merge (ls ++ [parents c]) = some rest ∧ l = c :: rest := by
  rw [mro_within] at h
  obtain ⟨ls, hls, h⟩ := Option.bind_eq_some_iff.mp h
  obtain ⟨rest, hrest, h⟩ := Option.bind_eq_some_iff.mp h
  cases h
  exact ⟨ls, rest, mapM_some_iff.mp hls, hrest, rfl⟩

theorem head_of_mro_within (h : mro_within parents fuel c = some l) : c ∈ l := by
  cases fuel with
  | zero => cases h
  | succ fuel =>
    obtain ⟨ls, rest, -, -, rfl⟩ := mro_within_spec h
    exact List.mem_cons_self

/-- The orders merged for `c` are those of its parents. -/
theorem orders_spec {ps : List α} {ls : List (List α)}
    (h : List.Forall₂ (fun p o => mro_within parents fuel p = some o) ps ls) :
    (∀ p ∈ ps, ∃ o ∈ ls, mro_within parents fuel p = some o) ∧
      ∀ o ∈ ls, ∃ p ∈ ps, mro_within parents fuel p = some o := by
  induction h with
  | nil => exact ⟨fun p hp => (nomatch hp), fun o ho => (nomatch ho)⟩
  | cons hpo _ ih => simp_all

/-- A class after the first is in the order of a parent, which is a sublist of what follows
the first. -/
theorem exists_parent_of_mem (h : mro_within parents (fuel + 1) c = some l) (hd : d ∈ l)
    (hne : d ≠ c) :
    ∃ rest, l = c :: rest ∧ ∃ p ∈ parents c, ∃ o, mro_within parents fuel p = some o ∧ d ∈ o ∧
      o.Sublist rest := by
  obtain ⟨ls, rest, hls, hrest, rfl⟩ := mro_within_spec h
  have hmem : d ∈ rest := (List.mem_cons.mp hd).resolve_left hne
  refine ⟨rest, rfl, ?_⟩
  obtain ⟨o, ho, hdo⟩ := mem_of_merge_within hrest hmem
  cases List.mem_append.mp ho with
  | inl ho =>
    obtain ⟨p, hp, hpo⟩ := (orders_spec hls).2 o ho
    exact ⟨p, hp, o, hpo, hdo, sublist_of_merge_within hrest (List.mem_append_left _ ho)⟩
  | inr ho =>
    -- `d` is a parent itself: it heads its own order
    obtain rfl := List.mem_singleton.mp ho
    obtain ⟨o, ho, hdo'⟩ := (orders_spec hls).1 d hdo
    exact ⟨d, hdo, o, hdo', head_of_mro_within hdo',
      sublist_of_merge_within hrest (List.mem_append_left _ ho)⟩

theorem mro_within_mono {fuel' : Nat} (hle : fuel ≤ fuel') (h : mro_within parents fuel c = some l) :
    mro_within parents fuel' c = some l := by
  induction fuel generalizing fuel' c l with
  | zero => cases h
  | succ fuel ih =>
    obtain ⟨fuel', rfl⟩ : ∃ k, fuel' = k + 1 := ⟨fuel' - 1, by omega⟩
    obtain ⟨ls, rest, hls, hrest, rfl⟩ := mro_within_spec h
    have hls' : (parents c).mapM (mro_within parents fuel') = some ls :=
      mapM_some_iff.mpr (hls.imp fun p o hp => ih (by omega) hp)
    rw [mro_within, hls']
    simp only [Option.bind_eq_bind, Option.bind_some, hrest]

theorem Mro.unique {l' : List α} (h : Mro parents c l) (h' : Mro parents c l') : l = l' := by
  obtain ⟨fuel, h⟩ := h
  obtain ⟨fuel', h'⟩ := h'
  have hmax := mro_within_mono (Nat.le_max_left fuel fuel') h
  rw [mro_within_mono (Nat.le_max_right fuel fuel') h'] at hmax
  exact (Option.some.inj hmax).symm

/-- A class of the order has an order of its own, found with no more fuel. -/
theorem exists_mro_within_of_mem (h : mro_within parents fuel c = some l) (hd : d ∈ l) :
    d = c ∨ ∃ fuel' < fuel, ∃ o, mro_within parents fuel' d = some o := by
  induction fuel generalizing c l with
  | zero => cases h
  | succ fuel ih =>
    by_cases hne : d = c
    · exact .inl hne
    · obtain ⟨rest, -, p, -, o, hp, hdo, -⟩ := exists_parent_of_mem h hd hne
      cases ih hp hdo with
      | inl heq => exact .inr ⟨fuel, by omega, o, heq ▸ hp⟩
      | inr hlater =>
        obtain ⟨fuel', hlt, o', ho'⟩ := hlater
        exact .inr ⟨fuel', by omega, o', ho'⟩

/-- No class stands twice: a class after itself would have an order found with less fuel, and
so with none. -/
theorem nodup_of_mro_within (h : mro_within parents fuel c = some l) : l.Nodup := by
  induction fuel generalizing l with
  | zero => cases h
  | succ fuel ih =>
    cases hless : mro_within parents fuel c with
    | some l' =>
      have heq := mro_within_mono (Nat.le_succ fuel) hless
      rw [h] at heq
      cases heq
      exact ih hless
    | none =>
      obtain ⟨ls, rest, hls, hrest, rfl⟩ := mro_within_spec h
      refine List.nodup_cons.mpr ⟨fun hmem => ?_, nodup_of_merge_within hrest⟩
      obtain ⟨o, ho, hco⟩ := mem_of_merge_within hrest hmem
      have hself : ∃ fuel' ≤ fuel, ∃ o', mro_within parents fuel' c = some o' := by
        cases List.mem_append.mp ho with
        | inl ho =>
          obtain ⟨p, -, hp⟩ := (orders_spec hls).2 o ho
          cases exists_mro_within_of_mem hp hco with
          | inl heq => exact ⟨fuel, Nat.le_refl _, o, heq ▸ hp⟩
          | inr hlater =>
            obtain ⟨fuel', hlt, o', ho'⟩ := hlater
            exact ⟨fuel', by omega, o', ho'⟩
        | inr ho =>
          obtain rfl := List.mem_singleton.mp ho
          obtain ⟨o', -, ho'⟩ := (orders_spec hls).1 c hco
          exact ⟨fuel, Nat.le_refl _, o', ho'⟩
      obtain ⟨fuel', hle, o', ho'⟩ := hself
      rw [mro_within_mono hle ho'] at hless
      cases hless

theorem Mro.nodup (h : Mro parents c l) : l.Nodup := by
  obtain ⟨fuel, h⟩ := h
  exact nodup_of_mro_within h

end mro

end linearize
