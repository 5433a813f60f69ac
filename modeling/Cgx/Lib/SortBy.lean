import Mathlib.Data.List.Forall2
import Mathlib.Data.List.Pairwise
import Mathlib.Data.List.Perm.Basic
import Mathlib.Data.List.Sort

namespace sorting

open Std

variable {α : Type}

/-- A stable sort by a comparator. -/
def sort_by (cmp : α → α → Ordering) (l : List α) : List α :=
  l.insertionSort fun a b => (cmp a b).isLE

/-- Every element is at most its successor. -/
def is_sorted (cmp : α → α → Ordering) (l : List α) : Bool :=
  (l.zip l.tail).all fun pair => (cmp pair.1 pair.2).isLE

variable {cmp : α → α → Ordering}

@[simp] theorem mem_sort_by {l : List α} {a : α} : a ∈ sort_by cmp l ↔ a ∈ l :=
  List.mem_insertionSort _

theorem perm_sort_by (l : List α) : (sort_by cmp l).Perm l :=
  List.perm_insertionSort _ l

@[simp] theorem length_sort_by (l : List α) : (sort_by cmp l).length = l.length :=
  (perm_sort_by l).length_eq

@[simp] theorem sort_by_eq_nil {l : List α} : sort_by cmp l = [] ↔ l = [] := by
  rw [← List.length_eq_zero_iff, length_sort_by, List.length_eq_zero_iff]

/-- A sort by a key of the elements is the sort of the keys. -/
theorem map_sort_by {β : Type} {cmp' : β → β → Ordering} (f : α → β)
    (hcmp : ∀ a b, cmp a b = cmp' (f a) (f b)) (l : List α) :
    (sort_by cmp l).map f = sort_by cmp' (l.map f) := by
  apply List.map_insertionSort
  intro a _ b _
  rw [hcmp]

/-- A sorted list is left alone. -/
theorem sort_by_eq_self {l : List α} (h : l.Pairwise fun a b => (cmp a b).isLE) :
    sort_by cmp l = l :=
  h.insertionSort_eq

/-- Comparing by a key keeps the order laws. -/
theorem trans_on (cmp : α → α → Ordering) [TransCmp cmp] {β : Type} (f : β → α) :
    TransCmp fun a b => cmp (f a) (f b) where
  eq_swap := OrientedCmp.eq_swap
  isLE_trans := TransCmp.isLE_trans

variable [TransCmp cmp]

theorem isLE_iff_ne_lt {a b : α} : (cmp a b).isLE = true ↔ cmp b a ≠ .lt := by
  have hswap : cmp a b = (cmp b a).swap := OrientedCmp.eq_swap
  rw [hswap]
  cases cmp b a <;> simp

theorem isLE_total (a b : α) : (cmp a b).isLE ∨ (cmp b a).isLE := by
  have hswap : cmp a b = (cmp b a).swap := OrientedCmp.eq_swap
  rw [hswap]
  cases cmp b a <;> simp

theorem pairwise_sort_by (l : List α) : (sort_by cmp l).Pairwise fun a b => (cmp a b).isLE := by
  have : IsTrans α fun a b => (cmp a b).isLE := ⟨fun _ _ _ => TransCmp.isLE_trans⟩
  have : Std.Total fun a b => (cmp a b).isLE := ⟨isLE_total⟩
  exact List.pairwise_insertionSort _ l

/-- It is enough that the elements of the list are in order. -/
theorem pairwise_sort_by_of_mem {cmp : α → α → Ordering} {l : List α} (hswap : ∀ a b, cmp b a = (cmp a b).swap)
    (htrans : ∀ a ∈ l, ∀ b ∈ l, ∀ c ∈ l, (cmp a b).isLE → (cmp b c).isLE → (cmp a c).isLE) :
    (sort_by cmp l).Pairwise fun a b => (cmp a b).isLE := by
  have hlaws : TransCmp fun a b : {a // a ∈ l} => cmp a.1 b.1 :=
    { eq_swap := fun {a b} => hswap b.1 a.1
      isLE_trans := fun {a b c} => htrans a.1 a.2 b.1 b.2 c.1 c.2 }
  have hattach : (sort_by (fun a b : {a // a ∈ l} => cmp a.1 b.1) l.attach).map Subtype.val = sort_by cmp l := by
    rw [map_sort_by Subtype.val fun _ _ => rfl, List.attach_map_subtype_val]
  rw [← hattach, List.pairwise_map]
  exact pairwise_sort_by l.attach

/-- Rearranged lists sort the same when their elements are in order and never tie. -/
theorem sort_by_perm_of_mem {cmp : α → α → Ordering} {l l' : List α} (hswap : ∀ a b, cmp b a = (cmp a b).swap)
    (htrans : ∀ a ∈ l, ∀ b ∈ l, ∀ c ∈ l, (cmp a b).isLE → (cmp b c).isLE → (cmp a c).isLE)
    (hinj : ∀ a ∈ l, ∀ b ∈ l, cmp a b = .eq → a = b) (hperm : l.Perm l') : sort_by cmp l' = sort_by cmp l := by
  have hmem : ∀ {a}, a ∈ l' → a ∈ l := fun ha => hperm.mem_iff.mpr ha
  refine List.Perm.eq_of_pairwise (fun a b ha hb hab hba => ?_)
    (pairwise_sort_by_of_mem hswap fun a ha b hb c hc => htrans a (hmem ha) b (hmem hb) c (hmem hc))
    (pairwise_sort_by_of_mem hswap htrans) ((perm_sort_by l').trans (hperm.symm.trans (perm_sort_by l).symm))
  refine hinj a (hmem (mem_sort_by.mp ha)) b (mem_sort_by.mp hb) ?_
  rw [hswap a b] at hba
  cases hcmp : cmp a b <;> simp [hcmp] at hab hba ⊢

/-- Elements of a set that are each at most the next around a circle compare equal. -/
def CirclesTie (cmp : α → α → Ordering) (S : α → Prop) : Prop :=
  ∀ a b c, S a → S b → S c → (cmp a b).isLE → (cmp b c).isLE → (cmp c a).isLE →
    cmp a b = .eq ∧ cmp b c = .eq ∧ cmp c a = .eq

/-- Where circles compare equal, the order is transitive. -/
theorem CirclesTie.trans {cmp : α → α → Ordering} {S : α → Prop} (h : CirclesTie cmp S)
    (hswap : ∀ a b, cmp b a = (cmp a b).swap) {a b c : α} (ha : S a) (hb : S b) (hc : S c) (hab : (cmp a b).isLE)
    (hbc : (cmp b c).isLE) : (cmp a c).isLE := by
  by_contra hnot
  have hgt : cmp a c = .gt := by
    cases hcmp : cmp a c <;> simp [hcmp] at hnot ⊢
  have hlt : cmp c a = .lt := by
    rw [hswap a c, hgt]
    rfl
  obtain ⟨_, _, heq⟩ := h a b c ha hb hc hab hbc (by rw [hlt]; rfl)
  rw [hlt] at heq
  cases heq

/-- The opposite order has the same circles, walked the other way. -/
theorem CirclesTie.opposite {cmp : α → α → Ordering} {S : α → Prop} (h : CirclesTie cmp S)
    (hswap : ∀ a b, cmp b a = (cmp a b).swap) : CirclesTie (fun a b => (cmp a b).swap) S := by
  intro a b c ha hb hc hab hbc hca
  simp only [← hswap] at hab hbc hca ⊢
  obtain ⟨hac, hcb, hba⟩ := h a c b ha hc hb hca hbc hab
  exact ⟨hba, hcb, hac⟩

/-- Rearranged lists sort the same when circles of their elements compare equal and none tie. -/
theorem CirclesTie.sort_by_perm {cmp : α → α → Ordering} {S : α → Prop} (h : CirclesTie cmp S)
    (hswap : ∀ a b, cmp b a = (cmp a b).swap) {l l' : List α} (hS : ∀ a ∈ l, S a)
    (hinj : ∀ a ∈ l, ∀ b ∈ l, cmp a b = .eq → a = b) (hperm : l.Perm l') : sort_by cmp l' = sort_by cmp l :=
  sort_by_perm_of_mem hswap (fun a ha b hb c hc => h.trans hswap (hS a ha) (hS b hb) (hS c hc)) hinj hperm

/-- Elements that are each at most the next around a circle compare equal. -/
theorem eq_of_isLE_cycle {a b c : α} (hab : (cmp a b).isLE) (hbc : (cmp b c).isLE) (hca : (cmp c a).isLE) :
    cmp a b = .eq :=
  OrientedCmp.isLE_antisymm hab (TransCmp.isLE_trans hbc hca)

theorem is_sorted_iff {l : List α} :
    is_sorted cmp l = true ↔ l.Pairwise fun a b => (cmp a b).isLE := by
  induction l with
  | nil => simp [is_sorted]
  | cons a rest ih =>
    cases rest with
    | nil => simp [is_sorted]
    | cons b rest =>
      have hstep : is_sorted cmp (a :: b :: rest) = true ↔
          (cmp a b).isLE ∧ is_sorted cmp (b :: rest) = true := by
        simp [is_sorted]
      rw [hstep, ih, List.pairwise_cons (a := a)]
      constructor
      · rintro ⟨hab, hrest⟩
        refine ⟨?_, hrest⟩
        intro c hc
        cases List.mem_cons.mp hc with
        | inl heq => rwa [heq]
        | inr hmem => exact TransCmp.isLE_trans hab ((List.pairwise_cons.mp hrest).1 c hmem)
      · rintro ⟨ha, hrest⟩
        exact ⟨ha b List.mem_cons_self, hrest⟩

/-- Two sorted arrangements of one list are equal when equal keys mean equal elements. -/
theorem sort_by_eq_of_perm {l l' : List α} (hinj : ∀ a ∈ l, ∀ b ∈ l, cmp a b = .eq → a = b)
    (hl : l.Pairwise fun a b => (cmp a b).isLE) (hperm : l'.Perm l) : sort_by cmp l' = l := by
  apply List.Perm.eq_of_pairwise _ (pairwise_sort_by l') hl ((perm_sort_by l').trans hperm)
  intro a b ha hb hab hba
  have hmem : a ∈ l := hperm.mem_iff.mp (mem_sort_by.mp ha)
  apply hinj a hmem b hb
  have hne := isLE_iff_ne_lt.mp hba
  cases hcmp : cmp a b with
  | lt => exact absurd hcmp hne
  | eq => rfl
  | gt => simp [hcmp] at hab

/-- In a sorted list, the elements below `a` are a prefix. -/
theorem length_takeWhile_lt {l : List α} (h : l.Pairwise fun a b => (cmp a b).isLE) (a : α) :
    (l.takeWhile fun b => ¬ (cmp a b).isLE).length = l.countP fun b => cmp b a = .lt := by
  induction l with
  | nil => rfl
  | cons b rest ih =>
    obtain ⟨hb, hrest⟩ := List.pairwise_cons.mp h
    by_cases hab : (cmp a b).isLE = true
    · have hzero : ∀ c ∈ b :: rest, cmp c a ≠ .lt := by
        intro c hc
        apply isLE_iff_ne_lt.mp
        cases List.mem_cons.mp hc with
        | inl heq => rwa [heq]
        | inr hmem => exact TransCmp.isLE_trans hab (hb c hmem)
      rw [List.countP_eq_zero.mpr (by simpa using hzero), List.takeWhile_cons_of_neg (by simp [hab])]
      rfl
    · have hlt : cmp b a = .lt := by
        by_contra hne
        exact hab (isLE_iff_ne_lt.mpr hne)
      rw [List.takeWhile_cons_of_pos (by simp [hab]), List.countP_cons_of_pos (by simp [hlt]),
        List.length_cons, ih hrest]

/-- Inserting `a` puts it right behind the elements below it. -/
theorem getElem?_orderedInsert_self {l : List α} (h : l.Pairwise fun a b => (cmp a b).isLE) (a : α) :
    (l.orderedInsert (fun a b => (cmp a b).isLE) a)[l.countP fun b => cmp b a = .lt]? = some a := by
  rw [List.orderedInsert_eq_take_drop, ← length_takeWhile_lt h]
  simp

/-- Inserting `a` moves what stands behind the elements below it by one. -/
theorem getElem?_orderedInsert_succ {l : List α} (h : l.Pairwise fun a b => (cmp a b).isLE) (a : α)
    {k : Nat} (hk : (l.countP fun b => cmp b a = .lt) ≤ k) :
    (l.orderedInsert (fun a b => (cmp a b).isLE) a)[k + 1]? = l[k]? := by
  rw [List.orderedInsert_eq_take_drop]
  rw [← length_takeWhile_lt h] at hk
  conv_rhs => rw [← List.takeWhile_append_dropWhile (p := fun b => ¬ (cmp a b).isLE) (l := l)]
  rw [List.getElem?_append_right (by omega), List.getElem?_append_right hk,
    Nat.sub_add_comm hk, List.getElem?_cons_succ]

/-- Where a stable sort puts an element of a sorted prefix: behind its place there
by the number of later elements that are below it. -/
theorem getElem?_sort_by_append {xs ys : List α} (h : xs.Pairwise fun a b => (cmp a b).isLE)
    {i : Nat} {x : α} (hx : xs[i]? = some x) :
    (sort_by cmp (xs ++ ys))[i + ys.countP fun y => cmp y x = .lt]? = some x := by
  induction xs generalizing i with
  | nil => simp at hx
  | cons a rest ih =>
    obtain ⟨ha, hrest⟩ := List.pairwise_cons.mp h
    -- Nothing of the prefix is below its first element.
    have hcount : ((sort_by cmp (rest ++ ys)).countP fun b => cmp b a = .lt) =
        ys.countP fun y => cmp y a = .lt := by
      rw [(perm_sort_by (rest ++ ys)).countP_eq, List.countP_append, Nat.add_eq_right]
      apply List.countP_eq_zero.mpr
      intro b hb
      simpa using isLE_iff_ne_lt.mp (ha b hb)
    have hsorted : (sort_by cmp (rest ++ ys)).Pairwise _ := pairwise_sort_by (rest ++ ys)
    cases i with
    | zero =>
      simp only [List.getElem?_cons_zero, Option.some.injEq] at hx
      subst hx
      rw [Nat.zero_add, ← hcount]
      exact getElem?_orderedInsert_self hsorted a
    | succ i =>
      rw [List.getElem?_cons_succ] at hx
      have hle : (ys.countP fun y => cmp y a = .lt) ≤ ys.countP fun y => cmp y x = .lt := by
        apply List.countP_mono_left
        intro y _ hy
        have hyx := TransCmp.lt_of_lt_of_isLE (by simpa using hy) (ha x (List.mem_of_getElem? hx))
        simpa using hyx
      rw [Nat.succ_add, ← ih hrest hx]
      exact getElem?_orderedInsert_succ hsorted a (by omega)

end sorting

/-! The sort is stable: what compares equal keeps its order, and that with the order of the
rest says what a sorted list is. -/

namespace sorting

open Std

variable {α : Type} {cmp : α → α → Ordering}

/-- The elements that compare equal to `a`, in order. -/
def alike (cmp : α → α → Ordering) (a : α) (l : List α) : List α :=
  l.filter fun b => cmp a b == .eq

theorem mem_alike {l : List α} {a b : α} : b ∈ alike cmp a l ↔ b ∈ l ∧ cmp a b = .eq := by
  simp [alike]

variable [TransCmp cmp]

theorem eq_of_eq_of_eq {a b c : α} (hb : cmp a b = .eq) (hc : cmp a c = .eq) : cmp b c = .eq :=
  TransCmp.eq_trans (OrientedCmp.eq_symm hb) hc

/-- Sorting keeps the order of the elements that compare equal. -/
theorem alike_sort_by (a : α) (l : List α) : alike cmp a (sort_by cmp l) = alike cmp a l := by
  have hpairwise : (alike cmp a l).Pairwise fun b c => (cmp b c).isLE := by
    apply List.pairwise_of_forall_mem_list
    intro b hb c hc
    rw [eq_of_eq_of_eq (mem_alike.mp hb).2 (mem_alike.mp hc).2]
    rfl
  have hsub : (alike cmp a l).Sublist (sort_by cmp l) := List.sublist_insertionSort hpairwise List.filter_sublist
  have hfilter := hsub.filter fun b => cmp a b == .eq
  rw [alike, List.filter_filter] at hfilter
  simp only [Bool.and_self] at hfilter
  exact (hfilter.eq_of_length ((perm_sort_by l).filter _).length_eq.symm).symm

theorem mem_of_alike {l l' : List α} {a : α} (h : alike cmp a l = alike cmp a l') (ha : a ∈ l) : a ∈ l' := by
  have hself : cmp a a = .eq := ReflCmp.compare_self
  exact (mem_alike.mp (h ▸ mem_alike.mpr ⟨ha, hself⟩)).1

theorem head_isLE {x : α} {t : List α} (h : (x :: t).Pairwise fun a b => (cmp a b).isLE) {y : α} (hy : y ∈ x :: t) :
    (cmp x y).isLE := by
  obtain rfl | hy := List.mem_cons.mp hy
  · have hself : cmp y y = .eq := ReflCmp.compare_self
    rw [hself]
    rfl
  · exact (List.pairwise_cons.mp h).1 y hy

/-- A sorted list is determined by the order of its elements that compare equal. -/
theorem eq_of_alike {l l' : List α} (hl : l.Pairwise fun a b => (cmp a b).isLE)
    (hl' : l'.Pairwise fun a b => (cmp a b).isLE) (h : ∀ a, a ∈ l ∨ a ∈ l' → alike cmp a l = alike cmp a l') : l = l' := by
  induction l generalizing l' with
  | nil =>
    symm
    rw [List.eq_nil_iff_forall_not_mem]
    exact fun a ha => List.not_mem_nil (mem_of_alike (h a (.inr ha)).symm ha)
  | cons x t ih =>
    cases l' with
    | nil => exact absurd (mem_of_alike (h x (.inl List.mem_cons_self)) List.mem_cons_self) List.not_mem_nil
    | cons y t' =>
      have hxy : cmp x y = .eq := OrientedCmp.isLE_antisymm
        (head_isLE hl (mem_of_alike (h y (.inr List.mem_cons_self)).symm List.mem_cons_self))
        (head_isLE hl' (mem_of_alike (h x (.inl List.mem_cons_self)) List.mem_cons_self))
      have hself : cmp x x = .eq := ReflCmp.compare_self
      have hheads := h x (.inl List.mem_cons_self)
      rw [alike, alike, List.filter_cons_of_pos (by simp [hself]), List.filter_cons_of_pos (by simp [hxy])] at hheads
      obtain rfl := (List.cons.inj hheads).1
      have htails : ∀ a, a ∈ t ∨ a ∈ t' → alike cmp a t = alike cmp a t' := by
        intro a hmem
        have ha := h a (hmem.imp (List.mem_cons_of_mem x) (List.mem_cons_of_mem x))
        rw [alike, alike, List.filter_cons, List.filter_cons] at ha
        split at ha
        · exact (List.cons.inj ha).2
        · exact ha
      rw [ih (List.pairwise_cons.mp hl).2 (List.pairwise_cons.mp hl').2 htails]

/-- A list is sorted by a comparison that keeps apart what the first sort keeps apart. -/
theorem sort_by_sort_by {cmp' : α → α → Ordering} [TransCmp cmp'] {l : List α}
    (h : ∀ a ∈ l, ∀ b ∈ l, cmp a b = .eq → cmp' a b = .eq) : sort_by cmp (sort_by cmp' l) = sort_by cmp l := by
  apply eq_of_alike (pairwise_sort_by _) (pairwise_sort_by _)
  intro a hmem
  have ha : a ∈ l := by simpa using hmem
  -- What compares equal to `a` now did so in the first sort.
  have hsame : ∀ m : List α, (∀ b ∈ m, b ∈ l) → alike cmp a m = alike cmp a (alike cmp' a m) := by
    intro m hm
    rw [alike, alike, alike, List.filter_filter]
    apply List.filter_congr
    intro b hb
    by_cases hab : cmp a b = .eq
    · simp [hab, h a ha b (hm b hb) hab]
    · simp [hab]
  rw [alike_sort_by, alike_sort_by, hsame _ fun b hb => mem_sort_by.mp hb, alike_sort_by, ← hsame l fun b hb => hb]

/-- Nor does it matter to a sort of the images, if equal images come from equals. -/
theorem sort_by_map_sort_by {β : Type} {cmp' : β → β → Ordering} [TransCmp cmp'] (f : α → β) {l : List α}
    (h : ∀ a ∈ l, ∀ b ∈ l, cmp' (f a) (f b) = .eq → cmp a b = .eq) :
    sort_by cmp' ((sort_by cmp l).map f) = sort_by cmp' (l.map f) := by
  have : TransCmp fun a b => cmp' (f a) (f b) := trans_on cmp' f
  rw [← map_sort_by f (fun _ _ => rfl), ← map_sort_by f (fun _ _ => rfl), sort_by_sort_by h]

/-- Of two elements that compare equal, the first in the list is the first in the sorted one. -/
theorem sublist_of_sort_by {l : List α} {a b : α} (hab : cmp a b = .eq) (h : [a, b].Sublist (sort_by cmp l)) :
    [a, b].Sublist l := by
  have hself : cmp a a = .eq := ReflCmp.compare_self
  have halike : alike cmp a [a, b] = [a, b] := by simp [alike, hab, hself]
  have hsub := h.filter fun c => cmp a c == .eq
  rw [← alike, ← alike, halike, alike_sort_by] at hsub
  exact hsub.trans List.filter_sublist

/-- A sort that breaks ties by the order the list is in is the stable one. -/
theorem sort_by_compareLex {cmp' : α → α → Ordering} [TransCmp cmp'] {l : List α}
    (h : l.Pairwise fun a b => (cmp' a b).isLE) : sort_by (compareLex cmp cmp') l = sort_by cmp l := by
  apply eq_of_alike (pairwise_sort_by l)
  · rw [List.pairwise_iff_forall_sublist]
    intro a b hsub
    have hle := (List.pairwise_iff_forall_sublist.mp (pairwise_sort_by l)) hsub
    cases hab : cmp a b with
    | lt => simp [compareLex, hab]
    | eq =>
      have htie := (List.pairwise_iff_forall_sublist.mp h) (sublist_of_sort_by hab hsub)
      simpa [compareLex, hab] using htie
    | gt => simp [hab] at hle
  · intro a _
    have hsplit : ∀ m : List α, alike (compareLex cmp cmp') a m = (alike cmp a m).filter fun b => cmp' a b == .eq := by
      intro m
      rw [alike, alike, List.filter_filter]
      apply List.filter_congr
      intro b _
      cases hab : cmp a b <;> simp [compareLex, hab]
    rw [alike_sort_by, hsplit, hsplit, alike_sort_by]

/-- Sorting what a filter keeps is filtering what is sorted. -/
theorem filter_sort_by (p : α → Bool) (l : List α) : (sort_by cmp l).filter p = sort_by cmp (l.filter p) := by
  apply eq_of_alike ((pairwise_sort_by l).filter _) (pairwise_sort_by _)
  intro a _
  have hswap : ∀ m : List α, alike cmp a (m.filter p) = (alike cmp a m).filter p := fun m => List.filter_comm _ _ m
  rw [alike_sort_by, hswap, hswap, alike_sort_by]

end sorting

namespace sorting

open Std

variable {α : Type} {cmp : α → α → Ordering} {norm : α → α} {R : α → α → Prop} {l : List α}

/-- Sort the entries, then put each into its own normal form. -/
def sort_then_normalize (cmp : α → α → Ordering) (norm : α → α) (l : List α) : List α :=
  (sort_by cmp l).map norm

/-- The entries changed within `R` and permuted. -/
def Rearranges (R : α → α → Prop) (l l' : List α) : Prop :=
  ∃ m, List.Forall₂ R l m ∧ m.Perm l'

/-- Sorting before normalizing gives a normal form: it changes nothing the second time,
is sorted, and is the same for every rearrangement. -/
structure IsNormalForm (cmp : α → α → Ordering) (norm : α → α) (R : α → α → Prop) (l : List α) : Prop where
  idempotent : sort_then_normalize cmp norm (sort_then_normalize cmp norm l) = sort_then_normalize cmp norm l
  sorted : (sort_then_normalize cmp norm l).Pairwise fun a b => (cmp a b).isLE
  invariant : ∀ l', Rearranges R l l' → sort_then_normalize cmp norm l' = sort_then_normalize cmp norm l

/-- What may be changed about an entry without changing its normal form. -/
structure Normalizes (norm : α → α) (R : α → α → Prop) : Prop where
  refl : ∀ a, R a a
  same : ∀ a b, R a b → norm b = norm a
  idem : ∀ a, norm (norm a) = norm a

/-- No change within `R` turns the order of two entries against that of their normal
forms. -/
def KeepsOrder (cmp : α → α → Ordering) (norm : α → α) (R : α → α → Prop) (l : List α) : Prop :=
  ∀ a ∈ l, ∀ b ∈ l, cmp (norm a) (norm b) = .lt → ∀ a' b', R a a' → R b b' → cmp b' a' ≠ .lt

theorem rearranges_of_perm {l' : List α} (hrefl : ∀ a, R a a) (h : l.Perm l') : Rearranges R l l' :=
  ⟨l, List.forall₂_same.mpr fun a _ => hrefl a, h⟩

theorem Rearranges.exists_mem {l' : List α} (h : Rearranges R l l') {b : α} (hb : b ∈ l') : ∃ a ∈ l, R a b := by
  obtain ⟨m, hchanged, hperm⟩ := h
  have hm := hperm.mem_iff.mpr hb
  clear hperm hb
  induction hchanged with
  | nil => cases hm
  | cons hab _ ih =>
    obtain rfl | hm := List.mem_cons.mp hm
    · exact ⟨_, List.mem_cons_self, hab⟩
    · obtain ⟨a, ha, hab⟩ := ih hm
      exact ⟨a, List.mem_cons_of_mem _ ha, hab⟩

theorem Rearranges.map_perm {l' : List α} (hsame : ∀ a b, R a b → norm b = norm a) (h : Rearranges R l l') :
    (l'.map norm).Perm (l.map norm) := by
  obtain ⟨m, hchanged, hperm⟩ := h
  refine (hperm.symm.map norm).trans (List.Perm.of_eq ?_)
  clear hperm
  induction hchanged with
  | nil => rfl
  | cons hab _ ih => rw [List.map_cons, List.map_cons, hsame _ _ hab, ih]

theorem pairwise_either {S : α → α → Prop} (h : l.Pairwise S) {a b : α} (ha : a ∈ l) (hb : b ∈ l) (hne : a ≠ b) :
    S a b ∨ S b a := by
  have : Std.Symm fun p q => S p q ∨ S q p := ⟨fun _ _ => Or.symm⟩
  have heither : l.Pairwise fun p q => S p q ∨ S q p := h.imp Or.inl
  exact heither.forall ha hb hne

variable [TransCmp cmp] [LawfulEqCmp cmp]

theorem sort_by_perm {l' : List α} (h : l'.Perm l) : sort_by cmp l' = sort_by cmp l :=
  sort_by_eq_of_perm (fun _ _ _ _ heq => LawfulEqCmp.eq_of_compare heq) (pairwise_sort_by l)
    (h.trans (perm_sort_by l).symm)

/-- Where the order is kept, every rearrangement is normalized into sorted order. -/
theorem KeepsOrder.sorted {l' : List α} (h : KeepsOrder cmp norm R l) (hnorm : Normalizes norm R)
    (hl : Rearranges R l l') : (sort_then_normalize cmp norm l').Pairwise fun a b => (cmp a b).isLE := by
  rw [sort_then_normalize, List.pairwise_map]
  refine (pairwise_sort_by l').imp_of_mem fun {p q} hp hq hle => ?_
  obtain ⟨a, ha, hap⟩ := hl.exists_mem (mem_sort_by.mp hp)
  obtain ⟨b, hb, hbq⟩ := hl.exists_mem (mem_sort_by.mp hq)
  rw [isLE_iff_ne_lt]
  intro hlt
  rw [hnorm.same a p hap, hnorm.same b q hbq] at hlt
  have hne := h b hb a ha hlt q p hbq hap
  cases hcmp : cmp p q with
  | lt => exact hne hcmp
  | eq =>
    cases LawfulEqCmp.eq_of_compare hcmp
    have hself : cmp (norm p) (norm p) = .eq := ReflCmp.compare_self
    rw [← hnorm.same a p hap, ← hnorm.same b p hbq, hself] at hlt
    cases hlt
  | gt =>
    rw [hcmp] at hle
    cases hle

/-- Sorting before normalizing gives a normal form exactly when no change within `R` turns
the order of two entries. -/
theorem is_normal_form_iff (hnorm : Normalizes norm R) :
    IsNormalForm cmp norm R l ↔ KeepsOrder cmp norm R l := by
  constructor
  · intro h a ha b hb hlt a' b' haa' hbb' hlt'
    -- put the two changed entries into the list and find them in the wrong order
    have hself : ∀ c, cmp c c = .eq := fun _ => ReflCmp.compare_self
    have hne : a ≠ b := by
      rintro rfl
      rw [hself] at hlt
      cases hlt
    obtain ⟨rest, hrest⟩ : ∃ rest, l.Perm (a :: b :: rest) := by
      obtain ⟨s, t, rfl⟩ := List.append_of_mem ha
      have hb' : b ∈ s ++ t := by
        have hb' := List.perm_middle.mem_iff.mp hb
        exact (List.mem_cons.mp hb').resolve_left (Ne.symm hne)
      obtain ⟨s', t', hst⟩ := List.append_of_mem hb'
      exact ⟨s' ++ t', List.perm_middle.trans (by rw [hst]; exact List.perm_middle.cons a)⟩
    have hchanged : List.Forall₂ R (a :: b :: rest) (a' :: b' :: rest) :=
      .cons haa' (.cons hbb' (List.forall₂_same.mpr fun c _ => hnorm.refl c))
    obtain ⟨m, hm, hperm⟩ := List.perm_comp_forall₂ hrest hchanged
    have hsorted := h.sorted
    rw [← h.invariant _ ⟨m, hm, hperm⟩, sort_then_normalize, List.pairwise_map] at hsorted
    have hboth := (pairwise_sort_by (a' :: b' :: rest)).and hsorted
    have hne' : a' ≠ b' := by
      rintro rfl
      rw [hself] at hlt'
      cases hlt'
    obtain ⟨hle, _⟩ | ⟨_, hle⟩ := pairwise_either hboth (mem_sort_by.mpr List.mem_cons_self)
      (mem_sort_by.mpr (List.mem_cons_of_mem _ List.mem_cons_self)) hne'
    · exact isLE_iff_ne_lt.mp hle hlt'
    · rw [hnorm.same a a' haa', hnorm.same b b' hbb'] at hle
      exact isLE_iff_ne_lt.mp hle hlt
  · intro h
    have hall : ∀ l', Rearranges R l l' → sort_then_normalize cmp norm l' = sort_by cmp (l.map norm) := by
      intro l' hl'
      rw [← sort_by_eq_self (h.sorted hnorm hl')]
      refine sort_by_perm (((perm_sort_by l').map norm).trans (hl'.map_perm hnorm.same))
    have hself : Rearranges R l l := rearranges_of_perm hnorm.refl (List.Perm.refl l)
    refine ⟨?_, h.sorted hnorm hself, fun l' hl' => (hall l' hl').trans (hall l hself).symm⟩
    rw [sort_then_normalize, sort_by_eq_self (h.sorted hnorm hself), sort_then_normalize, List.map_map]
    exact List.map_congr_left fun a _ => hnorm.idem a

end sorting
