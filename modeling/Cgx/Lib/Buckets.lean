import Mathlib.Data.List.Nodup
import Mathlib.Data.List.Range
import Cgx.Lib.SortBy

/-! Cutting a list into buckets by a key and putting it together again by sorting. -/

namespace buckets

open Std sorting

variable {α β κ : Type} {cmp : α → α → Ordering}

/-! ### A stable sort is determined by its classes -/

section

variable [TransCmp cmp]

theorem filter_orderedInsert (a x : α) {l : List α} (h : l.Pairwise fun a b => (cmp a b).isLE) :
    (l.orderedInsert (fun a b => (cmp a b).isLE) x).filter (fun b => cmp a b = .eq) =
      (x :: l).filter fun b => cmp a b = .eq := by
  induction l with
  | nil => rfl
  | cons b rest ih =>
    obtain ⟨hb, hrest⟩ := List.pairwise_cons.mp h
    rw [List.orderedInsert_cons]
    split
    · rfl
    · rename_i hxb
      -- `b` is below `x`, so the two are not in one class.
      have hlt : cmp b x = .lt := by
        by_contra hne
        exact hxb (isLE_iff_ne_lt.mpr hne)
      rw [List.filter_cons, ih hrest, List.filter_cons, List.filter_cons, List.filter_cons]
      by_cases hab : cmp a b = .eq
      · have hax : cmp a x = .lt := by rwa [TransCmp.congr_left hab]
        simp [hab, hax]
      · simp [hab]

/-- A stable sort keeps the order inside every class of equal keys. -/
theorem filter_class_sort_by (a : α) (l : List α) :
    (sort_by cmp l).filter (fun b => cmp a b = .eq) = l.filter fun b => cmp a b = .eq := by
  induction l with
  | nil => rfl
  | cons x rest ih =>
    have hsorted : (sort_by cmp rest).Pairwise fun a b => (cmp a b).isLE := pairwise_sort_by rest
    have hinsert := filter_orderedInsert a x hsorted
    rw [List.filter_cons, ih] at hinsert
    rw [List.filter_cons]
    exact hinsert

/-- Sorted lists with the same classes are equal. -/
theorem eq_of_filter_eq {l l' : List α} (hl : l.Pairwise fun a b => (cmp a b).isLE)
    (hl' : l'.Pairwise fun a b => (cmp a b).isLE)
    (h : ∀ a, l.filter (fun b => cmp a b = .eq) = l'.filter fun b => cmp a b = .eq) : l = l' := by
  induction l generalizing l' with
  | nil =>
    cases l' with
    | nil => rfl
    | cons y rest' =>
      have hy := h y
      simp [ReflCmp.compare_self] at hy
  | cons x rest ih =>
    have hx : x ∈ l' := by
      apply List.mem_of_mem_filter (p := fun b => cmp x b = .eq)
      rw [← h x]
      simp [ReflCmp.compare_self]
    cases l' with
    | nil => cases hx
    | cons y rest' =>
      have hy : y ∈ x :: rest := by
        apply List.mem_of_mem_filter (p := fun b => cmp y b = .eq)
        rw [h y]
        simp [ReflCmp.compare_self]
      have hle : ∀ {a b : α} {l : List α}, (a :: l).Pairwise (fun a b => (cmp a b).isLE) →
          b ∈ a :: l → (cmp a b).isLE := by
        intro a b l hsorted hb
        cases List.mem_cons.mp hb with
        | inl heq => simp [heq, ReflCmp.compare_self]
        | inr hmem => exact (List.pairwise_cons.mp hsorted).1 b hmem
      have hxy : cmp x y = .eq := by
        have hyx := isLE_iff_ne_lt.mp (hle hl' hx)
        have hle := hle hl hy
        cases hcmp : cmp x y with
        | lt => exact absurd hcmp hyx
        | eq => rfl
        | gt => simp [hcmp] at hle
      have hheads := h x
      simp only [List.filter_cons, ReflCmp.compare_self, hxy, decide_true, if_true,
        List.cons.injEq] at hheads
      obtain ⟨rfl, _⟩ := hheads
      congr 1
      apply ih (List.pairwise_cons.mp hl).2 (List.pairwise_cons.mp hl').2
      intro a
      have ha := h a
      simp only [List.filter_cons] at ha
      split at ha
      · exact List.cons_inj_right x |>.mp ha
      · exact ha

/-- A list that agrees with a sorted one on every class is sorted into it. -/
theorem sort_by_eq_of_filter_eq {l m : List α} (hl : l.Pairwise fun a b => (cmp a b).isLE)
    (h : ∀ a, m.filter (fun b => cmp a b = .eq) = l.filter fun b => cmp a b = .eq) :
    sort_by cmp m = l := by
  apply eq_of_filter_eq (pairwise_sort_by m) hl
  intro a
  rw [filter_class_sort_by, h]

end

/-! ### Buckets -/

/-- The elements of `l` with key `k`, for every `k` below `m` in turn. -/
def concat (f : α → Nat) (m : Nat) (l : List α) : List α :=
  (List.range m).flatMap fun k => l.filter fun a => f a = k

theorem concat_succ (f : α → Nat) (m : Nat) (l : List α) :
    concat f (m + 1) l = concat f m l ++ l.filter fun a => f a = m := by
  rw [concat, List.range_succ, List.flatMap_append, List.flatMap_singleton]
  rfl

theorem perm_concat_filter (f : α → Nat) (m : Nat) (l : List α) :
    (concat f m l).Perm (l.filter fun a => f a < m) := by
  induction m with
  | zero => simp [concat]
  | succ m ih =>
    rw [concat_succ]
    have hsplit := List.filter_append_perm (fun a => decide (f a < m)) (l.filter fun a => f a < m + 1)
    have hlow : (l.filter fun a => f a < m + 1).filter (fun a => f a < m) = l.filter fun a => f a < m := by
      rw [List.filter_filter]
      apply List.filter_congr
      intro a _
      rw [Bool.eq_iff_iff, Bool.and_eq_true, decide_eq_true_iff, decide_eq_true_iff]
      omega
    have hhigh : (l.filter fun a => f a < m + 1).filter (fun a => !decide (f a < m)) =
        l.filter fun a => f a = m := by
      rw [List.filter_filter]
      apply List.filter_congr
      intro a _
      rw [Bool.eq_iff_iff, Bool.and_eq_true, Bool.not_eq_true', decide_eq_false_iff_not,
        decide_eq_true_iff, decide_eq_true_iff]
      omega
    rw [hlow, hhigh] at hsplit
    exact (ih.append_right _).trans hsplit

theorem perm_concat {f : α → Nat} {m : Nat} {l : List α} (hm : ∀ a ∈ l, f a < m) :
    (concat f m l).Perm l := by
  have hall : (l.filter fun a => f a < m) = l := by
    apply List.filter_eq_self.mpr
    intro a ha
    simpa using hm a ha
  have hperm := perm_concat_filter f m l
  rwa [hall] at hperm

/-- A class that lies in one bucket keeps its order. -/
theorem filter_concat {f : α → Nat} {m k : Nat} {p : α → Bool} {l : List α}
    (h : ∀ a ∈ l, p a = true → f a = k) :
    (concat f m l).filter p = if k < m then l.filter p else [] := by
  induction m with
  | zero => rfl
  | succ m ih =>
    rw [concat_succ, List.filter_append, ih, List.filter_filter]
    by_cases hkm : k = m
    · subst hkm
      have hbucket : (l.filter fun a => p a && decide (f a = k)) = l.filter p := by
        apply List.filter_congr
        intro a ha
        cases hp : p a with
        | false => rfl
        | true => simp [h a ha hp]
      rw [hbucket, if_neg (Nat.lt_irrefl k), if_pos (Nat.lt_succ_self k), List.nil_append]
    · have hempty : (l.filter fun a => p a && decide (f a = m)) = [] := by
        apply List.filter_eq_nil_iff.mpr
        intro a ha hpa
        rw [Bool.and_eq_true, decide_eq_true_iff] at hpa
        exact hkm ((h a ha hpa.1).symm.trans hpa.2)
      have hlt : k < m + 1 ↔ k < m := by omega
      rw [hempty, List.append_nil]
      simp only [hlt]

/-- Sorting the buckets of a sorted list restores it, when equal elements share a
bucket. -/
theorem sort_by_concat [TransCmp cmp] {f : α → Nat} {m : Nat} {l : List α}
    (hsorted : l.Pairwise fun a b => (cmp a b).isLE) (hm : ∀ a ∈ l, f a < m)
    (hclass : ∀ a ∈ l, ∀ b ∈ l, cmp a b = .eq → f a = f b) :
    sort_by cmp (concat f m l) = l := by
  apply sort_by_eq_of_filter_eq hsorted
  intro a
  by_cases hnone : l.filter (fun b => cmp a b = .eq) = []
  · rw [hnone]
    apply List.filter_eq_nil_iff.mpr
    intro b hb
    exact List.filter_eq_nil_iff.mp hnone b ((perm_concat hm).mem_iff.mp hb)
  · obtain ⟨c, hc⟩ := List.exists_mem_of_ne_nil _ hnone
    obtain ⟨hcl, hac⟩ := List.mem_filter.mp hc
    have hac : cmp a c = .eq := by simpa using hac
    rw [filter_concat (k := f c), if_pos (hm c hcl)]
    intro b hb hab
    have hab : cmp a b = .eq := by simpa using hab
    apply hclass b hb c hcl
    rwa [← TransCmp.congr_left hab]

/-! ### Places in buckets -/

variable [DecidableEq κ]

/-- How many elements before position `i` equal the one there. -/
def ordinal (l : List κ) (i : Nat) : Nat :=
  match l[i]? with
  | some a => (l.take i).count a
  | none => 0

theorem ordinal_of_getElem? {l : List κ} {i : Nat} {a : κ} (h : l[i]? = some a) :
    ordinal l i = (l.take i).count a := by
  rw [ordinal, h]

theorem ordinal_append {l : List κ} (l' : List κ) {i : Nat} (h : i < l.length) :
    ordinal (l ++ l') i = ordinal l i := by
  have hat := List.getElem?_eq_getElem h
  rw [ordinal_of_getElem? hat, ordinal_of_getElem? (by rwa [List.getElem?_append_left h]),
    List.take_append_of_le_length (by omega)]

/-- Equal elements have ascending ordinals. -/
theorem ordinal_lt {l : List κ} {i j : Nat} (hij : i < j) {a : κ} (hi : l[i]? = some a)
    (hj : l[j]? = some a) : ordinal l i < ordinal l j := by
  rw [ordinal_of_getElem? hi, ordinal_of_getElem? hj]
  have hprefix : (l.take (i + 1)).count a = (l.take i).count a + 1 := by
    rw [List.take_add_one, hi, List.count_append]
    simp
  have hmono : (l.take (i + 1)).count a ≤ (l.take j).count a :=
    (List.take_sublist_take_left (by omega)).count_le a
  omega

/-- An element is determined by its value and its ordinal. -/
theorem ordinal_inj {l : List κ} {i j : Nat} {a : κ} (hi : l[i]? = some a) (hj : l[j]? = some a)
    (h : ordinal l i = ordinal l j) : i = j := by
  rcases Nat.lt_trichotomy i j with hlt | heq | hlt
  · have := ordinal_lt hlt hi hj
    omega
  · exact heq
  · have := ordinal_lt hlt hj hi
    omega

theorem ordinal_le (l : List κ) (i : Nat) : ordinal l i ≤ i := by
  rw [ordinal]
  split
  · exact List.count_le_length.trans (List.length_take_le ..)
  · exact Nat.zero_le i

/-- Dropping other elements moves an element up by as many places as elements before it
go. -/
theorem getElem?_filter {l : List α} {p : α → Bool} {i : Nat} {a : α} (h : l[i]? = some a) (ha : p a = true) :
    (l.filter p)[(l.take i).countP p]? = some a := by
  obtain ⟨hi, rfl⟩ := List.getElem?_eq_some_iff.mp h
  have hsplit : l.filter p = (l.take i).filter p ++ l[i] :: (l.drop (i + 1)).filter p := by
    rw [← List.filter_cons_of_pos ha, ← List.filter_append, ← List.drop_eq_getElem_cons hi, List.take_append_drop]
  rw [hsplit, List.countP_eq_length_filter, List.getElem?_append_right (Nat.le_refl _), Nat.sub_self,
    List.getElem?_cons_zero]

/-- Dropping other elements keeps the ordinals. -/
theorem ordinal_filter {l : List κ} {p : κ → Bool} {i : Nat} {a : κ} (h : l[i]? = some a) (ha : p a = true) :
    ordinal (l.filter p) ((l.take i).countP p) = ordinal l i := by
  have htake : (l.filter p).take ((l.take i).countP p) = (l.take i).filter p := by
    rw [← List.take_append_drop i l, List.filter_append, List.take_append_drop, List.countP_eq_length_filter,
      List.take_left]
  rw [ordinal_of_getElem? (getElem?_filter h ha), ordinal_of_getElem? h, htake, List.count_filter ha]

/-- Renaming the elements one to one keeps the ordinals. -/
theorem ordinal_map {ν : Type} [DecidableEq ν] {l : List κ} {h : κ → ν}
    (hinj : ∀ a ∈ l, ∀ b ∈ l, h a = h b → a = b) (i : Nat) : ordinal (l.map h) i = ordinal l i := by
  cases hi : l[i]? with
  | none => rw [ordinal, ordinal, List.getElem?_map, hi, Option.map_none]
  | some a =>
    rw [ordinal_of_getElem? hi, ordinal_of_getElem? (a := h a) (by rw [List.getElem?_map, hi]; rfl),
      ← List.map_take, List.count, List.countP_map, List.count]
    apply List.countP_congr
    intro b hb
    have hbl := List.mem_of_mem_take hb
    have hal := List.mem_of_getElem? hi
    simp only [Function.comp_apply, beq_iff_eq]
    exact ⟨hinj b hbl a hal, fun heq => heq ▸ rfl⟩

/-- The elements of `l`, each with its bucket and its place there. -/
def places (f : α → Nat) (l : List α) : List ((Nat × Nat) × α) :=
  l.mapIdx fun i a => ((f a, ordinal (l.map f) i), a)

theorem places_map_snd (f : α → Nat) (l : List α) : (places f l).map Prod.snd = l := by
  apply List.ext_getElem?
  intro i
  simp [places, Function.comp_def]

theorem places_append_singleton (f : α → Nat) (l : List α) (a : α) :
    places f (l ++ [a]) = places f l ++ [((f a, (l.filter fun b => f b = f a).length), a)] := by
  rw [places, List.mapIdx_append]
  congr 1
  · apply List.ext_getElem?
    intro i
    rw [places, List.getElem?_mapIdx, List.getElem?_mapIdx]
    cases hi : l[i]? with
    | none => rfl
    | some b =>
      have hlt := (List.getElem?_eq_some_iff.mp hi).1
      rw [Option.map_some, Option.map_some, List.map_append,
        ordinal_append _ (by rwa [List.length_map])]
  · have hlast : ((l ++ [a]).map f)[l.length]? = some (f a) := by simp
    simp only [List.mapIdx_singleton, Nat.zero_add, ordinal_of_getElem? hlast]
    have htake : ((l ++ [a]).map f).take l.length = l.map f := by
      simp
    rw [htake, List.count, List.countP_map, List.countP_eq_length_filter]
    congr 3

/-- A bucket holds its elements in order, at ascending places. -/
theorem places_filter (f : α → Nat) (l : List α) (k : Nat) :
    (places f l).filter (fun t => t.1.1 = k) =
      (l.filter fun a => f a = k).mapIdx fun i a => ((k, i), a) := by
  induction l using List.reverseRecOn with
  | nil => rfl
  | append_singleton l a ih =>
    rw [places_append_singleton, List.filter_append, ih, List.filter_append]
    by_cases hk : f a = k
    · subst hk
      simp [List.mapIdx_append]
    · simp [hk]

/-- The bucket and the place in it name one element. -/
theorem places_find {f : α → Nat} {l : List α} {i : Nat} {t : (Nat × Nat) × α}
    (h : (places f l)[i]? = some t) :
    (places f l).findIdx? (fun s => s.1 = t.1) = some i := by
  rw [List.findIdx?_eq_some_iff_getElem]
  have hlt := (List.getElem?_eq_some_iff.mp h).1
  have hget := (List.getElem?_eq_some_iff.mp h).2
  refine ⟨hlt, by simp [hget], ?_⟩
  intro j hj
  have hplace : ∀ {i : Nat} (hi : i < (places f l).length),
      ∃ a, (l.map f)[i]? = some (f a) ∧ (places f l)[i].1 = (f a, ordinal (l.map f) i) := by
    intro i hi
    have hi' : i < l.length := by simpa [places] using hi
    exact ⟨l[i], by simp [hi'], by simp [places]⟩
  obtain ⟨a, ha, hai⟩ := hplace hlt
  obtain ⟨b, hb, hbj⟩ := hplace (Nat.lt_trans hj hlt)
  rw [← hget, hai, hbj]
  simp only [Prod.mk.injEq, decide_eq_true_eq, not_and]
  intro hab hord
  rw [hab] at hb
  have hji := ordinal_inj hb ha hord
  omega

end buckets
