import Mathlib.Algebra.Group.Nat.Defs
import Mathlib.Data.List.Dedup
import Mathlib.Data.List.Infix
import Mathlib.Data.List.Nodup
import Mathlib.Data.List.Range

namespace numbering

variable {α : Type} [DecidableEq α]

/-- The distinct elements of a list in the order in which they first appear. The number
of an element is its position here. -/
def firsts (l : List α) : List α :=
  l.reverse.dedup.reverse

@[simp] theorem mem_firsts {l : List α} {a : α} : a ∈ firsts l ↔ a ∈ l := by
  simp [firsts]

theorem nodup_firsts (l : List α) : (firsts l).Nodup := by
  rw [firsts, List.nodup_reverse]
  exact List.nodup_dedup _

theorem firsts_concat_of_mem {l : List α} {a : α} (h : a ∈ l) : firsts (l ++ [a]) = firsts l := by
  rw [firsts, List.reverse_append, List.reverse_singleton, List.singleton_append,
    List.dedup_cons_of_mem (List.mem_reverse.mpr h), firsts]

theorem firsts_concat_of_not_mem {l : List α} {a : α} (h : a ∉ l) : firsts (l ++ [a]) = firsts l ++ [a] := by
  rw [firsts, List.reverse_append, List.reverse_singleton, List.singleton_append,
    List.dedup_cons_of_notMem (by simpa using h), List.reverse_cons, firsts]

/-- What appears later is numbered behind what has appeared. -/
theorem firsts_prefix (l r : List α) : firsts l <+: firsts (l ++ r) := by
  induction r using List.reverseRecOn with
  | nil => simp
  | append_singleton r a ih =>
    rw [← List.append_assoc]
    by_cases h : a ∈ l ++ r
    · rwa [firsts_concat_of_mem h]
    · rw [firsts_concat_of_not_mem h]
      exact ih.trans (List.prefix_append _ _)

/-- An element that has appeared keeps its number. -/
theorem idxOf_firsts_append {l r : List α} {a : α} (h : a ∈ l) :
    (firsts (l ++ r)).idxOf a = (firsts l).idxOf a := by
  obtain ⟨tail, htail⟩ := firsts_prefix l r
  rw [← htail, List.idxOf_append_of_mem (mem_firsts.mpr h)]

/-- The number of an element is at most the number of elements before it. -/
theorem idxOf_firsts_le (l r : List α) (a : α) : (firsts (l ++ a :: r)).idxOf a ≤ (firsts l).length := by
  have hmem : a ∈ l ++ [a] := by simp
  rw [List.append_cons, idxOf_firsts_append hmem]
  by_cases h : a ∈ l
  · rw [firsts_concat_of_mem h]
    exact List.idxOf_le_length
  · rw [firsts_concat_of_not_mem h]
    have hidx := List.idxOf_lt_length_of_mem (l := firsts l ++ [a]) (a := a) (by simp)
    rw [List.length_append, List.length_singleton] at hidx
    omega

/-- Every lower number belongs to an element that appears earlier. -/
theorem exists_of_lt_idxOf_firsts {l r : List α} {a : α} {j : Nat}
    (h : j < (firsts (l ++ a :: r)).idxOf a) : ∃ b ∈ l, (firsts (l ++ a :: r)).idxOf b = j := by
  have hj : j < (firsts l).length := lt_of_lt_of_le h (idxOf_firsts_le l r a)
  have hmem : (firsts l)[j] ∈ l := mem_firsts.mp (List.getElem_mem hj)
  refine ⟨(firsts l)[j], hmem, ?_⟩
  rw [idxOf_firsts_append hmem]
  exact (nodup_firsts l).idxOf_getElem j hj

end numbering

/-! Numbers in a machine word that are given out by first appearance. -/

namespace numbering

/-- A renaming that keeps apart what is in the list keeps the order of first appearance. -/
theorem firsts_map {α β : Type} [DecidableEq α] [DecidableEq β] {f : α → β} {l : List α}
    (hf : ∀ a ∈ l, ∀ b ∈ l, f a = f b → a = b) : firsts (l.map f) = (firsts l).map f := by
  induction l using List.reverseRecOn with
  | nil => rfl
  | append_singleton l a ih =>
    have hl : firsts (l.map f) = (firsts l).map f :=
      ih fun b hb c hc => hf b (List.mem_append_left _ hb) c (List.mem_append_left _ hc)
    rw [List.map_append, List.map_singleton]
    by_cases ha : a ∈ l
    · rw [firsts_concat_of_mem ha, firsts_concat_of_mem (List.mem_map_of_mem ha), hl]
    · have hfa : f a ∉ l.map f := by
        intro hmem
        obtain ⟨b, hb, heq⟩ := List.mem_map.mp hmem
        rw [hf b (List.mem_append_left _ hb) a (by simp) heq] at hb
        exact ha hb
      rw [firsts_concat_of_not_mem ha, firsts_concat_of_not_mem hfa, hl, List.map_append, List.map_singleton]

theorem idxOf_map_of_injective {α β : Type} [DecidableEq α] [DecidableEq β] {f : α → β} (hf : Function.Injective f)
    (l : List α) (a : α) : (l.map f).idxOf (f a) = l.idxOf a := by
  induction l with
  | nil => rfl
  | cons b l ih =>
    by_cases hab : b = a
    · rw [hab, List.map_cons, List.idxOf_cons_self, List.idxOf_cons_self]
    · rw [List.map_cons, List.idxOf_cons_ne _ fun heq => hab (hf heq), List.idxOf_cons_ne _ hab, ih]

/-- The first `n` numbers. -/
def counted (n : Nat) : List UInt32 :=
  (List.range n).map UInt32.ofNat

theorem counted_succ (n : Nat) : counted (n + 1) = counted n ++ [UInt32.ofNat n] := by
  rw [counted, List.range_succ, List.map_append, List.map_singleton]
  rfl

@[simp] theorem length_counted (n : Nat) : (counted n).length = n := by
  rw [counted, List.length_map, List.length_range]

theorem mem_counted {n : Nat} {x : UInt32} (hn : n ≤ 2 ^ 32) : x ∈ counted n ↔ x.toNat < n := by
  rw [counted, List.mem_map]
  constructor
  · rintro ⟨i, hi, rfl⟩
    have hlt := List.mem_range.mp hi
    rwa [UInt32.toNat_ofNat_of_lt' (Nat.lt_of_lt_of_le hlt hn)]
  · intro hx
    exact ⟨x.toNat, List.mem_range.mpr hx, UInt32.ofNat_toNat⟩

theorem nodup_counted {n : Nat} (hn : n ≤ 2 ^ 32) : (counted n).Nodup := by
  apply List.Nodup.map_on _ List.nodup_range
  intro i hi j hj heq
  have hnat := congrArg UInt32.toNat heq
  rwa [UInt32.toNat_ofNat_of_lt' (Nat.lt_of_lt_of_le (List.mem_range.mp hi) hn),
    UInt32.toNat_ofNat_of_lt' (Nat.lt_of_lt_of_le (List.mem_range.mp hj) hn)] at hnat

theorem idxOf_counted {n : Nat} (hn : n ≤ 2 ^ 32) {x : UInt32} (hx : x.toNat < n) : (counted n).idxOf x = x.toNat := by
  have hlt : x.toNat < (counted n).length := by rwa [length_counted]
  have hget : (counted n)[x.toNat] = x := by
    simp only [counted, List.getElem_map, List.getElem_range, UInt32.ofNat_toNat]
  have hidx := (nodup_counted hn).idxOf_getElem x.toNat hlt
  rwa [hget] at hidx

/-- Every number stands behind all lower ones. -/
def LowerBefore (l : List UInt32) : Prop :=
  ∀ before x after, l = before ++ x :: after → ∀ j < x.toNat, ∃ y ∈ before, y.toNat = j

/-- Then the numbers first appear in order. -/
theorem LowerBefore.firsts_eq {l : List UInt32} (h : LowerBefore l) : firsts l = counted (firsts l).length := by
  induction l using List.reverseRecOn with
  | nil => rfl
  | append_singleton l x ih =>
    have hl : firsts l = counted (firsts l).length := by
      apply ih
      intro before y after heq
      exact h before y (after ++ [x]) (by rw [heq, List.append_assoc, List.cons_append])
    by_cases hx : x ∈ l
    · rw [firsts_concat_of_mem hx]
      exact hl
    · have hbelow : ∀ j < x.toNat, j < (firsts l).length := by
        intro j hj
        obtain ⟨y, hy, rfl⟩ := h l x [] rfl j hj
        have hmem : y ∈ counted (firsts l).length := hl ▸ mem_firsts.mpr hy
        obtain ⟨i, hi, rfl⟩ := List.mem_map.mp hmem
        rw [UInt32.toNat_ofNat']
        exact Nat.lt_of_le_of_lt (Nat.mod_le i _) (List.mem_range.mp hi)
      have habove : ¬ x.toNat < (firsts l).length := by
        intro hlt
        apply hx
        rw [← mem_firsts, hl]
        exact List.mem_map.mpr ⟨x.toNat, List.mem_range.mpr hlt, UInt32.ofNat_toNat⟩
      have heq : x.toNat = (firsts l).length := by
        by_contra hne
        have := hbelow (firsts l).length (by omega)
        omega
      rw [firsts_concat_of_not_mem hx, List.length_append, List.length_singleton, counted_succ, ← hl, ← heq,
        UInt32.ofNat_toNat]

end numbering
