import Mathlib.Algebra.Order.Floor.Div
import Mathlib.Data.List.Basic
import Mathlib.Data.List.Range

/-! A list cut into chunks of one size, of which only the last may be short. -/

namespace chunks

variable {α : Type} {n : Nat} {l : List α}

/-- The chunks of a list. -/
def cut (n : Nat) (l : List α) : List (List α) :=
  (List.range (l.length ⌈/⌉ n)).map fun j => (l.drop (j * n)).take n

theorem lt_ceilDiv (hn : 0 < n) {j len : Nat} : j < len ⌈/⌉ n ↔ j * n < len := by
  have hle := ceilDiv_le_iff_le_mul (b := len) (c := j) hn
  rw [← Nat.not_le, hle, Nat.not_le, Nat.mul_comm]

theorem length_cut (n : Nat) (l : List α) : (cut n l).length = l.length ⌈/⌉ n := by
  simp [cut]

theorem getElem?_cut (hn : 0 < n) (l : List α) (j : Nat) :
    (cut n l)[j]? = if j * n < l.length then some ((l.drop (j * n)).take n) else none := by
  rw [cut, List.getElem?_map]
  split
  · rename_i hj
    rw [List.getElem?_range ((lt_ceilDiv hn).mpr hj), Option.map_some]
  · rename_i hj
    rw [List.getElem?_eq_none, Option.map_none]
    rw [List.length_range]
    exact Nat.le_of_not_lt fun hlt => hj ((lt_ceilDiv hn).mp hlt)

theorem cut_nil (hn : 0 < n) : cut n ([] : List α) = [] := by
  apply List.ext_getElem?
  intro j
  rw [getElem?_cut hn]
  simp

theorem cut_of_ne_nil (hn : 0 < n) (hl : l ≠ []) : cut n l = l.take n :: cut n (l.drop n) := by
  apply List.ext_getElem?
  intro j
  cases j with
  | zero =>
    rw [getElem?_cut hn, if_pos (by simpa using List.length_pos_iff.mpr hl)]
    simp
  | succ j =>
    rw [List.getElem?_cons_succ, getElem?_cut hn, getElem?_cut hn, List.length_drop, List.drop_drop]
    have hstart : (j + 1) * n = n + j * n := by rw [Nat.add_mul, Nat.one_mul, Nat.add_comm]
    rw [hstart]
    congr 1
    exact propext ⟨fun h => by omega, fun h => by omega⟩

theorem modify_concat (l : List α) (a : α) (f : α → α) : (l ++ [a]).modify l.length f = l ++ [f a] := by
  induction l with
  | nil => rfl
  | cons b l ih => rw [List.length_cons, List.cons_append, List.modify_succ_cons, ih, List.cons_append]

theorem set_eq_modify {l : List α} {i : Nat} {a : α} (h : l[i]? = some a) (f : α → α) : l.set i (f a) = l.modify i f := by
  apply List.ext_getElem?
  intro j
  rw [List.getElem?_modify, List.getElem?_set]
  split
  · rename_i hij
    obtain ⟨hi, rfl⟩ := List.getElem?_eq_some_iff.mp h
    subst hij
    simp [hi]
  · simp

/-- The chunks in a row are the list. -/
theorem flatten_cut (hn : 0 < n) (l : List α) : (cut n l).flatten = l := by
  induction hlen : l.length using Nat.strong_induction_on generalizing l with
  | _ len ih =>
    by_cases hl : l = []
    · rw [hl, cut_nil hn, List.flatten_nil]
    · have hpos := List.length_pos_iff.mpr hl
      have hshort : (l.drop n).length < len := by
        rw [List.length_drop]
        omega
      rw [cut_of_ne_nil hn hl, List.flatten_cons, ih _ hshort _ rfl, List.take_append_drop]

/-- A position is found in the chunk and at the offset it divides into. -/
theorem getElem?_of_cut (hn : 0 < n) (l : List α) (i : Nat) :
    ((cut n l)[i / n]?).bind (fun chunk => chunk[i % n]?) = l[i]? := by
  have hi : i / n * n + i % n = i := by
    rw [Nat.mul_comm]
    exact Nat.div_add_mod i n
  rw [getElem?_cut hn]
  split
  · rw [Option.bind_some, List.getElem?_take_of_lt (Nat.mod_lt i hn), List.getElem?_drop, hi]
  · rw [Option.bind_none, List.getElem?_eq_none]
    omega

/-- Every chunk but the last is full. -/
theorem length_of_cut (hn : 0 < n) {j : Nat} {c : List α} (hc : (cut n l)[j]? = some c)
    (hj : j + 1 < (cut n l).length) : c.length = n := by
  rw [length_cut, lt_ceilDiv hn] at hj
  rw [getElem?_cut hn] at hc
  split at hc
  · cases hc
    have hstart : (j + 1) * n = j * n + n := by rw [Nat.add_mul, Nat.one_mul]
    rw [List.length_take, List.length_drop]
    omega
  · cases hc

/-- No chunk is empty or too long. -/
theorem bounds_of_cut (hn : 0 < n) {c : List α} (hc : c ∈ cut n l) : 0 < c.length ∧ c.length ≤ n := by
  obtain ⟨j, hj⟩ := List.mem_iff_getElem?.mp hc
  rw [getElem?_cut hn] at hj
  split at hj
  · cases hj
    rw [List.length_take, List.length_drop]
    omega
  · cases hj

/-- Writing into a chunk is writing into the list. -/
theorem modify_cut (hn : 0 < n) (l : List α) (p : Nat) (x : α) :
    (cut n l).modify (p / n) (fun c => c.set (p % n) x) = cut n (l.set p x) := by
  have hp : p / n * n + p % n = p := by
    rw [Nat.mul_comm]
    exact Nat.div_add_mod p n
  have hmod := Nat.mod_lt p hn
  apply List.ext_getElem?
  intro j
  rw [List.getElem?_modify, getElem?_cut hn, getElem?_cut hn, List.length_set]
  by_cases hstart : j * n < l.length
  · rw [if_pos hstart, if_pos hstart, Option.map_eq_map, Option.map_some, List.drop_set]
    congr 1
    obtain hj | rfl | hj := Nat.lt_trichotomy j (p / n)
    · -- The position lies behind the chunk.
      have hle : (j + 1) * n ≤ p / n * n := Nat.mul_le_mul_right n hj
      rw [Nat.add_mul] at hle
      rw [if_neg (by omega), if_neg (by omega), List.take_set, List.set_eq_of_length_le]
      rw [List.length_take]
      omega
    · have hoffset : p - p / n * n = p % n := by omega
      rw [if_pos rfl, if_neg (by omega), List.take_set, hoffset]
    · -- The position lies before the chunk.
      have hle : (p / n + 1) * n ≤ j * n := Nat.mul_le_mul_right n hj
      rw [Nat.add_mul] at hle
      rw [if_neg (by omega), if_pos (by omega)]
  · rw [if_neg hstart, if_neg hstart]
    rfl

/-- The chunks of a longer list that lie within the shorter one are its chunks. -/
theorem getElem?_cut_append (hn : 0 < n) {j : Nat} (hj : (j + 1) * n ≤ l.length) (l' : List α) :
    (cut n (l ++ l'))[j]? = (cut n l)[j]? := by
  rw [Nat.add_mul, Nat.one_mul] at hj
  rw [getElem?_cut hn, getElem?_cut hn, if_pos (by rw [List.length_append]; omega), if_pos (by omega),
    List.drop_append_of_le_length (by omega), List.take_append_of_le_length (by rw [List.length_drop]; omega)]

theorem getLast?_cut (hn : 0 < n) {c : List α} (hc : (cut n l).getLast? = some c) :
    ∃ m, (cut n l).length = m + 1 ∧ m * n < l.length ∧ c = (l.drop (m * n)).take n := by
  rw [List.getLast?_eq_getElem?, getElem?_cut hn] at hc
  split at hc
  · rename_i hlt
    refine ⟨(cut n l).length - 1, ?_, hlt, (Option.some.inj hc).symm⟩
    have hpos : 0 < (cut n l).length := by
      rw [length_cut, lt_ceilDiv hn]
      omega
    omega
  · cases hc

theorem length_le_cut (hn : 0 < n) (l : List α) : l.length ≤ (cut n l).length * n := by
  rw [← Nat.not_lt, ← lt_ceilDiv hn, length_cut]
  exact lt_irrefl _

/-- A list that ends inside a chunk grows there. -/
theorem cut_concat_short (hn : 0 < n) {c : List α} (hc : (cut n l).getLast? = some c) (hshort : c.length < n) (x : α) :
    cut n (l ++ [x]) = (cut n l).modify ((cut n l).length - 1) fun c => c ++ [x] := by
  obtain ⟨m, hm, hlt, rfl⟩ := getLast?_cut hn hc
  rw [List.length_take, List.length_drop] at hshort
  apply List.ext_getElem?
  intro j
  rw [List.getElem?_modify, hm, Nat.add_sub_cancel]
  obtain hj | rfl | hj := Nat.lt_trichotomy j m
  · have hle : (j + 1) * n ≤ m * n := Nat.mul_le_mul_right n hj
    rw [getElem?_cut_append hn (by omega)]
    simp [Nat.ne_of_gt hj]
  · rw [getElem?_cut hn, getElem?_cut hn, if_pos hlt, if_pos (by rw [List.length_append]; omega),
      List.drop_append_of_le_length (by omega), List.take_of_length_le (by simp; omega),
      List.take_of_length_le (by rw [List.length_drop]; omega)]
    simp
  · have hle : (m + 1) * n ≤ j * n := Nat.mul_le_mul_right n hj
    rw [Nat.add_mul] at hle
    rw [getElem?_cut hn, getElem?_cut hn, if_neg (by rw [List.length_append, List.length_singleton]; omega),
      if_neg (by omega)]
    rfl

/-- A list that ends with a full chunk grows by a chunk. -/
theorem cut_concat_full (hn : 0 < n) (hfull : ∀ c, (cut n l).getLast? = some c → n ≤ c.length) (x : α) :
    cut n (l ++ [x]) = cut n l ++ [[x]] := by
  have hlen : l.length = (cut n l).length * n := by
    cases hlast : (cut n l).getLast? with
    | none =>
      rw [List.getLast?_eq_none_iff] at hlast
      have hle := length_le_cut hn l
      rw [hlast] at hle ⊢
      simp at hle ⊢
      exact hle
    | some c =>
      obtain ⟨m, hm, hlt, rfl⟩ := getLast?_cut hn hlast
      have hlong := hfull _ hlast
      have hle := length_le_cut hn l
      rw [List.length_take, List.length_drop] at hlong
      rw [hm, Nat.add_mul] at hle ⊢
      omega
  apply List.ext_getElem?
  intro j
  obtain hj | rfl | hj := Nat.lt_trichotomy j (cut n l).length
  · have hle : (j + 1) * n ≤ (cut n l).length * n := Nat.mul_le_mul_right n hj
    rw [getElem?_cut_append hn (by omega), List.getElem?_append_left hj]
  · rw [getElem?_cut hn, if_pos (by rw [List.length_append, ← hlen]; simp), ← hlen]
    have hone : [x].take n = [x] := List.take_of_length_le hn
    simp [hone]
  · have hle : ((cut n l).length + 1) * n ≤ j * n := Nat.mul_le_mul_right n hj
    rw [Nat.add_mul] at hle
    rw [getElem?_cut hn, if_neg (by rw [List.length_append, List.length_singleton]; omega), List.getElem?_eq_none]
    rw [List.length_append]
    exact hj

/-- A list cut short is cut in the chunk the end falls into. -/
theorem cut_take (hn : 0 < n) {len : Nat} (hlen : len ≤ l.length) :
    cut n (l.take len) =
      ((cut n l).take (len ⌈/⌉ n)).modify (((cut n l).take (len ⌈/⌉ n)).length - 1)
        fun c => c.take (len - (len ⌈/⌉ n - 1) * n) := by
  have hmin : min len l.length = len := Nat.min_eq_left hlen
  have hkeep : ((cut n l).take (len ⌈/⌉ n)).length = len ⌈/⌉ n := by
    rw [List.length_take, length_cut, Nat.min_eq_left]
    rw [← Nat.not_lt, lt_ceilDiv hn, Nat.not_lt]
    exact hlen.trans (length_cut n l ▸ length_le_cut hn l)
  rw [hkeep]
  apply List.ext_getElem?
  intro j
  rw [List.getElem?_modify, List.getElem?_take, getElem?_cut hn, getElem?_cut hn, List.length_take, hmin]
  by_cases hj : j < len ⌈/⌉ n
  · have hlt := (lt_ceilDiv hn).mp hj
    rw [if_pos hlt, if_pos hj, if_pos (by omega), List.drop_take, List.take_take]
    rw [Option.map_eq_map, Option.map_some]
    by_cases hlast : len ⌈/⌉ n - 1 = j
    · rw [if_pos hlast, ← hlast, List.take_take, Nat.min_comm]
    · have hnext : (j + 1) * n < len := (lt_ceilDiv hn).mp (by omega)
      rw [Nat.add_mul] at hnext
      rw [if_neg hlast, Nat.min_eq_left (by omega)]
  · rw [if_neg fun h => hj ((lt_ceilDiv hn).mpr h), if_neg hj]
    rfl

end chunks
