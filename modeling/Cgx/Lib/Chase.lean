import Mathlib.Data.List.Basic
import Mathlib.Data.List.Range
import Mathlib.Logic.Equiv.Basic

/-! A permutation applied in place by exchanges. Where an element has gone is found by following
the exchanges made at smaller positions. -/

namespace chase

variable {α : Type}

/-- The list with the elements at two positions exchanged. -/
def exchange (l : List α) (a b : Nat) : Option (List α) := do
  let x ← l[a]?
  let y ← l[b]?
  some ((l.set a y).set b x)

theorem exchange_eq {l : List α} {a b : Nat} {x y : α} (hx : l[a]? = some x) (hy : l[b]? = some y) :
    exchange l a b = some ((l.set a y).set b x) := by
  rw [exchange, hx, hy]
  rfl

theorem exists_of_exchange {l l' : List α} {a b : Nat} (h : exchange l a b = some l') :
    ∃ x y, l[a]? = some x ∧ l[b]? = some y ∧ l' = (l.set a y).set b x := by
  simp only [exchange, Option.bind_eq_bind, Option.bind_eq_some_iff] at h
  obtain ⟨x, hx, y, hy, hl⟩ := h
  exact ⟨x, y, hx, hy, (Option.some.inj hl).symm⟩

theorem exchange_isSome {l : List α} {a b : Nat} : (exchange l a b).isSome ↔ a < l.length ∧ b < l.length := by
  simp only [exchange, Option.bind_eq_bind, Option.isSome_iff_exists, Option.bind_eq_some_iff]
  constructor
  · rintro ⟨l', x, hx, y, hy, _⟩
    exact ⟨(List.getElem?_eq_some_iff.mp hx).1, (List.getElem?_eq_some_iff.mp hy).1⟩
  · rintro ⟨ha, hb⟩
    exact ⟨_, _, List.getElem?_eq_getElem ha, _, List.getElem?_eq_getElem hb, rfl⟩

/-- An element exchanged with an earlier one. -/
theorem exchange_forward (before between after : List α) (x y : α) :
    exchange (before ++ (y :: between) ++ x :: after) (before ++ (y :: between)).length before.length =
      some (before ++ [x] ++ (between ++ [y]) ++ after) := by
  have hx : (before ++ (y :: between) ++ x :: after)[(before ++ (y :: between)).length]? = some x := by
    rw [List.getElem?_append_right (le_refl _), Nat.sub_self, List.getElem?_cons_zero]
  have hy : (before ++ (y :: between) ++ x :: after)[before.length]? = some y := by simp
  rw [exchange_eq hx hy, List.set_append_right _ _ (le_refl _), Nat.sub_self, List.set_cons_zero, List.append_assoc,
    List.set_append_right _ _ (le_refl _), Nat.sub_self]
  simp

theorem length_of_exchange {l l' : List α} {a b : Nat} (h : exchange l a b = some l') : l'.length = l.length := by
  obtain ⟨x, y, _, _, rfl⟩ := exists_of_exchange h
  simp

/-- What was at a position is at the exchanged one. -/
theorem getElem?_of_exchange {l l' : List α} {a b : Nat} (h : exchange l a b = some l') (p : Nat) :
    l'[Equiv.swap a b p]? = l[p]? := by
  obtain ⟨x, y, hx, hy, rfl⟩ := exists_of_exchange h
  have ha : a < l.length := (List.getElem?_eq_some_iff.mp hx).1
  have hb : b < l.length := (List.getElem?_eq_some_iff.mp hy).1
  by_cases hpa : p = a
  · rw [hpa, Equiv.swap_apply_left, List.getElem?_set_self (by rwa [List.length_set]), hx]
  · by_cases hpb : p = b
    · rw [hpb, Equiv.swap_apply_right, hy]
      by_cases hab : b = a
      · rw [hab, List.getElem?_set_self (by rwa [List.length_set]), ← hx, ← hy, hab]
      · rw [List.getElem?_set_ne hab, List.getElem?_set_self ha]
    · rw [Equiv.swap_apply_of_ne_of_ne hpa hpb, List.getElem?_set_ne (Ne.symm hpb),
        List.getElem?_set_ne (Ne.symm hpa)]

/-- Following the recorded exchanges below `i` leads from `x` to `y`. -/
inductive Chases (ids : List Nat) (i : Nat) : Nat → Nat → Prop
  | done {x : Nat} : i ≤ x → Chases ids i x x
  | step {x y z : Nat} : x < i → ids[x]? = some z → x < z → Chases ids i z y → Chases ids i x y

theorem Chases.le {ids : List Nat} {i x y : Nat} (h : Chases ids i x y) : i ≤ y := by
  induction h with
  | done hle => exact hle
  | step _ _ _ _ ih => exact ih

/-- One more exchange, of `i` with a later position, prolongs the chains that end at `i`. -/
theorem Chases.extend {ids : List Nat} {i q x y : Nat} (h : Chases ids i x y) (hi : i < ids.length)
    (hq : y = i → i < q) : Chases (ids.set i q) (i + 1) x (if y = i then q else y) := by
  induction h with
  | done hle =>
    rename_i x
    split
    · rename_i heq
      subst heq
      exact .step (Nat.lt_succ_self x) (List.getElem?_set_self hi) (hq rfl) (.done (hq rfl))
    · exact .done (by omega)
  | step hlt hnext hup _ ih =>
    refine .step (by omega) ?_ hup (ih hq)
    rw [List.getElem?_set_ne (by omega)]
    exact hnext

/-- The state before position `i` is settled, when `order` says which element of `source` each
position is to hold: `place` tells where the elements of the source are now. -/
structure Settled (source : List α) (order : List Nat) (i : Nat) (l : List α) (ids : List Nat)
    (place : Equiv.Perm Nat) : Prop where
  length : l.length = source.length
  ids_length : ids.length = source.length
  holds : ∀ p, l[place p]? = source[p]?
  todo : ∀ k, i ≤ k → ids[k]? = order[k]?
  placed : ∀ k, k < i → ∀ p, order[k]? = some p → place p = k
  chain : ∀ p, p < source.length → (∀ k, k < i → order[k]? ≠ some p) → Chases ids i p (place p)

section settled

variable {source l : List α} {order ids : List Nat} {i : Nat} {place : Equiv.Perm Nat}

theorem settled_start (source : List α) (order : List Nat) (hlen : order.length = source.length) : Settled source order 0 source order (Equiv.refl Nat) where
  length := rfl
  ids_length := hlen
  holds _ := rfl
  todo _ _ := rfl
  placed k hk := absurd hk (Nat.not_lt_zero k)
  chain p _ _ := .done (Nat.zero_le p)

/-- The position's element is found at the end of its chain; exchanging it in settles the
position. -/
theorem Settled.step (h : Settled source order i l ids place) (hnodup : order.Nodup) {p : Nat}
    (hp : order[i]? = some p) (hrange : p < source.length) :
    ∃ q l', Chases ids i p q ∧ exchange l i q = some l' ∧
      Settled source order (i + 1) l' (ids.set i q) (place.trans (Equiv.swap i q)) := by
  have hiorder : i < order.length := (List.getElem?_eq_some_iff.mp hp).1
  have hids : ids[i]? = some p := by rw [h.todo i (le_refl i), hp]
  have hi : i < ids.length := (List.getElem?_eq_some_iff.mp hids).1
  have hpend : ∀ k, k < i → order[k]? ≠ some p := by
    intro k hk heq
    exact Nat.ne_of_gt hk ((List.getElem?_inj hiorder hnodup).mp (hp.trans heq.symm))
  have hchain := h.chain p hrange hpend
  have hq : place p < l.length := by
    have hsome := h.holds p
    rw [List.getElem?_eq_getElem hrange] at hsome
    exact (List.getElem?_eq_some_iff.mp hsome).1
  have hil : i < l.length := by rw [h.length, ← h.ids_length]; exact hi
  obtain ⟨l', hl'⟩ := Option.isSome_iff_exists.mp (exchange_isSome.mpr ⟨hil, hq⟩)
  refine ⟨place p, l', hchain, hl', ?_⟩
  constructor
  case length => rw [length_of_exchange hl', h.length]
  case ids_length => rw [List.length_set, h.ids_length]
  case holds =>
    intro p'
    rw [Equiv.trans_apply, getElem?_of_exchange hl', h.holds]
  case todo =>
    intro k hk
    rw [List.getElem?_set_ne (by omega), h.todo k (by omega)]
  case placed =>
    intro k hk p' hp'
    rw [Equiv.trans_apply]
    by_cases hki : k = i
    · subst hki
      rw [hp] at hp'
      rw [← Option.some.inj hp', Equiv.swap_apply_right]
    · have hle := hchain.le
      rw [h.placed k (by omega) p' hp', Equiv.swap_apply_of_ne_of_ne hki (by omega)]
  case chain =>
    intro p' hrange' hpend'
    have hne : p' ≠ p := fun heq => hpend' i (Nat.lt_succ_self i) (heq ▸ hp)
    have hplace : place p' ≠ place p := fun heq => hne (place.injective heq)
    have hbefore := h.chain p' hrange' fun k hk => hpend' k (by omega)
    have hafter := hbefore.extend (q := place p) hi fun heq => by
      have hle := hchain.le
      omega
    rw [Equiv.trans_apply]
    split at hafter
    · rename_i heq
      rwa [heq, Equiv.swap_apply_left]
    · rename_i hpi
      rwa [Equiv.swap_apply_of_ne_of_ne hpi hplace]

/-- When every position is settled, each holds the element it was to hold. -/
theorem Settled.done (h : Settled source order i l ids place) (hi : source.length ≤ i)
    (hlen : order.length = source.length) (k : Nat) : l[k]? = order[k]?.bind fun p => source[p]? := by
  by_cases hk : k < source.length
  · obtain ⟨p, hp⟩ : ∃ p, order[k]? = some p := ⟨_, List.getElem?_eq_getElem (hlen ▸ hk)⟩
    rw [hp, Option.bind_some, ← h.holds p, h.placed k (by omega) p hp]
  · rw [List.getElem?_eq_none (by rw [h.length]; omega), List.getElem?_eq_none (by omega), Option.bind_none]

end settled

end chase
