import Mathlib.Data.List.Basic
import Mathlib.Logic.Relation
import Cgx.Lib.Guarded

/-! The elements reached from a start over a successor function, by a worklist. -/

namespace closure

open Relation

variable {α : Type} [DecidableEq α]

/-- Take elements from the stack: skip those seen, mark the others and push their
successors. -/
def close (succ : α → List α) : Nat → List α → List α → List α
  | 0, seen, _ => seen
  | _ + 1, seen, [] => seen
  | fuel + 1, seen, x :: stack =>
    if x ∈ seen then close succ fuel seen stack else close succ fuel (x :: seen) (succ x ++ stack)

/-- The number of successors that the elements not seen can still push. -/
def weight (succ : α → List α) (seen : List α) : List α → Nat
  | [] => 0
  | x :: rest => (if x ∈ seen then 0 else (succ x).length) + weight succ seen rest

/-- The elements reached from `start`. Every element is expanded at most once, so over a
closed universe `all` the fuel never runs out. -/
def closure_of (succ : α → List α) (all start : List α) : List α :=
  close succ (start.length + weight succ [] all) [] start

variable {succ : α → List α} {all : List α}

/-- One step of the successor function. -/
def Next (succ : α → List α) (x y : α) : Prop :=
  y ∈ succ x

theorem close_sound {fuel : Nat} {seen stack : List α} {x : α} (h : x ∈ close succ fuel seen stack) :
    x ∈ seen ∨ ∃ y ∈ stack, ReflTransGen (Next succ) y x := by
  induction fuel generalizing seen stack with
  | zero => exact .inl h
  | succ fuel ih =>
    cases stack with
    | nil => exact .inl h
    | cons y stack =>
      rw [close] at h
      split at h
      · cases ih h with
        | inl hseen => exact .inl hseen
        | inr hlater =>
          obtain ⟨z, hz, hreach⟩ := hlater
          exact .inr ⟨z, List.mem_cons_of_mem y hz, hreach⟩
      · cases ih h with
        | inl hseen =>
          cases List.mem_cons.mp hseen with
          | inl heq => exact .inr ⟨y, List.mem_cons_self, heq ▸ .refl⟩
          | inr hold => exact .inl hold
        | inr hlater =>
          obtain ⟨z, hz, hreach⟩ := hlater
          cases List.mem_append.mp hz with
          | inl hsucc => exact .inr ⟨y, List.mem_cons_self, .head hsucc hreach⟩
          | inr hold => exact .inr ⟨z, List.mem_cons_of_mem y hold, hreach⟩

theorem weight_cons_mono (seen : List α) (x : α) (all : List α) :
    weight succ (x :: seen) all ≤ weight succ seen all := by
  induction all with
  | nil => exact Nat.le_refl _
  | cons y rest ih =>
    rw [weight, weight]
    by_cases hy : y ∈ seen
    · simp only [List.mem_cons, hy, or_true, if_true]
      omega
    · rw [if_neg hy]
      split <;> omega

theorem weight_cons_le {seen : List α} {x : α} (hx : x ∈ all) (hnew : x ∉ seen) :
    weight succ (x :: seen) all + (succ x).length ≤ weight succ seen all := by
  induction all with
  | nil => cases hx
  | cons y rest ih =>
    rw [weight, weight]
    by_cases heq : y = x
    · subst heq
      have hrest : weight succ (y :: seen) rest ≤ _ := weight_cons_mono seen y rest
      rw [if_pos List.mem_cons_self, if_neg hnew]
      omega
    · have hmem : x ∈ rest := by simpa [Ne.symm heq] using hx
      have hrest := ih hmem
      by_cases hy : y ∈ seen
      · rw [if_pos (List.mem_cons_of_mem x hy), if_pos hy]
        omega
      · rw [if_neg hy, if_neg (by simp [heq, hy])]
        omega

theorem close_closed (hall : ∀ x ∈ all, ∀ y ∈ succ x, y ∈ all) {fuel : Nat} {seen stack : List α}
    (hstack : ∀ x ∈ stack, x ∈ all) (hseen : ∀ x ∈ seen, ∀ y ∈ succ x, y ∈ seen ∨ y ∈ stack)
    (hfuel : stack.length + weight succ seen all ≤ fuel) :
    (∀ x, x ∈ seen ∨ x ∈ stack → x ∈ close succ fuel seen stack) ∧
      ∀ x ∈ close succ fuel seen stack, ∀ y ∈ succ x, y ∈ close succ fuel seen stack := by
  induction fuel generalizing seen stack with
  | zero =>
    have hnil : stack = [] := List.length_eq_zero_iff.mp (by omega)
    subst hnil
    rw [close]
    exact ⟨by simp, fun x hx y hy => by simpa using hseen x hx y hy⟩
  | succ fuel ih =>
    cases stack with
    | nil =>
      rw [close]
      exact ⟨by simp, fun x hx y hy => by simpa using hseen x hx y hy⟩
    | cons z stack =>
      rw [List.length_cons] at hfuel
      rw [close]
      split
      · rename_i hz
        obtain ⟨hin, hclosed⟩ := ih (fun x hx => hstack x (List.mem_cons_of_mem z hx)) (by
          intro x hx y hy
          cases hseen x hx y hy with
          | inl hold => exact .inl hold
          | inr hpushed =>
            cases List.mem_cons.mp hpushed with
            | inl heq => exact .inl (heq ▸ hz)
            | inr hlater => exact .inr hlater) (by omega)
        refine ⟨fun x hx => hin x ?_, hclosed⟩
        cases hx with
        | inl hold => exact .inl hold
        | inr hpushed =>
          cases List.mem_cons.mp hpushed with
          | inl heq => exact .inl (heq ▸ hz)
          | inr hlater => exact .inr hlater
      · rename_i hz
        have hzall := hstack z List.mem_cons_self
        have hweight : _ ≤ weight succ seen all := weight_cons_le hzall hz
        have hstack' : ∀ x ∈ succ z ++ stack, x ∈ all := by
          intro x hx
          cases List.mem_append.mp hx with
          | inl hnext => exact hall z hzall x hnext
          | inr hlater => exact hstack x (List.mem_cons_of_mem z hlater)
        have hseen' : ∀ x ∈ z :: seen, ∀ y ∈ succ x, y ∈ z :: seen ∨ y ∈ succ z ++ stack := by
          intro x hx y hy
          cases List.mem_cons.mp hx with
          | inl heq => exact .inr (List.mem_append_left _ (heq ▸ hy))
          | inr hold =>
            cases hseen x hold y hy with
            | inl hmarked => exact .inl (List.mem_cons_of_mem z hmarked)
            | inr hpushed =>
              cases List.mem_cons.mp hpushed with
              | inl heq => exact .inl (heq ▸ List.mem_cons_self)
              | inr hlater => exact .inr (List.mem_append_right _ hlater)
        obtain ⟨hin, hclosed⟩ := ih hstack' hseen' (by
          rw [List.length_append]
          omega)
        refine ⟨fun x hx => hin x ?_, hclosed⟩
        cases hx with
        | inl hold => exact .inl (List.mem_cons_of_mem z hold)
        | inr hpushed =>
          cases List.mem_cons.mp hpushed with
          | inl heq => exact .inl (heq ▸ List.mem_cons_self)
          | inr hlater => exact .inr (List.mem_append_right _ hlater)

/-- Over a closed universe the worklist finds exactly what can be reached. -/
theorem mem_closure_of {start : List α} (hstart : ∀ x ∈ start, x ∈ all)
    (hall : ∀ x ∈ all, ∀ y ∈ succ x, y ∈ all) {x : α} :
    x ∈ closure_of succ all start ↔ ∃ y ∈ start, ReflTransGen (Next succ) y x := by
  constructor
  · intro h
    exact (close_sound h).resolve_left List.not_mem_nil
  · rintro ⟨y, hy, hreach⟩
    have hnone : ∀ x ∈ ([] : List α), ∀ y ∈ succ x, y ∈ ([] : List α) ∨ y ∈ start := by
      intro x hx
      cases hx
    obtain ⟨hin, hclosed⟩ := close_closed hall hstart hnone (Nat.le_refl _)
    induction hreach with
    | refl => exact hin y (.inr hy)
    | tail _ hnext ih => exact hclosed _ ih _ hnext

end closure

/-! A queue whose elements are marked when they are pushed. -/

namespace worklist

open Relation closure guarded

variable {α : Type} [DecidableEq α]

/-- Push the elements that are not marked, and mark them. -/
def push_new (marked queue : List α) : List α → List α × List α
  | [] => (marked, queue)
  | x :: rest => if x ∈ marked then push_new marked queue rest else push_new (x :: marked) (queue ++ [x]) rest

/-- Take elements from the queue and push their successors; what is marked at the end. -/
def drain (succ : α → List α) : Nat → List α × List α → List α
  | 0, s => s.1
  | _ + 1, (marked, []) => marked
  | fuel + 1, (marked, x :: queue) => drain succ fuel (push_new marked queue (succ x))

variable {succ : α → List α} {marked queue : List α} {all : Finset α}

/-- What a push leaves: everything is marked, what is new stands in the queue, and the queue is
no longer than the elements newly marked allow. -/
structure Pushed (all : Finset α) (marked queue xs : List α) (s : List α × List α) : Prop where
  keeps_marked : marked ⊆ s.1
  keeps_queue : queue ⊆ s.2
  marks : ∀ x ∈ xs, x ∈ s.1
  from_marked : ∀ x ∈ s.1, x ∈ marked ∨ x ∈ xs ∧ x ∈ s.2
  from_queue : ∀ x ∈ s.2, x ∈ queue ∨ x ∈ xs ∧ x ∈ s.1
  bounded : (∀ x ∈ xs, x ∈ all) → s.2.length + missing all s.1 ≤ queue.length + missing all marked

theorem pushed (all : Finset α) (marked queue xs : List α) : Pushed all marked queue xs (push_new marked queue xs) := by
  induction xs generalizing marked queue with
  | nil =>
    exact ⟨fun _ h => h, fun _ h => h, fun _ h => absurd h List.not_mem_nil, fun _ h => .inl h, fun _ h => .inl h,
      fun _ => le_refl _⟩
  | cons x rest ih =>
    rw [push_new]
    split
    case isTrue hx =>
      have h := ih marked queue
      refine ⟨h.keeps_marked, h.keeps_queue, fun y hy => ?_, fun y hy => ?_, fun y hy => ?_, fun hall => ?_⟩
      · obtain rfl | hy := List.mem_cons.mp hy
        · exact h.keeps_marked hx
        · exact h.marks y hy
      · exact (h.from_marked y hy).imp_right fun hnew => ⟨List.mem_cons_of_mem x hnew.1, hnew.2⟩
      · exact (h.from_queue y hy).imp_right fun hnew => ⟨List.mem_cons_of_mem x hnew.1, hnew.2⟩
      · exact h.bounded fun y hy => hall y (List.mem_cons_of_mem x hy)
    case isFalse hx =>
      have h := ih (x :: marked) (queue ++ [x])
      have hmarked : x ∈ (push_new (x :: marked) (queue ++ [x]) rest).1 := h.keeps_marked List.mem_cons_self
      have hqueue : x ∈ (push_new (x :: marked) (queue ++ [x]) rest).2 :=
        h.keeps_queue (List.mem_append_right queue List.mem_cons_self)
      refine ⟨fun y hy => h.keeps_marked (List.mem_cons_of_mem x hy), fun y hy => h.keeps_queue (List.mem_append_left _ hy),
        fun y hy => ?_, fun y hy => ?_, fun y hy => ?_, fun hall => ?_⟩
      · obtain rfl | hy := List.mem_cons.mp hy
        · exact hmarked
        · exact h.marks y hy
      · obtain hold | hnew := h.from_marked y hy
        · obtain rfl | hold := List.mem_cons.mp hold
          · exact .inr ⟨List.mem_cons_self, hqueue⟩
          · exact .inl hold
        · exact .inr ⟨List.mem_cons_of_mem x hnew.1, hnew.2⟩
      · obtain hold | hnew := h.from_queue y hy
        · obtain hold | hnew := List.mem_append.mp hold
          · exact .inl hold
          · obtain rfl := List.mem_singleton.mp hnew
            exact .inr ⟨List.mem_cons_self, hmarked⟩
        · exact .inr ⟨List.mem_cons_of_mem x hnew.1, hnew.2⟩
      · have hrest := h.bounded fun y hy => hall y (List.mem_cons_of_mem x hy)
        have hless : missing all (x :: marked) < missing all marked := missing_cons (hall x List.mem_cons_self) hx
        rw [List.length_append, List.length_singleton] at hrest
        omega

theorem drain_sound {fuel : Nat} {s : List α × List α} {x : α} (h : x ∈ drain succ fuel s) :
    x ∈ s.1 ∨ ∃ y ∈ s.2, ReflTransGen (Next succ) y x := by
  induction fuel generalizing s with
  | zero => exact .inl h
  | succ fuel ih =>
    obtain ⟨marked, queue⟩ := s
    cases queue with
    | nil => exact .inl h
    | cons y queue =>
      have hpush := pushed ∅ marked queue (succ y)
      obtain hmarked | ⟨z, hz, hreach⟩ := ih h
      · obtain hold | hnew := hpush.from_marked x hmarked
        · exact .inl hold
        · exact .inr ⟨y, List.mem_cons_self, .single hnew.1⟩
      · obtain hold | hnew := hpush.from_queue z hz
        · exact .inr ⟨z, List.mem_cons_of_mem y hold, hreach⟩
        · exact .inr ⟨y, List.mem_cons_self, .head hnew.1 hreach⟩

/-- With fuel for the queue and for everything that is not marked, what is marked is closed. -/
theorem drain_closed (hall : ∀ x ∈ all, ∀ y ∈ succ x, y ∈ all) {fuel : Nat} (hqueue : ∀ x ∈ queue, x ∈ all)
    (hmarked : ∀ x ∈ marked, x ∈ queue ∨ ∀ y ∈ succ x, y ∈ marked)
    (hfuel : queue.length + missing all marked ≤ fuel) :
    marked ⊆ drain succ fuel (marked, queue) ∧
      ∀ x ∈ drain succ fuel (marked, queue), ∀ y ∈ succ x, y ∈ drain succ fuel (marked, queue) := by
  induction fuel generalizing marked queue with
  | zero =>
    have hnil : queue = [] := List.length_eq_zero_iff.mp (by omega)
    subst hnil
    exact ⟨fun _ h => h, fun x hx y hy => (hmarked x hx).resolve_left List.not_mem_nil y hy⟩
  | succ fuel ih =>
    cases queue with
    | nil => exact ⟨fun _ h => h, fun x hx y hy => (hmarked x hx).resolve_left List.not_mem_nil y hy⟩
    | cons z queue =>
      have hpush := pushed all marked queue (succ z)
      have hzall := hqueue z List.mem_cons_self
      have hbound := hpush.bounded fun y hy => hall z hzall y hy
      rw [List.length_cons] at hfuel
      have hqueue' : ∀ x ∈ (push_new marked queue (succ z)).2, x ∈ all := fun x hx =>
        (hpush.from_queue x hx).elim (fun hold => hqueue x (List.mem_cons_of_mem z hold)) fun hnew => hall z hzall x hnew.1
      have hmarked' : ∀ x ∈ (push_new marked queue (succ z)).1, x ∈ (push_new marked queue (succ z)).2 ∨
          ∀ y ∈ succ x, y ∈ (push_new marked queue (succ z)).1 := by
        intro x hx
        obtain hold | hnew := hpush.from_marked x hx
        · obtain hqueued | hdone := hmarked x hold
          · obtain rfl | hqueued := List.mem_cons.mp hqueued
            · exact .inr hpush.marks
            · exact .inl (hpush.keeps_queue hqueued)
          · exact .inr fun y hy => hpush.keeps_marked (hdone y hy)
        · exact .inl hnew.2
      obtain ⟨hin, hclosed⟩ := ih hqueue' hmarked' (by omega)
      exact ⟨fun x hx => hin (hpush.keeps_marked hx), hclosed⟩

/-- What is marked at the end is what can be reached from the queue. -/
theorem mem_drain (hall : ∀ x ∈ all, ∀ y ∈ succ x, y ∈ all) {fuel : Nat} (hqueue : ∀ x ∈ queue, x ∈ all)
    (hmarked : ∀ x, x ∈ marked ↔ x ∈ queue) (hfuel : queue.length + missing all marked ≤ fuel) {x : α} :
    x ∈ drain succ fuel (marked, queue) ↔ ∃ y ∈ queue, ReflTransGen (Next succ) y x := by
  constructor
  · intro h
    obtain hold | hreach := drain_sound h
    · exact ⟨x, (hmarked x).mp hold, .refl⟩
    · exact hreach
  · rintro ⟨y, hy, hreach⟩
    obtain ⟨hin, hclosed⟩ := drain_closed hall hqueue (fun x hx => .inl ((hmarked x).mp hx)) hfuel
    induction hreach with
    | refl => exact hin ((hmarked y).mpr hy)
    | tail _ hnext ih => exact hclosed _ ih _ hnext

end worklist
