import Mathlib.Data.List.Basic
import Mathlib.Data.List.Nodup
import Mathlib.Logic.Relation

/-! Depth-first search over labelled hops that carries a value along its path. -/

namespace carry

open Relation

variable {α δ σ : Type}

/-- A labelled hop from `tail` to `head`. -/
structure Hop (α δ : Type) where
  tail : α
  head : α
  label : δ
deriving DecidableEq

section search

variable [DecidableEq α]

/-- Push the heads of the hops from `x`. The hop pushed last is popped first. -/
def push (hops : List (Hop α δ)) (extend : σ → δ → σ) (x : α) (c : σ) (stack : List (α × σ)) :
    List (α × σ) :=
  ((hops.filter fun h => h.tail = x).map fun h => (h.head, extend c h.label)).reverse ++ stack

/-- The visits of the search, in order, with the value carried to each: pop the stack, skip
what is seen, push what follows. -/
def visits (hops : List (Hop α δ)) (extend : σ → δ → σ) : Nat → List α → List (α × σ) → List (α × σ)
  | 0, _, _ => []
  | _ + 1, _, [] => []
  | fuel + 1, seen, (x, c) :: stack =>
    if x ∈ seen then visits hops extend fuel seen stack
    else (x, c) :: visits hops extend fuel (x :: seen) (push hops extend x c stack)

/-- Search from `x`. A hop is pushed at most once, so the fuel never runs out. -/
def search (hops : List (Hop α δ)) (extend : σ → δ → σ) (x : α) (c : σ) : List (α × σ) :=
  visits hops extend (hops.length + 1) [] [(x, c)]

end search

/-- One hop leads from `x` to `y`. -/
def Leads (hops : List (Hop α δ)) (x y : α) : Prop :=
  ∃ h ∈ hops, h.tail = x ∧ h.head = y

/-- The hops of `path` lead from `x` to `y`, one after the other. -/
def Chain (hops : List (Hop α δ)) : α → List (Hop α δ) → α → Prop
  | x, [], y => x = y
  | x, h :: rest, y => h ∈ hops ∧ h.tail = x ∧ Chain hops h.head rest y

/-- The nodes of a path from `x`. -/
def nodes (x : α) (path : List (Hop α δ)) : List α :=
  x :: path.map Hop.head

/-- What a path carries. -/
def carried (extend : σ → δ → σ) (c : σ) (path : List (Hop α δ)) : σ :=
  path.foldl (fun c h => extend c h.label) c

/-- A path that repeats no node. -/
def SimplePath (hops : List (Hop α δ)) (x : α) (path : List (Hop α δ)) (y : α) : Prop :=
  Chain hops x path y ∧ (nodes x path).Nodup

section paths

variable {hops : List (Hop α δ)} {extend : σ → δ → σ} {x y z : α} {path : List (Hop α δ)}

theorem chain_snoc {h : Hop α δ} (hpath : Chain hops x path y) (hh : h ∈ hops) (htail : h.tail = y) :
    Chain hops x (path ++ [h]) h.head := by
  induction path generalizing x with
  | nil => exact ⟨hh, htail.trans (Eq.symm hpath), rfl⟩
  | cons first rest ih => exact ⟨hpath.1, hpath.2.1, ih hpath.2.2⟩

theorem Chain.reaches (hpath : Chain hops x path y) : ReflTransGen (Leads hops) x y := by
  induction path generalizing x with
  | nil => exact Eq.symm hpath ▸ .refl
  | cons first rest ih => exact .head ⟨first, hpath.1, hpath.2.1, rfl⟩ (ih hpath.2.2)

theorem nodes_snoc (x : α) (path : List (Hop α δ)) (h : Hop α δ) :
    nodes x (path ++ [h]) = nodes x path ++ [h.head] := by
  simp [nodes]

theorem Chain.mem_nodes (hpath : Chain hops x path y) : y ∈ nodes x path := by
  induction path generalizing x with
  | nil =>
    obtain rfl : x = y := hpath
    exact List.mem_singleton_self x
  | cons first rest ih => exact List.mem_cons_of_mem x (ih hpath.2.2)

theorem carried_snoc (extend : σ → δ → σ) (c : σ) (path : List (Hop α δ)) (h : Hop α δ) :
    carried extend c (path ++ [h]) = extend (carried extend c path) h.label := by
  simp [carried]

end paths

section spec

variable [DecidableEq α] {hops : List (Hop α δ)} {extend : σ → δ → σ} {fuel : Nat} {seen : List α}
  {stack : List (α × σ)}

/-- No node is visited twice, and none that was seen. -/
theorem visits_nodup : ((visits hops extend fuel seen stack).map Prod.fst).Nodup ∧
    ∀ v ∈ visits hops extend fuel seen stack, v.1 ∉ seen := by
  induction fuel generalizing seen stack with
  | zero => simp [visits]
  | succ fuel ih =>
    cases stack with
    | nil => simp [visits]
    | cons entry stack =>
      obtain ⟨x, c⟩ := entry
      rw [visits]
      split
      · exact ih
      · rename_i hx
        obtain ⟨hnodup, hfresh⟩ := @ih (x :: seen) (push hops extend x c stack)
        constructor
        · rw [List.map_cons, List.nodup_cons]
          refine ⟨fun hmem => ?_, hnodup⟩
          obtain ⟨v, hv, heq⟩ := List.mem_map.mp hmem
          exact hfresh v hv (heq ▸ List.mem_cons_self)
        · intro v hv
          obtain rfl | hv := List.mem_cons.mp hv
          · exact hx
          · exact fun hseen => hfresh v hv (List.mem_cons_of_mem x hseen)

/-- A stack entry was reached over a path of seen nodes. -/
def Reached (hops : List (Hop α δ)) (extend : σ → δ → σ) (root : α) (init : σ) (seen : List α)
    (entry : α × σ) : Prop :=
  ∃ path, Chain hops root path entry.1 ∧ entry.2 = carried extend init path ∧
    ∃ before, nodes root path = before ++ [entry.1] ∧ before.Nodup ∧ ∀ y ∈ before, y ∈ seen

/-- A visit carries the value of one simple path. -/
theorem visits_path {root : α} {init : σ} (hstack : ∀ e ∈ stack, Reached hops extend root init seen e) :
    ∀ v ∈ visits hops extend fuel seen stack,
      ∃ path, SimplePath hops root path v.1 ∧ v.2 = carried extend init path := by
  induction fuel generalizing seen stack with
  | zero => simp [visits]
  | succ fuel ih =>
    cases stack with
    | nil => simp [visits]
    | cons entry stack =>
      obtain ⟨x, c⟩ := entry
      rw [visits]
      split
      · exact ih fun e he => hstack e (List.mem_cons_of_mem _ he)
      · rename_i hx
        obtain ⟨path, hchain, hcarried, before, hnodes, hnodup, hbefore⟩ := hstack (x, c) List.mem_cons_self
        have hsimple : (nodes root path).Nodup := by
          rw [hnodes, List.nodup_append]
          refine ⟨hnodup, List.nodup_singleton x, fun a ha b hb => ?_⟩
          rw [List.mem_singleton.mp hb]
          intro heq
          have hseen := hbefore a ha
          rw [heq] at hseen
          exact hx hseen
        intro v hv
        obtain rfl | hv := List.mem_cons.mp hv
        · exact ⟨path, ⟨hchain, hsimple⟩, hcarried⟩
        · refine ih (fun e he => ?_) v hv
          obtain he | he := List.mem_append.mp he
          · obtain ⟨h, hh, rfl⟩ := List.mem_map.mp (List.mem_reverse.mp he)
            obtain ⟨hmem, htail⟩ := List.mem_filter.mp hh
            refine ⟨path ++ [h], chain_snoc hchain hmem (by simpa using htail), ?_, nodes root path,
              nodes_snoc root path h, hsimple, ?_⟩
            · rw [carried_snoc, ← hcarried]
            · intro y hy
              rw [hnodes] at hy
              obtain hy | hy := List.mem_append.mp hy
              · exact List.mem_cons_of_mem x (hbefore y hy)
              · rw [List.mem_singleton.mp hy]
                exact List.mem_cons_self
          · obtain ⟨path', hchain', hcarried', before', hnodes', hnodup', hbefore'⟩ :=
              hstack e (List.mem_cons_of_mem _ he)
            exact ⟨path', hchain', hcarried', before', hnodes', hnodup',
              fun y hy => List.mem_cons_of_mem x (hbefore' y hy)⟩

/-- The hops that a search can still push. -/
def left (hops : List (Hop α δ)) (seen : List α) : Nat :=
  (hops.filter fun h => h.tail ∉ seen).length

theorem left_cons (hops : List (Hop α δ)) {x : α} (hx : x ∉ seen) :
    (hops.filter fun h => h.tail = x).length + left hops (x :: seen) = left hops seen := by
  unfold left
  induction hops with
  | nil => rfl
  | cons h rest ih =>
    by_cases htail : h.tail = x
    · rw [List.filter_cons_of_pos (by simpa using htail), List.filter_cons_of_neg (by simp [htail]),
        List.filter_cons_of_pos (by simpa [htail] using hx), List.length_cons, List.length_cons]
      omega
    · by_cases hseen : h.tail ∈ seen
      · rw [List.filter_cons_of_neg (by simpa using htail), List.filter_cons_of_neg (by simp [hseen]),
          List.filter_cons_of_neg (by simp [hseen])]
        exact ih
      · rw [List.filter_cons_of_neg (by simpa using htail), List.filter_cons_of_pos (by simp [htail, hseen]),
          List.filter_cons_of_pos (by simpa using hseen), List.length_cons, List.length_cons]
        omega

/-- With enough fuel, what is on the stack is visited, and with a node its hops' heads. -/
theorem visits_closed (extend : σ → δ → σ) (hfuel : stack.length + left hops seen ≤ fuel) :
    (∀ e ∈ stack, e.1 ∈ seen ∨ e.1 ∈ (visits hops extend fuel seen stack).map Prod.fst) ∧
      ∀ x ∈ (visits hops extend fuel seen stack).map Prod.fst, ∀ y, Leads hops x y →
        y ∈ seen ∨ y ∈ (visits hops extend fuel seen stack).map Prod.fst := by
  induction fuel generalizing seen stack with
  | zero =>
    have hnil : stack = [] := List.length_eq_zero_iff.mp (by omega)
    subst hnil
    simp [visits]
  | succ fuel ih =>
    cases stack with
    | nil => simp [visits]
    | cons entry stack =>
      obtain ⟨x, c⟩ := entry
      rw [visits]
      split
      · rename_i hx
        rw [List.length_cons] at hfuel
        obtain ⟨hstack, hclosed⟩ := @ih seen stack (by omega)
        refine ⟨fun e he => ?_, hclosed⟩
        obtain rfl | he := List.mem_cons.mp he
        · exact .inl hx
        · exact hstack e he
      · rename_i hx
        have hleft := left_cons hops hx
        have hless : (push hops extend x c stack).length + left hops (x :: seen) ≤ fuel := by
          simp only [push, List.length_append, List.length_reverse, List.length_map, List.length_cons] at hfuel ⊢
          omega
        obtain ⟨hstack, hclosed⟩ := ih hless
        have hmove : ∀ y,
            (y ∈ x :: seen ∨ y ∈ (visits hops extend fuel (x :: seen) (push hops extend x c stack)).map Prod.fst) →
            y ∈ seen ∨
              y ∈ ((x, c) :: visits hops extend fuel (x :: seen) (push hops extend x c stack)).map Prod.fst := by
          intro y hy
          rw [List.map_cons, List.mem_cons]
          rw [List.mem_cons] at hy
          tauto
        refine ⟨fun e he => ?_, fun z hz y hleads => ?_⟩
        · obtain rfl | he := List.mem_cons.mp he
          · exact .inr List.mem_cons_self
          · exact hmove e.1 (hstack e (List.mem_append_right _ he))
        · obtain rfl | hz := List.mem_cons.mp hz
          · obtain ⟨h, hh, htail, rfl⟩ := hleads
            have hpushed : (h.head, extend c h.label) ∈ push hops extend z c stack := by
              apply List.mem_append_left
              exact List.mem_reverse.mpr (List.mem_map_of_mem (List.mem_filter.mpr ⟨hh, by simpa using htail⟩))
            exact hmove h.head (hstack (h.head, extend c h.label) hpushed)
          · exact hmove y (hclosed z hz y hleads)

variable {root : α} {init : σ}

theorem search_nodup : ((search hops extend root init).map Prod.fst).Nodup :=
  visits_nodup.1

/-- Each node is visited over one simple path from the root. -/
theorem search_path {v : α × σ} (hv : v ∈ search hops extend root init) :
    ∃ path, SimplePath hops root path v.1 ∧ v.2 = carried extend init path := by
  refine visits_path (fun e he => ?_) v hv
  rw [List.mem_singleton.mp he]
  exact ⟨[], rfl, rfl, [], rfl, List.nodup_nil, by simp⟩

/-- The search visits exactly what the root reaches. -/
theorem mem_search_iff {x : α} :
    x ∈ (search hops extend root init).map Prod.fst ↔ ReflTransGen (Leads hops) root x := by
  constructor
  · intro hx
    obtain ⟨v, hv, rfl⟩ := List.mem_map.mp hx
    obtain ⟨path, ⟨hchain, _⟩, _⟩ := search_path hv
    exact hchain.reaches
  · intro hreach
    have hfuel : [(root, init)].length + left hops [] ≤ hops.length + 1 := by
      have hle := List.length_filter_le (fun h : Hop α δ => h.tail ∉ ([] : List α)) hops
      simp only [left, List.length_singleton] at hle ⊢
      omega
    obtain ⟨hstack, hclosed⟩ := visits_closed extend hfuel
    induction hreach with
    | refl => exact (hstack _ (List.mem_singleton_self _)).resolve_left List.not_mem_nil
    | tail _ hleads ih => exact (hclosed _ ih _ hleads).resolve_left List.not_mem_nil

end spec

end carry
