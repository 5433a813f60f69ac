import Mathlib.Algebra.BigOperators.Group.List.Basic
import Mathlib.Data.List.Basic

namespace backtrack

variable {β : Type}

/-- Which bound stopped a search before its tree was explored. -/
inductive Truncation where
  | StepBudget
  | PathCap
deriving DecidableEq

/-- The bookkeeping of a bounded depth-first search. -/
structure Search (β : Type) where
  found : List (List β)
  steps : Nat
  truncation : Option Truncation

/-- A search tree over paths: where a path ends, and how it goes on. Both see the
path up to a node and the node itself. -/
structure Tree (β : Type) where
  goal : List β → β → Bool
  children : List β → β → List β

/-- Whether a search is over: its budget or its cap is exhausted. -/
def stopped (cap : Nat) (walk : Search β) : Bool :=
  walk.truncation = some .StepBudget || cap ≤ walk.found.length

/-- Enter the children one after the other until the search is over. -/
def descend {γ : Type} (cap : Nat) (enter : γ → Search β → Search β) : List γ → Search β → Search β
  | [], walk => walk
  | child :: rest, walk =>
    let walk := enter child walk
    if stopped cap walk then walk else descend cap enter rest walk

/-- Depth-first search that charges one step a visit, stops when the budget is
exhausted and collects at most `cap` paths. -/
def explore (budget cap : Nat) (tree : Tree β) : Nat → List β → β → Search β → Search β
  | 0, _, _, walk => walk
  | fuel + 1, before, here, walk =>
    let walk := { walk with steps := walk.steps + 1 }
    if budget < walk.steps then { walk with truncation := some .StepBudget }
    else if cap ≤ walk.found.length then walk
    else if tree.goal before here then
      let walk := { walk with found := walk.found ++ [before ++ [here]] }
      if cap ≤ walk.found.length then { walk with truncation := some .PathCap } else walk
    else descend cap (explore budget cap tree fuel (before ++ [here])) (tree.children before here) walk

/-- The paths of the tree, without any bound but the fuel. -/
def leaves (tree : Tree β) : Nat → List β → β → List (List β)
  | 0, _, _ => []
  | fuel + 1, before, here =>
    if tree.goal before here then [before ++ [here]]
    else (tree.children before here).flatMap (leaves tree fuel (before ++ [here]))

/-- `rest` leads from a node down the tree to the first goal. -/
def Tree.Extends (tree : Tree β) : List β → β → List β → Prop
  | before, here, [] => tree.goal before here = true
  | before, here, child :: rest => tree.goal before here = false ∧ child ∈ tree.children before here ∧
      tree.Extends (before ++ [here]) child rest

theorem mem_leaves {tree : Tree β} {fuel : Nat} {before : List β} {here : β} {path : List β} :
    path ∈ leaves tree fuel before here ↔
      ∃ rest, path = before ++ here :: rest ∧ tree.Extends before here rest ∧ rest.length < fuel := by
  induction fuel generalizing before here with
  | zero => simp [leaves]
  | succ fuel ih =>
    simp only [leaves]
    split
    · rename_i hgoal
      rw [List.mem_singleton]
      constructor
      · intro hpath
        exact ⟨[], hpath, hgoal, Nat.succ_pos fuel⟩
      · rintro ⟨rest, hpath, hextends, _⟩
        cases rest with
        | nil => exact hpath
        | cons child rest => simp [Tree.Extends, hgoal] at hextends
    · rename_i hgoal
      rw [Bool.not_eq_true] at hgoal
      simp only [List.mem_flatMap, ih]
      constructor
      · rintro ⟨child, hchild, rest, hpath, hextends, hlength⟩
        refine ⟨child :: rest, ?_, ⟨hgoal, hchild, hextends⟩, Nat.succ_lt_succ hlength⟩
        simpa using hpath
      · rintro ⟨rest, hpath, hextends, hlength⟩
        cases rest with
        | nil => simp [Tree.Extends, hgoal] at hextends
        | cons child rest =>
          obtain ⟨_, hchild, hextends⟩ := hextends
          refine ⟨child, hchild, rest, ?_, hextends, Nat.lt_of_succ_lt_succ hlength⟩
          simpa using hpath

section bounds

variable {budget cap : Nat}

/-- What an entered child does to a search: as long as nothing is cut, it adds the
given paths and stays below the cap. -/
private def Adds (cap : Nat) (enter : Search β → Search β) (paths : List (List β)) : Prop :=
  ∀ walk, walk.found.length < cap → (enter walk).truncation = none →
    walk.truncation = none ∧ (enter walk).found = walk.found ++ paths ∧
      (enter walk).found.length < cap

private theorem descend_adds {γ : Type} {enter : γ → Search β → Search β}
    {paths : γ → List (List β)} (henter : ∀ child, Adds cap (enter child) (paths child))
    (children : List γ) : Adds cap (descend cap enter children) (children.flatMap paths) := by
  induction children with
  | nil =>
    intro walk hcap hnone
    exact ⟨hnone, by simp [descend], hcap⟩
  | cons child rest ih =>
    intro walk hcap hnone
    simp only [descend] at hnone ⊢
    split at hnone
    · rename_i hstopped
      obtain ⟨_, _, hbelow⟩ := henter child walk hcap hnone
      simp only [stopped, hnone, Bool.or_eq_true, decide_eq_true_eq, reduceCtorEq, false_or] at hstopped
      omega
    · rename_i hstopped
      rw [if_neg hstopped]
      have hbelow : (enter child walk).found.length < cap := by
        simp only [stopped, Bool.or_eq_true, decide_eq_true_eq, not_or, Nat.not_le] at hstopped
        exact hstopped.2
      obtain ⟨hmid, hfound, hlast⟩ := ih _ hbelow hnone
      obtain ⟨hstart, hadded, _⟩ := henter child walk hcap hmid
      refine ⟨hstart, ?_, hlast⟩
      rw [hfound, hadded, List.flatMap_cons, List.append_assoc]

/-- A search that is not cut short finds all paths of the tree, in order. -/
theorem explore_adds (tree : Tree β) (fuel : Nat) (before : List β) (here : β) :
    Adds cap (explore budget cap tree fuel before here) (leaves tree fuel before here) := by
  induction fuel generalizing before here with
  | zero =>
    intro walk hcap hnone
    exact ⟨hnone, by simp [explore, leaves], hcap⟩
  | succ fuel ih =>
    intro walk hcap hnone
    simp only [explore] at hnone ⊢
    simp only [leaves]
    split at hnone
    · simp at hnone
    · rename_i hbudget
      rw [if_neg hbudget]
      rw [if_neg (by omega : ¬ cap ≤ walk.found.length)] at hnone ⊢
      split at hnone
      · rename_i hgoal
        rw [if_pos hgoal, if_pos hgoal]
        split at hnone
        · simp at hnone
        · rename_i hbelow
          rw [if_neg hbelow]
          exact ⟨hnone, rfl, Nat.lt_of_not_le hbelow⟩
      · rename_i hgoal
        rw [if_neg hgoal, if_neg hgoal]
        exact descend_adds (fun child => ih (before ++ [here]) child) (tree.children before here)
          { walk with steps := walk.steps + 1 } hcap hnone

/-- Without a cut the search from scratch returns exactly the paths of the tree. -/
theorem explore_complete {tree : Tree β} {fuel : Nat} {before : List β} {here : β}
    (hcap : 0 < cap)
    (hnone : (explore budget cap tree fuel before here ⟨[], 0, none⟩).truncation = none) :
    (explore budget cap tree fuel before here ⟨[], 0, none⟩).found = leaves tree fuel before here := by
  obtain ⟨_, hfound, _⟩ := explore_adds tree fuel before here ⟨[], 0, none⟩ hcap hnone
  simpa using hfound

private theorem descend_sublist {γ : Type} {enter : γ → Search β → Search β}
    {paths : γ → List (List β)}
    (henter : ∀ child walk, ∃ added, (enter child walk).found = walk.found ++ added ∧
      added.Sublist (paths child))
    (children : List γ) (walk : Search β) :
    ∃ added, (descend cap enter children walk).found = walk.found ++ added ∧
      added.Sublist (children.flatMap paths) := by
  induction children generalizing walk with
  | nil => exact ⟨[], (List.append_nil _).symm, .slnil⟩
  | cons child rest ih =>
    obtain ⟨added, hfound, hadded⟩ := henter child walk
    simp only [descend]
    rw [List.flatMap_cons]
    split
    · exact ⟨added, hfound, hadded.trans (List.sublist_append_left _ _)⟩
    · obtain ⟨more, hmore, hsub⟩ := ih (enter child walk)
      refine ⟨added ++ more, ?_, hadded.append hsub⟩
      rw [hmore, hfound, List.append_assoc]

/-- Cut short or not, a search adds paths of the tree in their order, each no more
often than the tree has it. -/
theorem explore_sublist (tree : Tree β) (fuel : Nat) (before : List β) (here : β) (walk : Search β) :
    ∃ added, (explore budget cap tree fuel before here walk).found = walk.found ++ added ∧
      added.Sublist (leaves tree fuel before here) := by
  induction fuel generalizing before here walk with
  | zero => exact ⟨[], (List.append_nil _).symm, .slnil⟩
  | succ fuel ih =>
    simp only [explore, leaves]
    split
    · exact ⟨[], (List.append_nil _).symm, List.nil_sublist _⟩
    · split
      · exact ⟨[], (List.append_nil _).symm, List.nil_sublist _⟩
      · split
        · refine ⟨[before ++ [here]], ?_, List.Sublist.refl _⟩
          split <;> rfl
        · exact descend_sublist (fun child walk => ih (before ++ [here]) child walk) _
            { walk with steps := walk.steps + 1 }

/-- Cut short or not, a search finds only paths of the tree. -/
theorem explore_sound {tree : Tree β} {fuel : Nat} {before : List β} {here : β} {walk : Search β} :
    ∀ path ∈ (explore budget cap tree fuel before here walk).found,
      path ∈ walk.found ∨ path ∈ leaves tree fuel before here := by
  intro path hpath
  obtain ⟨added, hfound, hadded⟩ := explore_sublist tree fuel before here walk
  rw [hfound] at hpath
  exact (List.mem_append.mp hpath).imp_right (hadded.subset ·)

/-- The paths from a node down the tree have fewer than `n` nodes below it. -/
def Tree.Fits (tree : Tree β) : Nat → List β → β → Prop
  | 0, _, _ => False
  | n + 1, before, here => tree.goal before here = false →
      ∀ child ∈ tree.children before here, tree.Fits n (before ++ [here]) child

private theorem descend_congr {γ : Type} {enter enter' : γ → Search β → Search β} {children : List γ}
    (h : ∀ child ∈ children, enter child = enter' child) :
    descend cap enter children = descend cap enter' children := by
  induction children with
  | nil => rfl
  | cons child rest ih =>
    funext walk
    have hrest := ih fun child hchild => h child (List.mem_cons_of_mem _ hchild)
    simp only [descend, h child List.mem_cons_self, hrest]

/-- A search of a tree that fits into its fuel does not depend on how much there is. -/
theorem explore_enough {tree : Tree β} {n fuel : Nat} {before : List β} {here : β}
    (hfits : tree.Fits n before here) (hfuel : n ≤ fuel) :
    explore budget cap tree fuel before here = explore budget cap tree n before here := by
  induction n generalizing fuel before here with
  | zero => exact absurd hfits id
  | succ n ih =>
    obtain ⟨fuel, rfl⟩ : ∃ fuel', fuel = fuel' + 1 := ⟨fuel - 1, by omega⟩
    funext walk
    simp only [explore]
    by_cases hgoal : tree.goal before here = true
    · rw [if_pos hgoal, if_pos hgoal]
    · rw [Bool.not_eq_true] at hgoal
      rw [descend_congr fun child hchild => ih (hfits hgoal child hchild) (Nat.le_of_succ_le_succ hfuel)]

section count

variable [DecidableEq β]

/-- A path stands in the tree at most as often as its nodes stand among the children
they were taken from. -/
theorem count_leaves_le {tree : Tree β} {mult : β → Nat}
    (hchildren : ∀ before here child, (tree.children before here).count child ≤ mult child) {fuel : Nat}
    {before : List β} {here : β} {rest : List β} :
    (leaves tree fuel before here).count (before ++ here :: rest) ≤ (rest.map mult).prod := by
  induction fuel generalizing before here rest with
  | zero => simp [leaves]
  | succ fuel ih =>
    simp only [leaves]
    split
    · cases rest with
      | nil => simp
      | cons child rest => simp
    · have hmem : ∀ child, (before ++ here :: rest) ∈ leaves tree fuel (before ++ [here]) child →
          ∃ below, rest = child :: below := by
        intro child hpath
        obtain ⟨below, hbelow, _⟩ := mem_leaves.mp hpath
        rw [List.append_assoc] at hbelow
        exact ⟨below, (List.cons.inj (List.append_cancel_left hbelow)).2⟩
      cases rest with
      | nil =>
        rw [List.count_eq_zero.mpr]
        · exact Nat.zero_le _
        · intro hpath
          obtain ⟨child, _, hpath⟩ := List.mem_flatMap.mp hpath
          obtain ⟨below, hbelow⟩ := hmem child hpath
          cases hbelow
      | cons child rest =>
        have hbelow : (leaves tree fuel (before ++ [here]) child).count (before ++ here :: child :: rest) ≤
            (rest.map mult).prod := by
          have hchild : (leaves tree fuel (before ++ [here]) child).count (before ++ [here] ++ child :: rest) ≤
              (rest.map mult).prod := ih
          rwa [List.append_assoc] at hchild
        -- only the children equal to the next node hold the path
        have hsum : ∀ children : List β, (children.flatMap (leaves tree fuel (before ++ [here]))).count
            (before ++ here :: child :: rest) ≤ children.count child * (rest.map mult).prod := by
          intro children
          induction children with
          | nil => simp
          | cons head tail ihtail =>
            rw [List.flatMap_cons, List.count_append, List.count_cons]
            by_cases hhead : head = child
            · subst hhead
              rw [beq_self_eq_true, if_pos rfl, Nat.add_mul, Nat.one_mul, Nat.add_comm]
              exact Nat.add_le_add ihtail hbelow
            · have hzero : (leaves tree fuel (before ++ [here]) head).count (before ++ here :: child :: rest) = 0 := by
                refine List.count_eq_zero.mpr fun hpath => ?_
                obtain ⟨below, hcons⟩ := hmem head hpath
                exact hhead (List.cons.inj hcons).1.symm
              rw [hzero, Nat.zero_add, if_neg (by simpa using hhead), Nat.add_zero]
              exact ihtail
        rw [List.map_cons, List.prod_cons]
        exact Nat.le_trans (hsum _) (Nat.mul_le_mul_right _ (hchildren before here child))

end count

end bounds

end backtrack
