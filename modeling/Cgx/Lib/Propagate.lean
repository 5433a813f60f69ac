import Mathlib.Algebra.BigOperators.Group.Finset.Basic
import Mathlib.Algebra.Order.BigOperators.Group.Finset
import Mathlib.Data.Finset.Lattice.Union
import Mathlib.Logic.Relation

/-!
# Joining along edges until nothing changes

Every node has a value in a join semilattice, and an edge joins the value of its source
into its target, in place. Passes over the edges end after finitely many rounds, whatever
the lattice, because the set of nodes that have reached a node can only grow; then each
node has the join of the first values of the nodes it is reachable from.
-/

namespace propagate

open Function Relation

variable {ι α β : Type} [DecidableEq ι] [SemilatticeSup α] [SemilatticeSup β]

/-- Join the source of an edge into its target. -/
def relax (s : ι → α) (e : ι × ι) : ι → α :=
  update s e.2 (s e.2 ⊔ s e.1)

/-- One pass over the edges, each seeing what those in front of it did. -/
def pass (edges : List (ι × ι)) (s : ι → α) : ι → α :=
  edges.foldl relax s

/-- The values after `n` passes. -/
def passes (edges : List (ι × ι)) (s : ι → α) : Nat → ι → α
  | 0 => s
  | n + 1 => pass edges (passes edges s n)

variable {edges : List (ι × ι)} {s : ι → α}

theorem relax_eq_self_iff {e : ι × ι} : relax s e = s ↔ s e.1 ≤ s e.2 := by
  rw [relax, update_eq_iff]
  constructor
  · rintro ⟨heq, _⟩
    exact sup_eq_left.mp heq
  · intro h
    exact ⟨sup_eq_left.mpr h, fun _ _ => rfl⟩

theorem le_relax (s : ι → α) (e : ι × ι) : s ≤ relax s e := by
  intro k
  rw [relax]
  by_cases hk : k = e.2
  · rw [hk, update_self]
    exact le_sup_left
  · rw [update_of_ne hk]

theorem le_pass (edges : List (ι × ι)) (s : ι → α) : s ≤ pass edges s := by
  induction edges generalizing s with
  | nil => exact le_rfl
  | cons e rest ih => exact (le_relax s e).trans (ih (relax s e))

/-- A pass changes nothing when no edge would. -/
theorem pass_eq_self_iff : pass edges s = s ↔ ∀ e ∈ edges, s e.1 ≤ s e.2 := by
  induction edges with
  | nil => simp [pass]
  | cons e rest ih =>
    rw [List.forall_mem_cons, ← ih, ← relax_eq_self_iff (s := s)]
    constructor
    · intro h
      have hfirst : relax s e = s := le_antisymm ((le_pass rest (relax s e)).trans_eq h) (le_relax s e)
      refine ⟨hfirst, ?_⟩
      rw [pass, List.foldl_cons, hfirst] at h
      exact h
    · rintro ⟨hfirst, hrest⟩
      rw [pass, List.foldl_cons, hfirst]
      exact hrest

/-! ### The nodes that have reached a node -/

/-- A map that keeps joins carries passes to passes. -/
theorem pass_map {h : β → α} (hsup : ∀ x y, h (x ⊔ y) = h x ⊔ h y) (edges : List (ι × ι)) (s : ι → β) :
    pass edges (h ∘ s) = h ∘ pass edges s := by
  induction edges generalizing s with
  | nil => rfl
  | cons e rest ih =>
    have hfirst : relax (h ∘ s) e = h ∘ relax s e := by
      rw [relax, relax, comp_update, hsup]
      rfl
    rw [pass, List.foldl_cons, hfirst]
    exact ih (relax s e)

theorem passes_map {h : β → α} (hsup : ∀ x y, h (x ⊔ y) = h x ⊔ h y) (edges : List (ι × ι)) (s : ι → β) (n : Nat) :
    passes edges (h ∘ s) n = h ∘ passes edges s n := by
  induction n with
  | zero => rfl
  | succ n ih => rw [passes, ih, pass_map hsup, passes]

/-- An edge of the list leads from `x` to `y`. -/
def Edge (edges : List (ι × ι)) (x y : ι) : Prop :=
  (x, y) ∈ edges

/-- The nodes that have reached each node after `n` passes. -/
def origins (edges : List (ι × ι)) (n : Nat) : ι → Finset ι :=
  passes edges (fun k => {k}) n

theorem pass_sound {P : ι → ι → Prop} (hP : ∀ {i x y}, (x, y) ∈ edges → P i x → P i y) {S : ι → Finset ι}
    (hS : ∀ k, ∀ i ∈ S k, P i k) : ∀ k, ∀ i ∈ pass edges S k, P i k := by
  induction edges generalizing S with
  | nil => exact hS
  | cons e rest ih =>
    apply ih (fun he => hP (List.mem_cons_of_mem e he))
    intro k i hi
    rw [relax] at hi
    by_cases hk : k = e.2
    · subst hk
      rw [update_self, Finset.sup_eq_union, Finset.mem_union] at hi
      obtain htarget | hsource := hi
      · exact hS _ i htarget
      · exact hP List.mem_cons_self (hS _ i hsource)
    · rw [update_of_ne hk] at hi
      exact hS k i hi

theorem origins_sound (n : Nat) : ∀ k, ∀ i ∈ origins edges n k, ReflTransGen (Edge edges) i k := by
  induction n with
  | zero =>
    intro k i hi
    rw [Finset.mem_singleton.mp hi]
  | succ n ih => exact pass_sound (fun he hreach => hreach.tail he) ih

theorem mem_origins_self (n : Nat) (k : ι) : k ∈ origins edges n k := by
  induction n with
  | zero => exact Finset.mem_singleton_self k
  | succ n ih => exact le_pass edges (origins edges n) k ih

/-- Once a pass changes nothing, exactly the nodes from which a node is reachable have
reached it. -/
theorem mem_origins_iff {n : Nat} (hdone : pass edges (origins edges n) = origins edges n) {i k : ι} :
    i ∈ origins edges n k ↔ ReflTransGen (Edge edges) i k := by
  constructor
  · exact origins_sound n k i
  · intro hreach
    induction hreach with
    | refl => exact mem_origins_self n i
    | tail _ hedge ih => exact pass_eq_self_iff.mp hdone _ hedge ih

/-! ### The passes end -/

/-- The nodes at the ends of the edges. -/
def ends (edges : List (ι × ι)) : Finset ι :=
  (edges.map Prod.fst ++ edges.map Prod.snd).toFinset

theorem ends_of_mem {e : ι × ι} (he : e ∈ edges) : e.1 ∈ ends edges ∧ e.2 ∈ ends edges := by
  simp only [ends, List.mem_toFinset, List.mem_append]
  exact ⟨.inl (List.mem_map_of_mem he), .inr (List.mem_map_of_mem he)⟩

/-- How many reachings there are among the ends of the edges. -/
def reached (edges : List (ι × ι)) (S : ι → Finset ι) : Nat :=
  ∑ k ∈ ends edges, (S k).card

theorem pass_of_not_target {k : ι} (hk : ∀ e ∈ edges, e.2 ≠ k) (s : ι → α) : pass edges s k = s k := by
  induction edges generalizing s with
  | nil => rfl
  | cons e rest ih =>
    rw [pass, List.foldl_cons]
    have hrest : pass rest (relax s e) k = relax s e k := ih (fun e' he' => hk e' (List.mem_cons_of_mem e he')) _
    exact hrest.trans (update_of_ne (hk e List.mem_cons_self).symm _ _)

/-- A pass that changes something makes more nodes reach one another. -/
theorem reached_lt {S : ι → Finset ι} (hchange : pass edges S ≠ S) :
    reached edges S < reached edges (pass edges S) := by
  obtain ⟨k, hk⟩ := ne_iff.mp hchange
  have htarget : k ∈ ends edges := by
    by_contra hnot
    apply hk (pass_of_not_target _ S)
    rintro e he rfl
    exact hnot (ends_of_mem he).2
  apply Finset.sum_lt_sum
  · intro j _
    exact Finset.card_le_card (le_pass edges S j)
  · exact ⟨k, htarget, Finset.card_lt_card (lt_of_le_of_ne (le_pass edges S k) hk.symm)⟩

theorem origins_subset (n : Nat) {k : ι} (hk : k ∈ ends edges) : origins edges n k ⊆ ends edges := by
  intro i hi
  have hreach := origins_sound n k i hi
  induction hreach using ReflTransGen.head_induction_on with
  | refl => exact hk
  | head hedge _ _ => exact (ends_of_mem hedge).1

/-- A number of rounds within which the passes end. -/
def rounds (edges : List (ι × ι)) : Nat :=
  (ends edges).card * (ends edges).card

/-- Some pass among the first `rounds edges + 1` changes nothing. -/
theorem origins_settle (edges : List (ι × ι)) :
    ∃ n ≤ rounds edges, pass edges (origins edges n) = origins edges n := by
  by_contra hnever
  push Not at hnever
  have hgrow : ∀ n ≤ rounds edges + 1, n ≤ reached edges (origins edges n) := by
    intro n
    induction n with
    | zero => exact fun _ => Nat.zero_le _
    | succ n ih =>
      intro hn
      have hlt := reached_lt (hnever n (by omega))
      have hle := ih (by omega)
      have hstep : origins edges (n + 1) = pass edges (origins edges n) := rfl
      rw [hstep]
      omega
  have hle : reached edges (origins edges (rounds edges + 1)) ≤ rounds edges := by
    have hcard : ∀ k ∈ ends edges, (origins edges (rounds edges + 1) k).card ≤ (ends edges).card :=
      fun k hk => Finset.card_le_card (origins_subset _ hk)
    exact (Finset.sum_le_sum hcard).trans_eq (Finset.sum_const_nat fun _ _ => rfl)
  have hge := hgrow (rounds edges + 1) le_rfl
  omega

/-- From a pass that changes nothing on, no pass does. -/
theorem passes_stay {n : Nat} (hdone : pass edges (passes edges s n) = passes edges s n) (m : Nat) :
    passes edges s (n + m) = passes edges s n := by
  induction m with
  | zero => rfl
  | succ m ih => rw [← Nat.add_assoc, passes, ih, hdone]

theorem passes_pass (edges : List (ι × ι)) (s : ι → α) (n : Nat) :
    passes edges (pass edges s) n = passes edges s (n + 1) := by
  induction n with
  | zero => rfl
  | succ n ih =>
    rw [passes, ih]
    rfl

/-! ### What they end with -/

variable [OrderBot α]

/-- A node has the join of the first values of the nodes that have reached it. -/
theorem passes_eq_sup (edges : List (ι × ι)) (s : ι → α) (n : Nat) (k : ι) :
    passes edges s n k = (origins edges n k).sup s := by
  have hfirst : s = (fun S : Finset ι => S.sup s) ∘ fun k => {k} := by
    funext k
    rw [comp_apply, Finset.sup_singleton]
  have hmap := passes_map (h := fun S : Finset ι => S.sup s) (fun _ _ => Finset.sup_union) edges (fun k => {k}) n
  rw [← hfirst] at hmap
  rw [hmap]
  rfl

/-- The passes end. -/
theorem passes_settle (edges : List (ι × ι)) (s : ι → α) :
    ∃ n ≤ rounds edges, pass edges (passes edges s n) = passes edges s n := by
  obtain ⟨n, hn, hdone⟩ := origins_settle edges
  refine ⟨n, hn, ?_⟩
  have hnext : passes edges s (n + 1) = passes edges s n := by
    funext k
    rw [passes_eq_sup, passes_eq_sup]
    exact congrArg (fun S => Finset.sup (S k) s) hdone
  exact hnext

/-- When they have ended, every node has the join of the first values of the nodes it is
reachable from. -/
theorem settled_eq_sup {n : Nat} (hdone : pass edges (passes edges s n) = passes edges s n) :
    ∃ S : ι → Finset ι, (∀ i k, i ∈ S k ↔ ReflTransGen (Edge edges) i k) ∧
      ∀ k, passes edges s n k = (S k).sup s := by
  obtain ⟨m, _, hsettled⟩ := origins_settle edges
  have horigins : origins edges (n + m) = origins edges m := by
    rw [Nat.add_comm]
    exact passes_stay hsettled n
  refine ⟨origins edges m, fun i k => mem_origins_iff hsettled, fun k => ?_⟩
  rw [← horigins, ← passes_eq_sup, passes_stay hdone]

end propagate
