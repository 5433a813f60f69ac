import Mathlib.Data.List.Basic
import Mathlib.Data.Nat.Basic
import Mathlib.Logic.Function.Iterate
import Mathlib.Order.Lattice

namespace walks

variable {α : Type}

/-- A walk of exactly `k` steps of `R`. -/
inductive Walk (R : α → α → Prop) : Nat → α → α → Prop
  | refl (x : α) : Walk R 0 x x
  | snoc {k : Nat} {x y z : α} : Walk R k x y → R y z → Walk R (k + 1) x z

namespace Walk

variable {R S : α → α → Prop}

theorem single {x y : α} (h : R x y) : Walk R 1 x y :=
  .snoc (.refl x) h

theorem append {j k : Nat} {x y z : α} (hxy : Walk R j x y) (hyz : Walk R k y z) :
    Walk R (j + k) x z := by
  induction hyz with
  | refl => exact hxy
  | snoc _ hstep ih => exact .snoc (ih hxy) hstep

theorem cons {k : Nat} {x y z : α} (hstep : R x y) (hyz : Walk R k y z) : Walk R (k + 1) x z := by
  rw [Nat.add_comm]
  exact (single hstep).append hyz

theorem mono (hRS : ∀ x y, R x y → S x y) {k : Nat} {x y : α} (h : Walk R k x y) :
    Walk S k x y := by
  induction h with
  | refl => exact .refl _
  | snoc _ hstep ih => exact .snoc ih (hRS _ _ hstep)

theorem zero_iff {x y : α} : Walk R 0 x y ↔ x = y := by
  constructor
  · intro h
    cases h
    rfl
  · rintro rfl
    exact .refl x

theorem succ_iff {k : Nat} {x z : α} : Walk R (k + 1) x z ↔ ∃ y, Walk R k x y ∧ R y z := by
  constructor
  · intro h
    cases h with
    | snoc hxy hyz => exact ⟨_, hxy, hyz⟩
  · rintro ⟨y, hxy, hyz⟩
    exact .snoc hxy hyz

theorem succ_iff_head {k : Nat} {x z : α} : Walk R (k + 1) x z ↔ ∃ y, R x y ∧ Walk R k y z := by
  constructor
  · intro h
    induction k generalizing z with
    | zero =>
      obtain ⟨y, hxy, hyz⟩ := succ_iff.mp h
      rw [zero_iff] at hxy
      subst hxy
      exact ⟨z, hyz, .refl z⟩
    | succ k ih =>
      obtain ⟨y, hxy, hyz⟩ := succ_iff.mp h
      obtain ⟨w, hxw, hwy⟩ := ih hxy
      exact ⟨w, hxw, .snoc hwy hyz⟩
  · rintro ⟨y, hxy, hyz⟩
    exact cons hxy hyz

/-- A set that holds the start and is closed under the steps holds every end. -/
theorem mem_of_closed {M : α → Prop} (hclosed : ∀ x y, M x → R x y → M y) {k : Nat} {x y : α}
    (h : Walk R k x y) (hx : M x) : M y := by
  induction h with
  | refl => exact hx
  | snoc _ hstep ih => exact hclosed _ _ (ih hx) hstep

/-- A walk that does not stay where it is takes a step. -/
theorem exists_step_of_ne {k : Nat} {x y : α} (h : Walk R k x y) (hne : x ≠ y) :
    ∃ z, R x z := by
  cases k with
  | zero => exact absurd (zero_iff.mp h) hne
  | succ k =>
    obtain ⟨z, hxz, _⟩ := succ_iff_head.mp h
    exact ⟨z, hxz⟩

end Walk

/-- The hop count of the shortest walks from `x` to `y`. -/
def Shortest (R : α → α → Prop) (k : Nat) (x y : α) : Prop :=
  Walk R k x y ∧ ∀ j, Walk R j x y → k ≤ j

theorem Walk.exists_shortest {R : α → α → Prop} {k : Nat} {x y : α} (h : Walk R k x y) :
    ∃ j ≤ k, Shortest R j x y := by
  induction k using Nat.strong_induction_on with
  | _ k ih =>
    by_cases hshorter : ∃ j < k, Walk R j x y
    · obtain ⟨j, hj, hwalk⟩ := hshorter
      obtain ⟨i, hi, hshortest⟩ := ih j hj hwalk
      exact ⟨i, by omega, hshortest⟩
    · refine ⟨k, le_refl k, h, fun j hwalk => ?_⟩
      by_contra hlt
      exact hshorter ⟨j, by omega, hwalk⟩

/-- Whether a hop count is within an optional limit. -/
def within (limit : Option Nat) (k : Nat) : Bool :=
  match limit with
  | none => true
  | some d => k ≤ d

@[simp] theorem within_none (k : Nat) : within none k = true :=
  rfl

@[simp] theorem within_some (d k : Nat) : within (some d) k = true ↔ k ≤ d := by
  simp [within]

theorem within_of_le {limit : Option Nat} {j k : Nat} (hjk : j ≤ k) (hk : within limit k = true) :
    within limit j = true := by
  cases limit with
  | none => rfl
  | some d =>
    rw [within_some] at hk ⊢
    omega

/-- `y` ends a walk from `x` whose hop count is within the limit. -/
def ReachedWithin (R : α → α → Prop) (limit : Option Nat) (x y : α) : Prop :=
  ∃ k, within limit k = true ∧ Walk R k x y

theorem ReachedWithin.mono {R S : α → α → Prop} (hRS : ∀ x y, R x y → S x y) {limit : Option Nat}
    {x y : α} (h : ReachedWithin R limit x y) : ReachedWithin S limit x y := by
  obtain ⟨k, hk, hwalk⟩ := h
  exact ⟨k, hk, hwalk.mono hRS⟩

theorem ReachedWithin.unbounded {R : α → α → Prop} {limit : Option Nat} {x y : α}
    (h : ReachedWithin R limit x y) : ReachedWithin R none x y := by
  obtain ⟨k, _, hwalk⟩ := h
  exact ⟨k, rfl, hwalk⟩

end walks

namespace walks

variable {α : Type}

/-- Depth-layered walk: `next` maps a layer to the nodes one step on, and every layer
from depth `min` on is admitted. It stops after `rounds` layers, or at an empty one. -/
def layers (next : List α → List α) (min : Nat) : Nat → Nat → List α → List α → List α
  | 0, _, _, admitted => admitted
  | rounds + 1, depth, frontier, admitted =>
    if frontier.isEmpty then admitted
    else
      let frontier := next frontier
      layers next min rounds (depth + 1) frontier
        (if min ≤ depth + 1 then admitted ++ frontier else admitted)

/-- The admitted nodes are those some walk from the current layer ends at, by a
number of steps within the rounds left and the floor. -/
theorem mem_layers {next : List α → List α} {R : α → α → Prop}
    (hnext : ∀ layer y, y ∈ next layer ↔ ∃ x ∈ layer, R x y) {min rounds depth : Nat}
    {frontier admitted : List α} {y : α} :
    y ∈ layers next min rounds depth frontier admitted ↔
      y ∈ admitted ∨ ∃ k, 1 ≤ k ∧ k ≤ rounds ∧ min ≤ depth + k ∧ ∃ x ∈ frontier, Walk R k x y := by
  induction rounds generalizing depth frontier admitted with
  | zero =>
    simp only [layers]
    constructor
    · exact .inl
    · intro h
      obtain h | ⟨k, hpos, hle, _⟩ := h
      · exact h
      · omega
  | succ rounds ih =>
    simp only [layers]
    split
    · rename_i hempty
      rw [List.isEmpty_iff] at hempty
      subst hempty
      simp
    · rw [ih]
      constructor
      · intro h
        obtain hadmitted | ⟨k, hpos, hle, hmin, x, hx, hwalk⟩ := h
        · by_cases hmin : min ≤ depth + 1
          · rw [if_pos hmin, List.mem_append] at hadmitted
            obtain hadmitted | hlayer := hadmitted
            · exact .inl hadmitted
            · obtain ⟨x, hx, hstep⟩ := (hnext frontier y).mp hlayer
              exact .inr ⟨1, le_refl 1, by omega, hmin, x, hx, .single hstep⟩
          · rw [if_neg hmin] at hadmitted
            exact .inl hadmitted
        · obtain ⟨w, hw, hstep⟩ := (hnext frontier x).mp hx
          exact .inr ⟨k + 1, by omega, by omega, by omega, w, hw, .cons hstep hwalk⟩
      · intro h
        obtain hadmitted | ⟨k, hpos, hle, hmin, x, hx, hwalk⟩ := h
        · left
          split
          · exact List.mem_append_left _ hadmitted
          · exact hadmitted
        · obtain ⟨k, rfl⟩ : ∃ j, k = j + 1 := ⟨k - 1, by omega⟩
          obtain ⟨w, hstep, hwalk⟩ := Walk.succ_iff_head.mp hwalk
          have hlayer : w ∈ next frontier := (hnext frontier w).mpr ⟨x, hx, hstep⟩
          cases k with
          | zero =>
            left
            rw [Walk.zero_iff] at hwalk
            subst hwalk
            rw [if_pos hmin]
            exact List.mem_append_right _ hlayer
          | succ k => exact .inr ⟨k + 1, by omega, by omega, by omega, w, hlayer, hwalk⟩

end walks

namespace walks

variable {α : Type} {R : α → α → Prop} {limit : Option Nat} {jump : α → α → Prop} {S : α → Prop}

/-- What a walk within the limit leads to from one of the roots `S`. -/
def Near (R : α → α → Prop) (limit : Option Nat) (S : α → Prop) (y : α) : Prop :=
  ∃ r, S r ∧ ReachedWithin R limit r y

/-- The roots of the next round: with the old ones, what a jump leads to from near them
and that is not near them itself. -/
def restart (R : α → α → Prop) (limit : Option Nat) (jump : α → α → Prop) (S : α → Prop) (o : α) : Prop :=
  S o ∨ (∃ x, Near R limit S x ∧ jump x o) ∧ ¬ Near R limit S o

/-- The roots of round `k`. -/
def Roots (R : α → α → Prop) (limit : Option Nat) (jump : α → α → Prop) (S : α → Prop) (k : Nat) :
    α → Prop :=
  (restart R limit jump)^[k] S

/-- The roots of all rounds. -/
def Root (R : α → α → Prop) (limit : Option Nat) (jump : α → α → Prop) (S : α → Prop) (r : α) : Prop :=
  ∃ k, Roots R limit jump S k r

theorem ReachedWithin.refl (x : α) : ReachedWithin R limit x x := by
  refine ⟨0, ?_, .refl x⟩
  cases limit <;> simp

theorem Near.of_root {r : α} (h : S r) : Near R limit S r :=
  ⟨r, h, .refl r⟩

theorem Near.mono {T : α → Prop} {y : α} (hST : ∀ r, S r → T r) (h : Near R limit S y) : Near R limit T y := by
  obtain ⟨r, hr, hwalk⟩ := h
  exact ⟨r, hST r hr, hwalk⟩

/-- Without a limit what is near something near is near. -/
theorem Near.trans {x y : α} (hx : Near R none S x) (hxy : ReachedWithin R none x y) : Near R none S y := by
  obtain ⟨r, hr, j, -, hrx⟩ := hx
  obtain ⟨k, -, hwalk⟩ := hxy
  exact ⟨r, hr, j + k, rfl, hrx.append hwalk⟩

theorem roots_succ (k : Nat) : Roots R limit jump S (k + 1) = restart R limit jump (Roots R limit jump S k) :=
  Function.iterate_succ_apply' _ _ _

/-- A round without new roots is the last. -/
theorem root_iff_of_settled {k : Nat}
    (h : ∀ o, Roots R limit jump S (k + 1) o → Roots R limit jump S k o) {r : α} :
    Root R limit jump S r ↔ Roots R limit jump S k r := by
  have hfixed : restart R limit jump (Roots R limit jump S k) = Roots R limit jump S k := by
    funext o
    rw [eq_iff_iff, ← roots_succ]
    exact ⟨h o, fun ho => by rw [roots_succ]; exact .inl ho⟩
  have hlater : ∀ j, Roots R limit jump S (j + k) = Roots R limit jump S k := by
    intro j
    unfold Roots
    rw [Function.iterate_add_apply]
    exact Function.iterate_fixed hfixed j
  have hgrows : ∀ i j, Roots R limit jump S i r → Roots R limit jump S (i + j) r := by
    intro i j hr
    induction j with
    | zero => exact hr
    | succ j ih =>
      rw [← Nat.add_assoc, roots_succ]
      exact .inl ih
  constructor
  · rintro ⟨i, hi⟩
    rw [← hlater i]
    exact hgrows i k hi
  · exact fun hr => ⟨k, hr⟩

end walks

namespace steps

variable {σ α : Type}

/-- Each step of a fold is taken where `ok` holds of it and of the state before it. -/
def Always (ok : σ → α → Prop) (step : σ → α → σ) : σ → List α → Prop
  | _, [] => True
  | s, a :: l => ok s a ∧ Always ok step (step s a) l

/-- What holds after a step exactly when it held before and the step was `ok` holds
after the fold exactly when it held before and all steps were. `inv` is what the steps
keep of a state and of the steps to come. -/
theorem foldl_iff_always (ok : σ → α → Prop) (step : σ → α → σ) (inv : List α → σ → Prop) (good : σ → Prop)
    (hinv : ∀ s a l, inv (a :: l) s → inv l (step s a))
    (hgood : ∀ s a l, inv (a :: l) s → (good (step s a) ↔ good s ∧ ok s a)) {l : List α} {s : σ}
    (h : inv l s) : inv [] (l.foldl step s) ∧ (good (l.foldl step s) ↔ good s ∧ Always ok step s l) := by
  induction l generalizing s with
  | nil => exact ⟨h, by simp [Always]⟩
  | cons a l ih =>
    obtain ⟨hend, hiff⟩ := ih (hinv s a l h)
    rw [List.foldl_cons]
    refine ⟨hend, ?_⟩
    rw [hiff, hgood s a l h, Always, and_assoc]

end steps
