import Mathlib.Algebra.GroupWithZero.Nat
import Mathlib.Logic.Relation
import Cgx.Lib.SortBy

open sorting Relation

namespace tarjan

variable {α : Type}

/-- A frame of the explicit search stack: a node and its successors still to visit. -/
structure Frame (α : Type) where
  v : α
  rest : List α

/-- The state of the search. The heads of the lists are the tops of the stacks; the
components stand in the order they are emitted. -/
structure State (α : Type) where
  idx : α → Option Nat
  low : α → Nat
  on_stack : α → Bool
  tarjan_stack : List α
  next_index : Nat
  sccs : List (List α)
  call_stack : List (Frame α)

/-- Nothing is visited. -/
def State.start : State α :=
  ⟨fun _ => none, fun _ => 0, fun _ => false, [], 0, [], []⟩

/-- The number of a node, in the order of the visits. -/
def State.num (s : State α) (v : α) : Nat :=
  (s.idx v).getD 0

variable [DecidableEq α]

/-- Visit `w`: number it and push its frame. -/
def enter (adj : α → List α) (w : α) (s : State α) : State α :=
  { s with
    idx := Function.update s.idx w (some s.next_index)
    low := Function.update s.low w s.next_index
    on_stack := Function.update s.on_stack w true
    tarjan_stack := w :: s.tarjan_stack
    next_index := s.next_index + 1
    call_stack := ⟨w, adj w⟩ :: s.call_stack }

/-- Pop a stack up to and including `v`. -/
def pop_until (v : α) : List α → List α × List α
  | [] => ([], [])
  | w :: rest => if w = v then ([w], rest) else (w :: (pop_until v rest).1, (pop_until v rest).2)

/-- Emit the component of a root `v`. -/
def emit (cmp : α → α → Ordering) (v : α) (s : State α) : State α :=
  let popped := pop_until v s.tarjan_stack
  { s with
    on_stack := fun u => if u ∈ popped.1 then false else s.on_stack u
    tarjan_stack := popped.2
    sccs := s.sccs ++ [sort_by cmp popped.1] }

/-- Leave `v`: drop its frame and relax its parent's low-link with its own. -/
def leave (v : α) (frames : List (Frame α)) (s : State α) : State α :=
  { s with
    call_stack := frames
    low := match frames with
      | [] => s.low
      | parent :: _ => Function.update s.low parent.v (min (s.low parent.v) (s.low v)) }

/-- One round of the search. -/
def step (cmp : α → α → Ordering) (adj : α → List α) (s : State α) : Option (State α) :=
  match s.call_stack with
  | [] => none
  | ⟨v, w :: rest⟩ :: frames =>
    let s := { s with call_stack := ⟨v, rest⟩ :: frames }
    match s.idx w with
    | none => some (enter adj w s)
    | some i => some (if s.on_stack w then { s with low := Function.update s.low v (min (s.low v) i) } else s)
  | ⟨v, []⟩ :: frames =>
    some (leave v frames (if s.idx v = some (s.low v) then emit cmp v s else s))

/-- Rounds until the search stack is empty. -/
def drain (cmp : α → α → Ordering) (adj : α → List α) : Nat → State α → State α
  | 0, s => s
  | fuel + 1, s =>
    match step cmp adj s with
    | none => s
    | some s => drain cmp adj fuel s

/-- The rounds a search takes: one for each successor visited and for each frame. -/
def fuel (adj : α → List α) (nodes : List α) : Nat :=
  (nodes.map fun v => (adj v).length + 1).sum

/-- Search from `start`, unless it is visited. -/
def search_from (cmp : α → α → Ordering) (adj : α → List α) (nodes : List α) (s : State α) (start : α) :
    State α :=
  match s.idx start with
  | some _ => s
  | none => drain cmp adj (fuel adj nodes) (enter adj start s)

/-- The strongly connected components of a graph, each after those it points into. -/
def tarjan_sccs (cmp : α → α → Ordering) (nodes : List α) (succ : α → List α) : List (List α) :=
  let adj := fun v => (succ v).filter fun w => w ∈ nodes
  (nodes.foldl (search_from cmp adj nodes) .start).sccs

/-- The edges of a graph. -/
def Edge (adj : α → List α) (x y : α) : Prop :=
  y ∈ adj x

/-- The components of a graph in an order in which no edge leads forwards. -/
structure Condensation (adj : α → List α) (nodes : List α) (sccs : List (List α)) : Prop where
  nodup : sccs.flatten.Nodup
  mem_iff : ∀ v, v ∈ sccs.flatten ↔ v ∈ nodes
  nonempty : ∀ comp ∈ sccs, comp ≠ []
  connected : ∀ comp ∈ sccs, ∀ x ∈ comp, ∀ y ∈ comp, ReflTransGen (Edge adj) x y
  ordered : ∀ before comp after, sccs = before ++ comp :: after →
    ∀ x ∈ comp, ∀ w ∈ adj x, w ∈ before.flatten ∨ w ∈ comp

section pop_until

variable {v : α} {stack : List α}

theorem pop_until_append (h : v ∈ stack) :
    (pop_until v stack).1 ++ (pop_until v stack).2 = stack := by
  induction stack with
  | nil => simp at h
  | cons w rest ih =>
    simp only [pop_until]
    split
    · rfl
    · rename_i hne
      have hrest := ih ((List.mem_cons.mp h).resolve_left (Ne.symm hne))
      simp [hrest]

theorem mem_pop_until (h : v ∈ stack) : v ∈ (pop_until v stack).1 := by
  induction stack with
  | nil => simp at h
  | cons w rest ih =>
    simp only [pop_until]
    split
    · rename_i heq
      simp [heq]
    · rename_i hne
      exact List.mem_cons_of_mem w (ih ((List.mem_cons.mp h).resolve_left (Ne.symm hne)))

variable {num : α → Nat}

/-- On a stack in descending order, what is popped is numbered from `v` on. -/
theorem mem_pop_until_iff (hsorted : stack.Pairwise fun a b => num b < num a) (h : v ∈ stack) {x : α} :
    x ∈ (pop_until v stack).1 ↔ x ∈ stack ∧ num v ≤ num x := by
  induction stack with
  | nil => simp at h
  | cons w rest ih =>
    obtain ⟨hhead, htail⟩ := List.pairwise_cons.mp hsorted
    simp only [pop_until]
    split
    · rename_i heq
      subst heq
      constructor
      · intro hx
        obtain rfl := List.mem_singleton.mp hx
        exact ⟨List.mem_cons_self, le_refl _⟩
      · rintro ⟨hx, hle⟩
        obtain rfl | hx := List.mem_cons.mp hx
        · exact List.mem_singleton_self _
        · have hlt := hhead x hx
          omega
    · rename_i hne
      have hv : v ∈ rest := (List.mem_cons.mp h).resolve_left (Ne.symm hne)
      have hvw := hhead v hv
      rw [List.mem_cons, List.mem_cons, ih htail hv]
      constructor
      · rintro (rfl | ⟨hx, hle⟩)
        · exact ⟨.inl rfl, le_of_lt hvw⟩
        · exact ⟨.inr hx, hle⟩
      · rintro ⟨rfl | hx, hle⟩
        · exact .inl rfl
        · exact .inr ⟨hx, hle⟩

/-- What is left is numbered before `v`. -/
theorem mem_left_iff (hsorted : stack.Pairwise fun a b => num b < num a) (h : v ∈ stack) {x : α} :
    x ∈ (pop_until v stack).2 ↔ x ∈ stack ∧ num x < num v := by
  have happend := pop_until_append h
  have hcross : ∀ a ∈ (pop_until v stack).1, ∀ b ∈ (pop_until v stack).2, num b < num a := by
    rw [← happend, List.pairwise_append] at hsorted
    exact hsorted.2.2
  constructor
  · intro hx
    refine ⟨?_, hcross v (mem_pop_until h) x hx⟩
    rw [← happend]
    exact List.mem_append_right _ hx
  · rintro ⟨hx, hlt⟩
    rw [← happend] at hx
    refine (List.mem_append.mp hx).resolve_left fun hpopped => ?_
    have hle := ((mem_pop_until_iff hsorted h).mp hpopped).2
    omega

end pop_until

/-- What the search keeps: the visited nodes are those on the stack and those emitted, a
frame reaches what is stacked above it, and low-links point down the stack. The pending
edge, if any, is the one being looked at. -/
structure Inv (adj : α → List α) (nodes : List α) (pending : Option (α × α)) (s : State α) : Prop where
  num_lt : ∀ v i, s.idx v = some i → i < s.next_index
  num_inj : ∀ u v i, s.idx u = some i → s.idx v = some i → u = v
  stack_sorted : s.tarjan_stack.Pairwise fun a b => s.num b < s.num a
  on_stack_iff : ∀ v, s.on_stack v = true ↔ v ∈ s.tarjan_stack
  visited_iff : ∀ v, (s.idx v).isSome ↔ v ∈ s.tarjan_stack ∨ v ∈ s.sccs.flatten
  apart : ∀ v ∈ s.tarjan_stack, v ∉ s.sccs.flatten
  visited_nodes : ∀ v, (s.idx v).isSome → v ∈ nodes
  nodup : s.sccs.flatten.Nodup
  nonempty : ∀ comp ∈ s.sccs, comp ≠ []
  connected : ∀ comp ∈ s.sccs, ∀ x ∈ comp, ∀ y ∈ comp, ReflTransGen (Edge adj) x y
  ordered : ∀ before comp after, s.sccs = before ++ comp :: after →
    ∀ x ∈ comp, ∀ w ∈ adj x, w ∈ before.flatten ∨ w ∈ comp
  frame_stacked : ∀ f ∈ s.call_stack, f.v ∈ s.tarjan_stack
  frames_sorted : s.call_stack.Pairwise fun f g => s.num g.v < s.num f.v
  owned : ∀ x ∈ s.tarjan_stack, ∃ f ∈ s.call_stack, s.num f.v ≤ s.num x
  reaches : ∀ f ∈ s.call_stack, ∀ x ∈ s.tarjan_stack, s.num f.v ≤ s.num x →
    ReflTransGen (Edge adj) f.v x
  rest_subset : ∀ f ∈ s.call_stack, ∀ w ∈ f.rest, w ∈ adj f.v
  examined : ∀ x, (s.idx x).isSome → ∀ w ∈ adj x,
    (s.idx w).isSome ∨ pending = some (x, w) ∨ ∃ f ∈ s.call_stack, f.v = x ∧ w ∈ f.rest
  low_le : ∀ x ∈ s.tarjan_stack, s.low x ≤ s.num x
  low_path : ∀ x ∈ s.tarjan_stack, ∃ w ∈ s.tarjan_stack, s.num w = s.low x ∧ ReflTransGen (Edge adj) x w
  low_lt : ∀ x ∈ s.tarjan_stack, (∀ f ∈ s.call_stack, f.v ≠ x) → s.low x < s.num x
  -- an edge looked at is accounted for by the last frame below its source
  low_bound : ∀ f ∈ s.call_stack, ∀ x ∈ s.tarjan_stack, s.num f.v ≤ s.num x →
    (∀ g ∈ s.call_stack, s.num g.v ≤ s.num x → s.num g.v ≤ s.num f.v) →
      ∀ w ∈ adj x, w ∈ s.tarjan_stack → pending ≠ some (x, w) →
        (∀ g ∈ s.call_stack, g.v = x → w ∉ g.rest) → s.low f.v ≤ s.num w

section invariant

variable {adj : α → List α} {nodes : List α} {s : State α} {cmp : α → α → Ordering}
  {pending : Option (α × α)} {v w : α} {rest : List α} {frames : List (Frame α)}

omit [DecidableEq α] in
theorem inv_start : Inv adj nodes none (State.start : State α) := by
  constructor <;> simp [State.start]

namespace Inv

omit [DecidableEq α] in
theorem idx_of_stacked (h : Inv adj nodes pending s) (hv : v ∈ s.tarjan_stack) :
    s.idx v = some (s.num v) := by
  obtain ⟨i, hi⟩ := Option.isSome_iff_exists.mp ((h.visited_iff v).mpr (.inl hv))
  simp [State.num, hi]

omit [DecidableEq α] in
theorem num_lt_next (h : Inv adj nodes pending s) (hv : v ∈ s.tarjan_stack) :
    s.num v < s.next_index :=
  h.num_lt v _ (h.idx_of_stacked hv)

omit [DecidableEq α] in
theorem eq_of_num_eq (h : Inv adj nodes pending s) (hv : v ∈ s.tarjan_stack) (hw : w ∈ s.tarjan_stack)
    (heq : s.num v = s.num w) : v = w :=
  h.num_inj v w _ (h.idx_of_stacked hv) (heq ▸ h.idx_of_stacked hw)

omit [DecidableEq α] in
/-- The top frame is numbered last. -/
theorem top_sorted (h : Inv adj nodes pending s) (hstack : s.call_stack = ⟨v, rest⟩ :: frames) :
    ∀ f ∈ frames, s.num f.v < s.num v := by
  have hsorted := h.frames_sorted
  rw [hstack, List.pairwise_cons] at hsorted
  exact hsorted.1

omit [DecidableEq α] in
theorem stack_nodup (h : Inv adj nodes pending s) : s.tarjan_stack.Nodup :=
  h.stack_sorted.imp fun hlt heq => by
    subst heq
    exact lt_irrefl _ hlt

omit [DecidableEq α] in
/-- The cursor of the top frame moves on: its next edge is pending. -/
theorem advance (h : Inv adj nodes none s) (hstack : s.call_stack = ⟨v, w :: rest⟩ :: frames) :
    Inv adj nodes (some (v, w)) { s with call_stack := ⟨v, rest⟩ :: frames } := by
  have hold : ∀ f ∈ (⟨v, rest⟩ :: frames : List (Frame α)), ∃ g ∈ s.call_stack, g.v = f.v ∧ f.rest ⊆ g.rest := by
    intro f hf
    rw [hstack]
    obtain rfl | hf := List.mem_cons.mp hf
    · exact ⟨_, List.mem_cons_self, rfl, List.subset_cons_self w rest⟩
    · exact ⟨f, List.mem_cons_of_mem _ hf, rfl, List.Subset.refl _⟩
  have hnew : ∀ g ∈ s.call_stack, ∃ f ∈ (⟨v, rest⟩ :: frames : List (Frame α)), f.v = g.v ∧
      ∀ u ∈ g.rest, (g.v, u) = (v, w) ∨ u ∈ f.rest := by
    intro g hg
    rw [hstack] at hg
    obtain rfl | hg := List.mem_cons.mp hg
    · refine ⟨_, List.mem_cons_self, rfl, fun u hu => ?_⟩
      exact (List.mem_cons.mp hu).imp (fun heq => by rw [heq]) id
    · exact ⟨g, List.mem_cons_of_mem _ hg, rfl, fun u hu => .inr hu⟩
  refine { h with
    frame_stacked := ?_
    frames_sorted := ?_
    owned := ?_
    reaches := ?_
    rest_subset := ?_
    examined := ?_
    low_lt := ?_
    low_bound := ?_ }
  · intro f hf
    obtain ⟨g, hg, hv, _⟩ := hold f hf
    exact hv ▸ h.frame_stacked g hg
  · have hsorted := h.frames_sorted
    rw [hstack] at hsorted
    exact List.pairwise_cons.mpr (List.pairwise_cons.mp hsorted)
  · intro x hx
    obtain ⟨g, hg, hle⟩ := h.owned x hx
    obtain ⟨f, hf, hv, _⟩ := hnew g hg
    exact ⟨f, hf, hv ▸ hle⟩
  · intro f hf x hx hle
    obtain ⟨g, hg, hv, _⟩ := hold f hf
    rw [← hv]
    exact h.reaches g hg x hx (hv ▸ hle)
  · intro f hf u hu
    obtain ⟨g, hg, hv, hsub⟩ := hold f hf
    rw [← hv]
    exact h.rest_subset g hg u (hsub hu)
  · intro x hx u hu
    obtain hvisited | hpending | ⟨g, hg, rfl, hrest⟩ := h.examined x hx u hu
    · exact .inl hvisited
    · simp at hpending
    · obtain ⟨f, hf, hv, hsplit⟩ := hnew g hg
      obtain heq | hmem := hsplit u hrest
      · exact .inr (.inl (congrArg some heq.symm))
      · exact .inr (.inr ⟨f, hf, hv, hmem⟩)
  · intro x hx hframes
    refine h.low_lt x hx fun g hg => ?_
    obtain ⟨f, hf, hv, _⟩ := hnew g hg
    exact hv ▸ hframes f hf
  · intro f hf x hx hle hlast u hu hstacked hpending hlooked
    obtain ⟨g, hg, hv, _⟩ := hold f hf
    have hbound := h.low_bound g hg x hx (hv ▸ hle)
    rw [hv] at hbound
    refine hbound ?_ u hu hstacked (by simp) ?_
    · intro g' hg' hle'
      obtain ⟨f', hf', hv', _⟩ := hnew g' hg'
      rw [← hv'] at hle' ⊢
      exact hlast f' hf' hle'
    · intro g' hg' hgx hmem
      obtain ⟨f', hf', hv', hsplit⟩ := hnew g' hg'
      obtain heq | hmem' := hsplit u hmem
      · exact hpending (by rw [← hgx, heq])
      · exact hlooked f' hf' (hv'.trans hgx) hmem'

/-- An unvisited node is visited. -/
theorem enter (h : Inv adj nodes pending s) (hunvisited : s.idx w = none) (hw : w ∈ nodes)
    (hpending : ∀ x y, pending = some (x, y) → y = w)
    (hreach : ∀ f ∈ s.call_stack, ReflTransGen (Edge adj) f.v w) :
    Inv adj nodes none (tarjan.enter adj w s) := by
  have hfresh : w ∉ s.tarjan_stack := by
    intro hmem
    simp [h.idx_of_stacked hmem] at hunvisited
  have hfresh' : w ∉ s.sccs.flatten := by
    intro hmem
    have hsome := (h.visited_iff w).mpr (.inr hmem)
    simp [hunvisited] at hsome
  have hne : ∀ u ∈ s.tarjan_stack, u ≠ w := fun u hu heq => hfresh (heq ▸ hu)
  have hnum : ∀ u ∈ s.tarjan_stack, (tarjan.enter adj w s).num u = s.num u := by
    intro u hu
    simp [State.num, tarjan.enter, Function.update_of_ne (hne u hu)]
  have hnum_w : (tarjan.enter adj w s).num w = s.next_index := by
    simp [State.num, tarjan.enter]
  have hlow : ∀ u ∈ s.tarjan_stack, (tarjan.enter adj w s).low u = s.low u := by
    intro u hu
    simp [tarjan.enter, Function.update_of_ne (hne u hu)]
  have hlow_w : (tarjan.enter adj w s).low w = s.next_index := by
    simp [tarjan.enter]
  have hframe : ∀ f ∈ s.call_stack, f.v ∈ s.tarjan_stack := h.frame_stacked
  have hlast : ∀ u ∈ s.tarjan_stack, (tarjan.enter adj w s).num u < (tarjan.enter adj w s).num w := by
    intro u hu
    rw [hnum u hu, hnum_w]
    exact h.num_lt_next hu
  have hvisited : ∀ u, ((tarjan.enter adj w s).idx u).isSome ↔ u = w ∨ (s.idx u).isSome := by
    intro u
    by_cases heq : u = w
    · simp [tarjan.enter, heq]
    · simp [tarjan.enter, heq]
  have hcall : ∀ f ∈ (tarjan.enter adj w s).call_stack, f = ⟨w, adj w⟩ ∨ f ∈ s.call_stack :=
    fun f hf => List.mem_cons.mp hf
  have hstack : ∀ u ∈ (tarjan.enter adj w s).tarjan_stack, u = w ∨ u ∈ s.tarjan_stack :=
    fun u hu => List.mem_cons.mp hu
  refine { h with
    num_lt := ?_
    num_inj := ?_
    stack_sorted := ?_
    on_stack_iff := ?_
    visited_iff := ?_
    apart := ?_
    visited_nodes := ?_
    frame_stacked := ?_
    frames_sorted := ?_
    owned := ?_
    reaches := ?_
    rest_subset := ?_
    examined := ?_
    low_le := ?_
    low_path := ?_
    low_lt := ?_
    low_bound := ?_ }
  · intro u i hi
    by_cases heq : u = w
    · subst heq
      simp only [tarjan.enter, Function.update_self, Option.some.injEq] at hi ⊢
      omega
    · simp only [tarjan.enter, Function.update_of_ne heq] at hi ⊢
      exact Nat.lt_succ_of_lt (h.num_lt u i hi)
  · intro u u' i hu hu'
    by_cases heq : u = w
    · by_cases heq' : u' = w
      · rw [heq, heq']
      · simp only [tarjan.enter, heq, Function.update_self, Function.update_of_ne heq', Option.some.injEq] at hu hu'
        have hlt := h.num_lt u' i hu'
        omega
    · by_cases heq' : u' = w
      · simp only [tarjan.enter, heq', Function.update_self, Function.update_of_ne heq, Option.some.injEq] at hu hu'
        have hlt := h.num_lt u i hu
        omega
      · simp only [tarjan.enter, Function.update_of_ne heq, Function.update_of_ne heq'] at hu hu'
        exact h.num_inj u u' i hu hu'
  · refine List.pairwise_cons.mpr ⟨hlast, h.stack_sorted.imp_of_mem fun ha hb hlt => ?_⟩
    rw [hnum _ ha, hnum _ hb]
    exact hlt
  · intro u
    by_cases heq : u = w
    · simp [tarjan.enter, heq]
    · simp [tarjan.enter, heq, h.on_stack_iff]
  · intro u
    rw [hvisited, h.visited_iff, tarjan.enter, List.mem_cons, or_assoc]
  · intro u hu
    obtain rfl | hu := hstack u hu
    · exact hfresh'
    · exact h.apart u hu
  · intro u hu
    obtain rfl | hu := (hvisited u).mp hu
    · exact hw
    · exact h.visited_nodes u hu
  · intro f hf
    obtain rfl | hf := hcall f hf
    · exact List.mem_cons_self
    · exact List.mem_cons_of_mem w (hframe f hf)
  · refine List.pairwise_cons.mpr ⟨fun g hg => hlast g.v (hframe g hg), ?_⟩
    refine h.frames_sorted.imp_of_mem fun hf hg hlt => ?_
    rw [hnum _ (hframe _ hf), hnum _ (hframe _ hg)]
    exact hlt
  · intro x hx
    obtain rfl | hx := hstack x hx
    · exact ⟨_, List.mem_cons_self, le_refl _⟩
    · obtain ⟨f, hf, hle⟩ := h.owned x hx
      refine ⟨f, List.mem_cons_of_mem _ hf, ?_⟩
      rw [hnum x hx, hnum f.v (hframe f hf)]
      exact hle
  · intro f hf x hx hle
    obtain rfl | hx := hstack x hx
    · obtain rfl | hf := hcall f hf
      · exact .refl
      · exact hreach f hf
    · obtain rfl | hf := hcall f hf
      · exact absurd hle (not_le_of_gt (hlast x hx))
      · rw [hnum x hx, hnum f.v (hframe f hf)] at hle
        exact h.reaches f hf x hx hle
  · intro f hf u hu
    obtain rfl | hf := hcall f hf
    · exact hu
    · exact h.rest_subset f hf u hu
  · intro x hx u hu
    obtain rfl | hx := (hvisited x).mp hx
    · exact .inr (.inr ⟨_, List.mem_cons_self, rfl, hu⟩)
    · obtain hu | hedge | ⟨f, hf, hrest⟩ := h.examined x hx u hu
      · exact .inl ((hvisited u).mpr (.inr hu))
      · exact .inl ((hvisited u).mpr (.inl (hpending x u hedge)))
      · exact .inr (.inr ⟨f, List.mem_cons_of_mem _ hf, hrest⟩)
  · intro x hx
    obtain rfl | hx := hstack x hx
    · rw [hnum_w, hlow_w]
    · rw [hnum x hx, hlow x hx]
      exact h.low_le x hx
  · intro x hx
    obtain rfl | hx := hstack x hx
    · exact ⟨x, List.mem_cons_self, by rw [hnum_w, hlow_w], .refl⟩
    · obtain ⟨u, hu, hnum_u, hpath⟩ := h.low_path x hx
      refine ⟨u, List.mem_cons_of_mem w hu, ?_, hpath⟩
      rw [hnum u hu, hlow x hx, hnum_u]
  · intro x hx hframes
    obtain rfl | hx := hstack x hx
    · exact absurd rfl (hframes _ List.mem_cons_self)
    · rw [hnum x hx, hlow x hx]
      exact h.low_lt x hx fun f hf => hframes f (List.mem_cons_of_mem _ hf)
  · intro f hf x hx hle hown u hu hstacked _ hlooked
    obtain rfl | hxold := hstack x hx
    · exact absurd hu (hlooked _ List.mem_cons_self rfl)
    · obtain rfl | hfold := hcall f hf
      · exact absurd hle (not_le_of_gt (hlast x hxold))
      · rw [hlow f.v (hframe f hfold)]
        obtain rfl | hold := hstack u hstacked
        · -- the new node is numbered after every low-link
          have hlow_f := h.low_le f.v (hframe f hfold)
          have hlt := h.num_lt_next (hframe f hfold)
          omega
        · rw [hnum u hold]
          rw [hnum x hxold, hnum f.v (hframe f hfold)] at hle
          refine h.low_bound f hfold x hxold hle ?_ u hu hold ?_ ?_
          · intro g hg hle'
            have hlast_f := hown g (List.mem_cons_of_mem _ hg)
            rw [hnum x hxold, hnum g.v (hframe g hg), hnum f.v (hframe f hfold)] at hlast_f
            exact hlast_f hle'
          · intro hedge
            exact hne u hold (hpending x u hedge)
          · exact fun g hg hgx => hlooked g (List.mem_cons_of_mem _ hg) hgx

omit [DecidableEq α] in
/-- The pending edge leads to an emitted node. -/
theorem skip (h : Inv adj nodes (some (v, w)) s) (hvisited : (s.idx w).isSome)
    (hemitted : w ∉ s.tarjan_stack) : Inv adj nodes none s := by
  refine { h with examined := ?_, low_bound := ?_ }
  · intro x hx u hu
    obtain hu | hedge | hrest := h.examined x hx u hu
    · exact .inl hu
    · cases hedge
      exact .inl hvisited
    · exact .inr (.inr hrest)
  · intro f hf x hx hle hown u hu hstacked _ hlooked
    refine h.low_bound f hf x hx hle hown u hu hstacked ?_ hlooked
    intro hedge
    cases hedge
    exact hemitted hstacked

/-- The pending edge leads down the stack: the top frame's low-link is lowered. -/
theorem relax (h : Inv adj nodes (some (v, w)) s) (hstack : s.call_stack = ⟨v, rest⟩ :: frames)
    (hedge : w ∈ adj v) (hw : w ∈ s.tarjan_stack) :
    Inv adj nodes none { s with low := Function.update s.low v (min (s.low v) (s.num w)) } := by
  have hv : v ∈ s.tarjan_stack := h.frame_stacked ⟨v, rest⟩ (hstack ▸ List.mem_cons_self)
  have hle : ∀ u, Function.update s.low v (min (s.low v) (s.num w)) u ≤ s.low u := by
    intro u
    by_cases heq : u = v
    · subst heq
      simp
    · rw [Function.update_of_ne heq]
  refine { h with
    examined := ?_
    low_le := ?_
    low_path := ?_
    low_lt := ?_
    low_bound := ?_ }
  · intro x hx u hu
    obtain hu | hpending | hrest := h.examined x hx u hu
    · exact .inl hu
    · cases hpending
      exact .inl ((h.visited_iff w).mpr (.inl hw))
    · exact .inr (.inr hrest)
  · exact fun x hx => (hle x).trans (h.low_le x hx)
  · intro x hx
    by_cases heq : x = v
    · subst heq
      simp only [Function.update_self]
      obtain hmin | hmin := Nat.le_total (s.low x) (s.num w)
      · rw [Nat.min_eq_left hmin]
        exact h.low_path x hx
      · rw [Nat.min_eq_right hmin]
        exact ⟨w, hw, rfl, .single hedge⟩
    · simp only [Function.update_of_ne heq]
      exact h.low_path x hx
  · exact fun x hx hframes => (hle x).trans_lt (h.low_lt x hx hframes)
  · intro f hf x hx hbelow hown u hu hstacked _ hlooked
    by_cases hpending : some (v, w) = some (x, u)
    · cases hpending
      -- `v` is a frame itself, so it is the last frame below its edges
      have hfv : f.v = v := by
        have hge := hown ⟨v, rest⟩ (hstack ▸ List.mem_cons_self) (le_refl _)
        exact h.eq_of_num_eq (h.frame_stacked f hf) hv (le_antisymm hbelow hge)
      rw [hfv]
      simp only [Function.update_self]
      exact min_le_right _ _
    · exact (hle f.v).trans (h.low_bound f hf x hx hbelow hown u hu hstacked hpending hlooked)

end Inv

end invariant

end tarjan
