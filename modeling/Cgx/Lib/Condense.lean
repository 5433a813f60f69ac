import Cgx.Lib.Tarjan

open sorting Relation

namespace tarjan

variable {α : Type} [DecidableEq α] {adj : α → List α} {nodes : List α} {s : State α}
  {cmp : α → α → Ordering} {v w : α} {frames : List (Frame α)}

@[simp] theorem leave_tarjan_stack : (leave v frames s).tarjan_stack = s.tarjan_stack := rfl
@[simp] theorem leave_call_stack : (leave v frames s).call_stack = frames := rfl
@[simp] theorem leave_num (u : α) : (leave v frames s).num u = s.num u := rfl

theorem leave_low_le (u : α) : (leave v frames s).low u ≤ s.low u := by
  cases frames with
  | nil => exact le_refl _
  | cons parent rest =>
    by_cases heq : u = parent.v
    · simp [leave, heq]
    · simp [leave, Function.update_of_ne heq]

/-- The parent's low-link is relaxed with that of the node left. -/
theorem leave_low_parent {parent : Frame α} {rest : List (Frame α)} :
    (leave v (parent :: rest) s).low parent.v = min (s.low parent.v) (s.low v) := by
  simp [leave]

namespace Inv

omit [DecidableEq α] in
/-- The edges of a node of the top frame's tree are all looked at once the frame is done. -/
theorem looked (h : Inv adj nodes none s) (hstack : s.call_stack = ⟨v, []⟩ :: frames) {x : α}
    (hx : x ∈ s.tarjan_stack) (hle : s.num v ≤ s.num x) (hw : w ∈ adj x) :
    (s.idx w).isSome ∧ ∀ g ∈ s.call_stack, g.v = x → w ∉ g.rest := by
  have hnone : ∀ g ∈ s.call_stack, g.v = x → w ∉ g.rest := by
    intro g hg hgx hmem
    rw [hstack] at hg
    obtain rfl | hg := List.mem_cons.mp hg
    · simp at hmem
    · have hlt := h.top_sorted hstack g hg
      rw [hgx] at hlt
      omega
  refine ⟨?_, hnone⟩
  obtain hvisited | hpending | ⟨g, hg, hgx, hmem⟩ :=
    h.examined x ((h.visited_iff x).mpr (.inl hx)) w hw
  · exact hvisited
  · simp at hpending
  · exact absurd hmem (hnone g hg hgx)

/-- A node that is no root stays on the stack, and its low-link is its parent's concern. -/
theorem finish (h : Inv adj nodes none s) (hstack : s.call_stack = ⟨v, []⟩ :: frames)
    (hroot : s.low v ≠ s.num v) : Inv adj nodes none (leave v frames s) := by
  have hv : v ∈ s.tarjan_stack := h.frame_stacked ⟨v, []⟩ (hstack ▸ List.mem_cons_self)
  have hlt : s.low v < s.num v := lt_of_le_of_ne (h.low_le v hv) hroot
  have hsub : ∀ f ∈ frames, f ∈ s.call_stack := fun f hf => hstack ▸ List.mem_cons_of_mem _ hf
  have htop := h.top_sorted hstack
  have hsplit : ∀ f ∈ s.call_stack, f = ⟨v, []⟩ ∨ f ∈ frames :=
    fun f hf => List.mem_cons.mp (hstack ▸ hf)
  have hsorted : frames.Pairwise fun f g => s.num g.v < s.num f.v :=
    (List.pairwise_cons.mp (hstack ▸ h.frames_sorted)).2
  refine { h with
    frame_stacked := fun f hf => h.frame_stacked f (hsub f hf)
    frames_sorted := hsorted
    owned := ?_
    reaches := fun f hf => h.reaches f (hsub f hf)
    rest_subset := fun f hf => h.rest_subset f (hsub f hf)
    examined := ?_
    low_le := fun x hx => (leave_low_le x).trans (h.low_le x hx)
    low_path := ?_
    low_lt := ?_
    low_bound := ?_ }
  · -- a node that the frame left owned is owned by the one that owns its low-link
    intro x hx
    obtain ⟨f, hf, hle⟩ := h.owned x hx
    obtain rfl | hf := hsplit f hf
    · obtain ⟨u, hu, hnum, _⟩ := h.low_path v hv
      obtain ⟨g, hg, hle'⟩ := h.owned u hu
      obtain rfl | hg := hsplit g hg
      · simp only at hle'
        omega
      · refine ⟨g, hg, ?_⟩
        simp only [leave_num] at hle ⊢
        omega
    · exact ⟨f, hf, hle⟩
  · intro x hx u hu
    obtain hvisited | hpending | ⟨g, hg, hgx, hmem⟩ := h.examined x hx u hu
    · exact .inl hvisited
    · simp at hpending
    · obtain rfl | hg := hsplit g hg
      · simp at hmem
      · exact .inr (.inr ⟨g, hg, hgx, hmem⟩)
  · intro x hx
    cases frames with
    | nil => exact h.low_path x hx
    | cons parent rest =>
      have hparent : parent.v ∈ s.tarjan_stack := h.frame_stacked parent (hsub parent List.mem_cons_self)
      by_cases heq : x = parent.v
      · subst heq
        rw [leave_low_parent]
        obtain hmin | hmin := Nat.le_total (s.low parent.v) (s.low v)
        · rw [Nat.min_eq_left hmin]
          exact h.low_path _ hx
        · rw [Nat.min_eq_right hmin]
          obtain ⟨u, hu, hnum, hpath⟩ := h.low_path v hv
          have hdown := h.reaches parent (hsub parent List.mem_cons_self) v hv
            (le_of_lt (htop parent List.mem_cons_self))
          exact ⟨u, hu, hnum, hdown.trans hpath⟩
      · have hlow : (leave v (parent :: rest) s).low x = s.low x := by
          simp [leave, Function.update_of_ne heq]
        rw [hlow]
        exact h.low_path x hx
  · intro x hx hframes
    refine (leave_low_le x).trans_lt ?_
    by_cases heq : x = v
    · rw [heq]
      exact hlt
    · refine h.low_lt x hx fun f hf => ?_
      obtain rfl | hf := hsplit f hf
      · exact Ne.symm heq
      · exact hframes f hf
  · intro f hf x hx hle hown u hu hstacked _ hlooked
    have hlooked' : ∀ g ∈ s.call_stack, g.v = x → u ∉ g.rest := by
      intro g hg hgx
      obtain rfl | hg := hsplit g hg
      · simp
      · exact hlooked g hg hgx
    by_cases hbelow : s.num v ≤ s.num x
    · -- the frame left owned `x`; now its parent does
      have hbound := h.low_bound ⟨v, []⟩ (hstack ▸ List.mem_cons_self) x hx hbelow ?_ u hu hstacked (by simp)
        hlooked'
      · cases frames with
        | nil => simp at hf
        | cons parent rest =>
          have hge := hown parent List.mem_cons_self (le_of_lt ((htop parent List.mem_cons_self).trans_le hbelow))
          have hfp : f.v = parent.v := by
            obtain rfl | hrest := List.mem_cons.mp hf
            · rfl
            · have hlt' := (List.pairwise_cons.mp hsorted).1 f hrest
              simp only [leave_num] at hge
              omega
          rw [hfp, leave_low_parent]
          exact (min_le_right _ _).trans hbound
      · intro g hg _
        obtain rfl | hg := hsplit g hg
        · exact le_refl _
        · exact le_of_lt (htop g hg)
    · refine (leave_low_le f.v).trans (h.low_bound f (hsub f hf) x hx hle ?_ u hu hstacked (by simp) hlooked')
      intro g hg hle'
      obtain rfl | hg := hsplit g hg
      · exact absurd hle' hbelow
      · exact hown g hg hle'

omit [DecidableEq α] in
/-- What was emitted only leads to what was emitted. -/
theorem emitted_closed (h : Inv adj nodes none s) {x : α} (hx : x ∈ s.sccs.flatten) (hw : w ∈ adj x) :
    w ∈ s.sccs.flatten := by
  obtain ⟨comp, hcomp, hmem⟩ := List.mem_flatten.mp hx
  obtain ⟨before, after, hsplit⟩ := List.append_of_mem hcomp
  rw [hsplit, List.flatten_append, List.flatten_cons]
  obtain hbefore | hsame := h.ordered before comp after hsplit x hmem w hw
  · exact List.mem_append_left _ hbefore
  · exact List.mem_append_right _ (List.mem_append_left _ hsame)

/-- The nodes a root pops are those that reach it and that it reaches. -/
theorem popped_connected (h : Inv adj nodes none s) (hstack : s.call_stack = ⟨v, []⟩ :: frames)
    (hroot : s.low v = s.num v) :
    (∀ x ∈ (pop_until v s.tarjan_stack).1, ∀ w ∈ adj x,
      w ∈ s.sccs.flatten ∨ w ∈ (pop_until v s.tarjan_stack).1) ∧
    (∀ x ∈ (pop_until v s.tarjan_stack).1, ∀ y ∈ (pop_until v s.tarjan_stack).1,
      ReflTransGen (Edge adj) x y) := by
  have htop : (⟨v, []⟩ : Frame α) ∈ s.call_stack := hstack ▸ List.mem_cons_self
  have hv : v ∈ s.tarjan_stack := h.frame_stacked ⟨v, []⟩ htop
  have hlast : ∀ g ∈ s.call_stack, s.num g.v ≤ s.num v := by
    intro g hg
    rw [hstack] at hg
    obtain rfl | hg := List.mem_cons.mp hg
    · exact le_refl _
    · exact le_of_lt (h.top_sorted hstack g hg)
  have hmem : ∀ x, x ∈ (pop_until v s.tarjan_stack).1 ↔ x ∈ s.tarjan_stack ∧ s.num v ≤ s.num x :=
    fun x => mem_pop_until_iff h.stack_sorted hv
  have hclosed : ∀ x ∈ (pop_until v s.tarjan_stack).1, ∀ w ∈ adj x,
      w ∈ s.sccs.flatten ∨ w ∈ (pop_until v s.tarjan_stack).1 := by
    intro x hx w hw
    obtain ⟨hxs, hle⟩ := (hmem x).mp hx
    obtain ⟨hvisited, hlooked⟩ := h.looked hstack hxs hle hw
    obtain hws | hemitted := (h.visited_iff w).mp hvisited
    · right
      have hbound := h.low_bound ⟨v, []⟩ htop x hxs hle (fun g hg _ => hlast g hg) w hw hws (by simp) hlooked
      rw [hroot] at hbound
      exact (hmem w).mpr ⟨hws, hbound⟩
    · exact .inl hemitted
  have hleads : ∀ x y, x ∈ (pop_until v s.tarjan_stack).1 → ReflTransGen (Edge adj) x y →
      y ∈ s.sccs.flatten ∨ y ∈ (pop_until v s.tarjan_stack).1 := by
    intro x y hx hpath
    induction hpath with
    | refl => exact .inr hx
    | tail _ hedge ih =>
      obtain hemitted | hpopped := ih
      · exact .inl (h.emitted_closed hemitted hedge)
      · exact hclosed _ hpopped _ hedge
  have hback : ∀ n x, s.num x = n → x ∈ (pop_until v s.tarjan_stack).1 → ReflTransGen (Edge adj) x v := by
    intro n
    induction n using Nat.strong_induction_on with
    | _ n ih =>
      intro x hn hx
      obtain ⟨hxs, hle⟩ := (hmem x).mp hx
      by_cases heq : x = v
      · rw [heq]
      · -- no frame is above `v`, so the low-link of `x` points strictly down
        have hlt : s.low x < s.num x := by
          refine h.low_lt x hxs fun f hf hfx => heq ?_
          have hge := hlast f hf
          rw [hfx] at hge
          exact h.eq_of_num_eq hxs hv (le_antisymm hge hle)
        obtain ⟨u, hu, hnum, hpath⟩ := h.low_path x hxs
        have hpopped := (hleads x u hx hpath).resolve_left (h.apart u hu)
        exact hpath.trans (ih (s.num u) (by omega) u rfl hpopped)
  refine ⟨hclosed, fun x hx y hy => ?_⟩
  obtain ⟨hys, hle⟩ := (hmem y).mp hy
  exact (hback _ x rfl hx).trans (h.reaches ⟨v, []⟩ htop y hys hle)

/-- A root emits its component. -/
theorem finish_root (h : Inv adj nodes none s) (hstack : s.call_stack = ⟨v, []⟩ :: frames)
    (hroot : s.low v = s.num v) : Inv adj nodes none (leave v frames (emit cmp v s)) := by
  obtain ⟨hclosed, hconnected⟩ := h.popped_connected hstack hroot
  have hv : v ∈ s.tarjan_stack := h.frame_stacked ⟨v, []⟩ (hstack ▸ List.mem_cons_self)
  have htop := h.top_sorted hstack
  have hsub : ∀ f ∈ frames, f ∈ s.call_stack := fun f hf => hstack ▸ List.mem_cons_of_mem _ hf
  have hsplit : ∀ f ∈ s.call_stack, f = ⟨v, []⟩ ∨ f ∈ frames :=
    fun f hf => List.mem_cons.mp (hstack ▸ hf)
  have hpopped : ∀ x, x ∈ (pop_until v s.tarjan_stack).1 ↔ x ∈ s.tarjan_stack ∧ s.num v ≤ s.num x :=
    fun x => mem_pop_until_iff h.stack_sorted hv
  have hleft : ∀ x, x ∈ (pop_until v s.tarjan_stack).2 ↔ x ∈ s.tarjan_stack ∧ s.num x < s.num v :=
    fun x => mem_left_iff h.stack_sorted hv
  have happend := pop_until_append hv
  have hflatten : (leave v frames (emit cmp v s)).sccs.flatten =
      s.sccs.flatten ++ sort_by cmp (pop_until v s.tarjan_stack).1 := by
    simp [leave, emit]
  have hlow : (leave v frames (emit cmp v s)).low = s.low := by
    cases frames with
    | nil => rfl
    | cons parent rest =>
      have hparent := h.low_le parent.v (h.frame_stacked parent (hsub parent List.mem_cons_self))
      have hlt := htop parent List.mem_cons_self
      have hmin : min (s.low parent.v) (s.low v) = s.low parent.v := by omega
      simp [leave, emit, hmin]
  have hsccs : ∀ comp ∈ (leave v frames (emit cmp v s)).sccs,
      comp ∈ s.sccs ∨ comp = sort_by cmp (pop_until v s.tarjan_stack).1 := by
    intro comp hcomp
    simpa [leave, emit] using hcomp
  refine { h with
    stack_sorted := ?_
    on_stack_iff := ?_
    visited_iff := ?_
    apart := ?_
    nodup := ?_
    nonempty := ?_
    connected := ?_
    ordered := ?_
    frame_stacked := ?_
    frames_sorted := (List.pairwise_cons.mp (hstack ▸ h.frames_sorted)).2
    owned := ?_
    reaches := ?_
    rest_subset := fun f hf => h.rest_subset f (hsub f hf)
    examined := ?_
    low_le := ?_
    low_path := ?_
    low_lt := ?_
    low_bound := ?_ }
  · have hsorted := h.stack_sorted
    rw [← happend, List.pairwise_append] at hsorted
    exact hsorted.2.1
  · intro u
    have hu := h.on_stack_iff u
    simp only [leave, emit, hleft]
    split
    · rename_i hmem
      have hle := ((hpopped u).mp hmem).2
      simp only [Bool.false_eq_true, false_iff, not_and, not_lt]
      exact fun _ => hle
    · rename_i hmem
      rw [hu]
      constructor
      · intro hus
        refine ⟨hus, lt_of_not_ge fun hle => hmem ((hpopped u).mpr ⟨hus, hle⟩)⟩
      · exact fun hus => hus.1
  · intro u
    rw [hflatten, List.mem_append, mem_sort_by]
    refine (h.visited_iff u).trans ?_
    rw [leave_tarjan_stack]
    have hstacked : u ∈ s.tarjan_stack ↔
        u ∈ (pop_until v s.tarjan_stack).1 ∨ u ∈ (pop_until v s.tarjan_stack).2 := by
      rw [← List.mem_append, happend]
    rw [hstacked]
    simp only [emit]
    tauto
  · intro u hu hmem
    obtain ⟨hus, hlt⟩ := (hleft u).mp hu
    rw [hflatten, List.mem_append, mem_sort_by] at hmem
    obtain hemitted | hmem := hmem
    · exact h.apart u hus hemitted
    · have hle := ((hpopped u).mp hmem).2
      omega
  · rw [hflatten, List.nodup_append]
    have hnodup := h.stack_nodup
    rw [← happend, List.nodup_append] at hnodup
    refine ⟨h.nodup, (perm_sort_by _).nodup_iff.mpr hnodup.1, ?_⟩
    intro u hu u' hu' heq
    subst heq
    exact h.apart u ((hpopped u).mp (mem_sort_by.mp hu')).1 hu
  · intro comp hcomp
    obtain hcomp | rfl := hsccs comp hcomp
    · exact h.nonempty comp hcomp
    · exact fun hnil => List.ne_nil_of_mem (mem_pop_until hv) (sort_by_eq_nil.mp hnil)
  · intro comp hcomp x hx y hy
    obtain hcomp | rfl := hsccs comp hcomp
    · exact h.connected comp hcomp x hx y hy
    · exact hconnected x (mem_sort_by.mp hx) y (mem_sort_by.mp hy)
  · intro before comp after heq x hx u hu
    have heq' : s.sccs ++ [sort_by cmp (pop_until v s.tarjan_stack).1] = before ++ comp :: after := heq
    obtain rfl | ⟨init, last, rfl⟩ := List.eq_nil_or_concat after
    · obtain ⟨hbefore, hlast⟩ := List.append_inj' heq' rfl
      obtain rfl : sort_by cmp (pop_until v s.tarjan_stack).1 = comp := List.singleton_inj.mp hlast
      rw [← hbefore]
      exact (hclosed x (mem_sort_by.mp hx) u hu).imp_right mem_sort_by.mpr
    · have hold : s.sccs = before ++ comp :: init := by
        have hlast : s.sccs ++ [sort_by cmp (pop_until v s.tarjan_stack).1] =
            (before ++ comp :: init) ++ [last] := by
          rw [heq', List.concat_eq_append, List.append_assoc, List.cons_append]
        exact (List.append_inj' hlast rfl).1
      exact h.ordered before comp init hold x hx u hu
  · intro f hf
    exact (hleft f.v).mpr ⟨h.frame_stacked f (hsub f hf), htop f hf⟩
  · intro x hx
    obtain ⟨hxs, hlt⟩ := (hleft x).mp hx
    obtain ⟨f, hf, hle⟩ := h.owned x hxs
    obtain rfl | hf := hsplit f hf
    · exact absurd hle (not_le_of_gt hlt)
    · exact ⟨f, hf, hle⟩
  · intro f hf x hx hle
    exact h.reaches f (hsub f hf) x ((hleft x).mp hx).1 hle
  · intro x hx u hu
    obtain hvisited | hpending | ⟨g, hg, hgx, hmem⟩ := h.examined x hx u hu
    · exact .inl hvisited
    · simp at hpending
    · obtain rfl | hg := hsplit g hg
      · simp at hmem
      · exact .inr (.inr ⟨g, hg, hgx, hmem⟩)
  · intro x hx
    rw [hlow]
    exact h.low_le x ((hleft x).mp hx).1
  · intro x hx
    obtain ⟨hxs, hlt⟩ := (hleft x).mp hx
    obtain ⟨u, hu, hnum, hpath⟩ := h.low_path x hxs
    have hle := h.low_le x hxs
    refine ⟨u, (hleft u).mpr ⟨hu, by omega⟩, ?_, hpath⟩
    rw [hlow]
    exact hnum
  · intro x hx hframes
    obtain ⟨hxs, hlt⟩ := (hleft x).mp hx
    rw [hlow]
    refine h.low_lt x hxs fun f hf hfx => ?_
    obtain rfl | hf := hsplit f hf
    · rw [← hfx] at hlt
      exact lt_irrefl _ hlt
    · exact hframes f hf hfx
  · intro f hf x hx hle hown u hu hus _ hlooked
    obtain ⟨hxs, hlt⟩ := (hleft x).mp hx
    rw [hlow]
    refine h.low_bound f (hsub f hf) x hxs hle ?_ u hu ((hleft u).mp hus).1 (by simp) ?_
    · intro g hg hle'
      obtain rfl | hg := hsplit g hg
      · exact absurd hle' (not_le_of_gt hlt)
      · exact hown g hg hle'
    · intro g hg hgx
      obtain rfl | hg := hsplit g hg
      · simp
      · exact hlooked g hg hgx

end Inv

/-- The rounds left: the successors and frames of the search stack, and those of the
nodes still unvisited. -/
def work (adj : α → List α) (nodes : List α) (s : State α) : Nat :=
  (s.call_stack.map fun f => f.rest.length + 1).sum +
    ((nodes.filter fun v => (s.idx v).isNone).map fun v => (adj v).length + 1).sum

omit [DecidableEq α] in
private theorem sum_filter_le {p q : α → Bool} {f : α → Nat} (hsub : ∀ v, q v = true → p v = true)
    (l : List α) : ((l.filter q).map f).sum ≤ ((l.filter p).map f).sum := by
  induction l with
  | nil => simp
  | cons v rest ih =>
    by_cases hq : q v = true
    · simpa [hq, hsub v hq] using ih
    · by_cases hp : p v = true
      · rw [List.filter_cons_of_neg hq, List.filter_cons_of_pos hp, List.map_cons, List.sum_cons]
        exact ih.trans (Nat.le_add_left _ _)
      · simpa [hp, hq] using ih

omit [DecidableEq α] in
private theorem sum_filter_lt {p q : α → Bool} {f : α → Nat} (hsub : ∀ v, q v = true → p v = true)
    (hp : p w = true) (hq : q w = false) {l : List α} (hw : w ∈ l) :
    ((l.filter q).map f).sum + f w ≤ ((l.filter p).map f).sum := by
  induction l with
  | nil => simp at hw
  | cons v rest ih =>
    obtain rfl | hw := List.mem_cons.mp hw
    · have hle := sum_filter_le (f := f) hsub rest
      rw [List.filter_cons_of_neg (by simp [hq]), List.filter_cons_of_pos hp, List.map_cons, List.sum_cons]
      omega
    · have hle := ih hw
      by_cases hqv : q v = true
      · simp only [hqv, hsub v hqv, List.filter_cons_of_pos, List.map_cons, List.sum_cons]
        omega
      · by_cases hpv : p v = true
        · rw [List.filter_cons_of_neg hqv, List.filter_cons_of_pos hpv, List.map_cons, List.sum_cons]
          omega
        · simpa [hpv, hqv] using hle

/-- Visiting a node trades its place among the unvisited for its frame. -/
theorem work_enter (s : State α) (hw : w ∈ nodes) (hunvisited : s.idx w = none) :
    work adj nodes (enter adj w s) ≤ work adj nodes s := by
  have hsub : ∀ v, (((enter adj w s).idx v).isNone) = true → (s.idx v).isNone = true := by
    intro v
    by_cases heq : v = w
    · simp [enter, heq]
    · simp [enter, Function.update_of_ne heq]
  have hle := sum_filter_lt (q := fun v => ((enter adj w s).idx v).isNone) (f := fun v => (adj v).length + 1)
    hsub (by simp [hunvisited]) (by simp [enter]) hw
  simp only [work, enter, List.map_cons, List.sum_cons] at hle ⊢
  omega

/-- A round keeps the invariant, loses no visited node and takes some of the work. -/
theorem step_spec (cmp : α → α → Ordering) (hadj : ∀ v, ∀ w ∈ adj v, w ∈ nodes) (h : Inv adj nodes none s) :
    (step cmp adj s = none ∧ s.call_stack = []) ∨
      ∃ s', step cmp adj s = some s' ∧ Inv adj nodes none s' ∧ work adj nodes s' < work adj nodes s ∧
        ∀ v, (s.idx v).isSome → (s'.idx v).isSome := by
  cases hstack : s.call_stack with
  | nil => exact .inl ⟨by simp [step, hstack], rfl⟩
  | cons frame frames =>
    right
    obtain ⟨v, rest⟩ := frame
    cases rest with
    | nil =>
      refine ⟨_, by rw [step, hstack], ?_, ?_, ?_⟩
      · have hv : v ∈ s.tarjan_stack := h.frame_stacked ⟨v, []⟩ (hstack ▸ List.mem_cons_self)
        rw [h.idx_of_stacked hv]
        by_cases hroot : s.low v = s.num v
        · rw [if_pos (by rw [hroot])]
          exact h.finish_root hstack hroot
        · rw [if_neg (fun heq => hroot (Option.some.inj heq).symm)]
          exact h.finish hstack hroot
      · split <;> simp [work, leave, emit, hstack]
      · split <;> simp [leave, emit]
    | cons w rest =>
      have hpending := h.advance hstack
      have hw : w ∈ adj v := h.rest_subset ⟨v, w :: rest⟩ (hstack ▸ List.mem_cons_self) w List.mem_cons_self
      have hless : work adj nodes { s with call_stack := ⟨v, rest⟩ :: frames } < work adj nodes s := by
        simp [work, hstack]
      cases hidx : s.idx w with
      | none =>
        refine ⟨enter adj w { s with call_stack := ⟨v, rest⟩ :: frames },
          by simp only [step, hstack, hidx], ?_, ?_, ?_⟩
        · refine hpending.enter hidx (hadj v w hw) ?_ ?_
          · intro x y heq
            cases heq
            rfl
          · intro f hf
            have hv : v ∈ s.tarjan_stack := h.frame_stacked ⟨v, w :: rest⟩ (hstack ▸ List.mem_cons_self)
            have hle : s.num f.v ≤ s.num v := by
              obtain rfl | hf := List.mem_cons.mp hf
              · exact le_refl _
              · exact le_of_lt (h.top_sorted hstack f hf)
            exact (hpending.reaches f hf v hv hle).tail hw
        · refine lt_of_le_of_lt ?_ hless
          exact work_enter { s with call_stack := ⟨v, rest⟩ :: frames } (hadj v w hw) hidx
        · intro u hu
          by_cases heq : u = w
          · simp [enter, heq]
          · simpa [enter, Function.update_of_ne heq] using hu
      | some i =>
        have hvisited : (s.idx w).isSome := by rw [hidx]; rfl
        by_cases hon : s.on_stack w = true
        · have hi : s.num w = i := by simp [State.num, hidx]
          refine ⟨{ s with
            call_stack := ⟨v, rest⟩ :: frames
            low := Function.update s.low v (min (s.low v) i) },
            by simp only [step, hstack, hidx, hon, if_true], ?_, hless, fun _ hu => hu⟩
          have htop : State.call_stack { s with call_stack := ⟨v, rest⟩ :: frames } = ⟨v, rest⟩ :: frames := rfl
          have hrelax := hpending.relax htop hw ((h.on_stack_iff w).mp hon)
          rw [← hi]
          exact hrelax
        · refine ⟨{ s with call_stack := ⟨v, rest⟩ :: frames },
            by simp only [step, hstack, hidx, hon, if_false, Bool.false_eq_true], ?_, hless, fun _ hu => hu⟩
          exact hpending.skip hvisited fun hmem => hon ((h.on_stack_iff w).mpr hmem)

theorem drain_spec (cmp : α → α → Ordering) (hadj : ∀ v, ∀ w ∈ adj v, w ∈ nodes) {fuel : Nat} (h : Inv adj nodes none s)
    (hfuel : work adj nodes s ≤ fuel) :
    Inv adj nodes none (drain cmp adj fuel s) ∧ (drain cmp adj fuel s).call_stack = [] ∧
      ∀ v, (s.idx v).isSome → ((drain cmp adj fuel s).idx v).isSome := by
  induction fuel generalizing s with
  | zero =>
    refine ⟨h, ?_, fun _ hv => hv⟩
    rw [drain]
    cases hstack : s.call_stack with
    | nil => rfl
    | cons frame frames =>
      rw [work, hstack, List.map_cons, List.sum_cons] at hfuel
      omega
  | succ fuel ih =>
    obtain ⟨hstep, hempty⟩ | ⟨s', hstep, hinv, hless, hvisits⟩ := step_spec cmp hadj h
    · simp only [drain, hstep]
      exact ⟨h, hempty, fun _ hv => hv⟩
    · simp only [drain, hstep]
      obtain ⟨hinv, hempty, hvisits'⟩ := ih hinv (by omega)
      exact ⟨hinv, hempty, fun v hv => hvisits' v (hvisits v hv)⟩

/-- Between searches the stacks are empty; a search visits its start. -/
theorem search_from_spec (cmp : α → α → Ordering) (hadj : ∀ v, ∀ w ∈ adj v, w ∈ nodes) (h : Inv adj nodes none s)
    (hempty : s.call_stack = []) (hv : v ∈ nodes) :
    Inv adj nodes none (search_from cmp adj nodes s v) ∧ (search_from cmp adj nodes s v).call_stack = [] ∧
      ((search_from cmp adj nodes s v).idx v).isSome ∧
      ∀ u, (s.idx u).isSome → ((search_from cmp adj nodes s v).idx u).isSome := by
  cases hidx : s.idx v with
  | some i =>
    simp only [search_from, hidx]
    exact ⟨h, hempty, by simp, fun _ hu => hu⟩
  | none =>
    simp only [search_from, hidx]
    have hinv := h.enter hidx hv (by simp) (by simp [hempty])
    have hfuel : work adj nodes (enter adj v s) ≤ fuel adj nodes := by
      refine (work_enter s hv hidx).trans ?_
      simp only [work, hempty, List.map_nil, List.sum_nil, Nat.zero_add, fuel]
      have hle := sum_filter_le (p := fun _ => true) (q := fun u => (s.idx u).isNone)
        (f := fun u => (adj u).length + 1) (by simp) nodes
      simpa using hle
    obtain ⟨hinv', hempty', hvisits⟩ := drain_spec cmp hadj hinv hfuel
    refine ⟨hinv', hempty', hvisits v (by simp [enter]), fun u hu => hvisits u ?_⟩
    by_cases heq : u = v
    · simp [enter, heq]
    · simpa [enter, Function.update_of_ne heq] using hu

/-- Searches from some starts visit them, and the stacks are empty again. -/
theorem searches_spec (cmp : α → α → Ordering) (hadj : ∀ v, ∀ w ∈ adj v, w ∈ nodes) {starts : List α}
    (hstarts : ∀ v ∈ starts, v ∈ nodes) (h : Inv adj nodes none s) (hempty : s.call_stack = []) :
    Inv adj nodes none (starts.foldl (search_from cmp adj nodes) s) ∧
      (starts.foldl (search_from cmp adj nodes) s).call_stack = [] ∧
      (∀ v ∈ starts, ((starts.foldl (search_from cmp adj nodes) s).idx v).isSome) ∧
      ∀ u, (s.idx u).isSome → ((starts.foldl (search_from cmp adj nodes) s).idx u).isSome := by
  induction starts generalizing s with
  | nil => exact ⟨h, hempty, by simp, fun _ hu => hu⟩
  | cons v rest ih =>
    obtain ⟨hinv, hempty', hvisited, hvisits⟩ := search_from_spec cmp hadj h hempty (hstarts v List.mem_cons_self)
    obtain ⟨hinv', hempty'', hall, hvisits'⟩ := ih (fun u hu => hstarts u (List.mem_cons_of_mem v hu)) hinv hempty'
    refine ⟨hinv', hempty'', fun u hu => ?_, fun u hu => hvisits' u (hvisits u hu)⟩
    obtain rfl | hu := List.mem_cons.mp hu
    · exact hvisits' u hvisited
    · exact hall u hu

/-- Searches from all nodes emit the components of the graph. -/
theorem searches_condense (cmp : α → α → Ordering) (hadj : ∀ v, ∀ w ∈ adj v, w ∈ nodes) :
    Condensation adj nodes (nodes.foldl (search_from cmp adj nodes) .start).sccs := by
  obtain ⟨h, hempty, hall, _⟩ := searches_spec cmp hadj (fun _ hv => hv) inv_start rfl
  refine ⟨h.nodup, ?_, h.nonempty, h.connected, h.ordered⟩
  intro v
  constructor
  · exact fun hv => h.visited_nodes v ((h.visited_iff v).mpr (.inr hv))
  · intro hv
    refine ((h.visited_iff v).mp (hall v hv)).resolve_left fun hstacked => ?_
    obtain ⟨f, hf, _⟩ := h.owned v hstacked
    rw [hempty] at hf
    simp at hf

/-- The components of the search are the strongly connected components of the graph, each
after those it points into. -/
theorem tarjan_sccs_spec (cmp : α → α → Ordering) (nodes : List α) (succ : α → List α) :
    Condensation (fun v => (succ v).filter fun w => w ∈ nodes) nodes (tarjan_sccs cmp nodes succ) := by
  refine searches_condense cmp fun v w hw => ?_
  simpa using (List.mem_filter.mp hw).2

/-- More rounds change nothing once the search stack is empty. -/
theorem drain_of_le {cmp : α → α → Ordering} {fuel more : Nat} (hempty : (drain cmp adj fuel s).call_stack = [])
    (hle : fuel ≤ more) : drain cmp adj more s = drain cmp adj fuel s := by
  induction fuel generalizing s more with
  | zero =>
    rw [drain] at hempty
    cases more with
    | zero => rfl
    | succ more => simp only [drain, step, hempty]
  | succ fuel ih =>
    cases more with
    | zero => omega
    | succ more =>
      rw [drain] at hempty ⊢
      rw [drain]
      split
      · rfl
      · rename_i s' hstep
        rw [hstep] at hempty
        exact ih hempty (by omega)

section sorted

variable [Std.TransCmp cmp]

/-- The components emitted so far are sorted. -/
def SortedSccs (cmp : α → α → Ordering) (s : State α) : Prop :=
  ∀ comp ∈ s.sccs, comp.Pairwise fun a b => (cmp a b).isLE

theorem SortedSccs.step {s' : State α} (h : SortedSccs cmp s) (hstep : step cmp adj s = some s') : SortedSccs cmp s' := by
  rw [tarjan.step] at hstep
  split at hstep
  · cases hstep
  · simp only at hstep
    split at hstep
    · obtain rfl := Option.some.inj hstep
      exact h
    · obtain rfl := Option.some.inj hstep
      split <;> exact h
  · obtain rfl := Option.some.inj hstep
    split
    · intro comp hcomp
      obtain hold | hnew := List.mem_append.mp hcomp
      · exact h comp hold
      · rw [List.mem_singleton.mp hnew]
        exact pairwise_sort_by _
    · exact h

theorem SortedSccs.drain (h : SortedSccs cmp s) (fuel : Nat) : SortedSccs cmp (drain cmp adj fuel s) := by
  induction fuel generalizing s with
  | zero => exact h
  | succ fuel ih =>
    rw [tarjan.drain]
    split
    · exact h
    · rename_i hstep
      exact ih (h.step hstep)

/-- Every component is sorted. -/
theorem sorted_tarjan_sccs (cmp : α → α → Ordering) [Std.TransCmp cmp] (nodes : List α) (succ : α → List α) :
    ∀ comp ∈ tarjan_sccs cmp nodes succ, comp.Pairwise fun a b => (cmp a b).isLE := by
  have hsearches : ∀ (adj : α → List α) (starts : List α) (s : State α), SortedSccs cmp s →
      SortedSccs cmp (starts.foldl (search_from cmp adj nodes) s) := by
    intro adj starts
    induction starts with
    | nil => exact fun _ h => h
    | cons v rest ih =>
      intro s h
      refine ih _ ?_
      rw [search_from]
      split
      · exact h
      · exact SortedSccs.drain (s := enter adj v s) h _
  exact hsearches _ nodes .start fun comp hcomp => nomatch hcomp

end sorted

namespace Condensation

variable {sccs before after : List (List α)} {comp : List α}

omit [DecidableEq α] in
/-- A path stays in its component or leaves it by an edge to a component before. -/
theorem leaves (h : Condensation adj nodes sccs) (hsplit : sccs = before ++ comp :: after)
    {x m : α} (hx : x ∈ comp) (hpath : ReflTransGen (Edge adj) x m) :
    m ∈ comp ∨ ∃ n ∈ comp, ∃ t ∈ adj n, t ∈ before.flatten ∧ ReflTransGen (Edge adj) t m := by
  induction hpath using ReflTransGen.head_induction_on with
  | refl => exact .inl hx
  | head hedge hrest ih =>
    obtain hbefore | hsame := h.ordered before comp after hsplit _ hx _ hedge
    · exact .inr ⟨_, hx, _, hedge, hbefore, hrest⟩
    · exact ih hsame

omit [DecidableEq α] in
theorem exists_split (h : Condensation adj nodes sccs) {x : α} (hx : x ∈ nodes) :
    ∃ before comp after, sccs = before ++ comp :: after ∧ x ∈ comp := by
  obtain ⟨comp, hcomp, hx⟩ := List.mem_flatten.mp ((h.mem_iff x).mpr hx)
  obtain ⟨before, after, heq⟩ := List.append_of_mem hcomp
  exact ⟨before, comp, after, heq, hx⟩

omit [DecidableEq α] in
/-- A path never leads out of the components emitted so far. -/
theorem stays (h : Condensation adj nodes sccs) (hsplit : sccs = before ++ after) {x y : α} (hx : x ∈ before.flatten)
    (hpath : ReflTransGen (Edge adj) x y) : y ∈ before.flatten := by
  induction hpath with
  | refl => exact hx
  | @tail m y _ hedge ih =>
    obtain ⟨comp, hcomp, hm⟩ := List.mem_flatten.mp ih
    obtain ⟨front, back, rfl⟩ := List.append_of_mem hcomp
    have hsplit' : sccs = front ++ comp :: (back ++ after) := by rw [hsplit, List.append_assoc, List.cons_append]
    rw [List.flatten_append, List.flatten_cons, List.mem_append, List.mem_append]
    exact (h.ordered front comp _ hsplit' m hm y hedge).imp_right .inl

omit [DecidableEq α] in
/-- The component of a node is what it reaches and is reached from. -/
theorem mem_comp_iff (h : Condensation adj nodes sccs) (hcomp : comp ∈ sccs) {x y : α} (hx : x ∈ comp) :
    y ∈ comp ↔ ReflTransGen (Edge adj) x y ∧ ReflTransGen (Edge adj) y x := by
  constructor
  · exact fun hy => ⟨h.connected comp hcomp x hx y hy, h.connected comp hcomp y hy x hx⟩
  · rintro ⟨hxy, hyx⟩
    obtain ⟨before, after, hsplit⟩ := List.append_of_mem hcomp
    have hsplit' : sccs = (before ++ [comp]) ++ after := by rw [hsplit, List.append_assoc, List.singleton_append]
    have hxin : x ∈ (before ++ [comp]).flatten := by simp [hx]
    have hyin := h.stays hsplit' hxin hxy
    rw [List.flatten_append, List.flatten_singleton, List.mem_append] at hyin
    obtain hbefore | hyc := hyin
    · -- from before, `y` does not reach `x`
      have hxbefore := h.stays hsplit hbefore hyx
      have hnodup := h.nodup
      rw [hsplit, List.flatten_append, List.flatten_cons, List.nodup_append] at hnodup
      exact absurd rfl (hnodup.2.2 x hxbefore x (List.mem_append_left _ hx))
    · exact hyc

omit [DecidableEq α] in
/-- Two nodes are in one component exactly when each reaches the other. -/
theorem same_iff (h : Condensation adj nodes sccs) {x y : α} (hx : x ∈ nodes) :
    (∃ comp ∈ sccs, x ∈ comp ∧ y ∈ comp) ↔ ReflTransGen (Edge adj) x y ∧ ReflTransGen (Edge adj) y x := by
  constructor
  · rintro ⟨comp, hcomp, hxc, hyc⟩
    exact (h.mem_comp_iff hcomp hxc).mp hyc
  · intro hboth
    obtain ⟨before, comp, after, hsplit, hxc⟩ := h.exists_split hx
    have hcomp : comp ∈ sccs := by rw [hsplit]; simp
    exact ⟨comp, hcomp, hxc, (h.mem_comp_iff hcomp hxc).mpr hboth⟩

omit [DecidableEq α] in
/-- On a closed part on which two graphs agree, what is reached is the same. -/
theorem reach_of_same {adj' : α → List α} {S : α → Prop} (hclosed : ∀ x, S x → ∀ y ∈ adj x, S y)
    (hsame : ∀ x, S x → adj x = adj' x) {x y : α} (hx : S x) (hpath : ReflTransGen (Edge adj) x y) :
    S y ∧ ReflTransGen (Edge adj') x y := by
  induction hpath with
  | refl => exact ⟨hx, .refl⟩
  | @tail m y _ hedge ih =>
    refine ⟨hclosed m ih.1 y hedge, ih.2.tail ?_⟩
    rw [Edge, ← hsame m ih.1]
    exact hedge

omit [DecidableEq α] in
/-- On a closed part on which two graphs agree, the components are the same. -/
theorem mem_comp_of_same {adj' : α → List α} {nodes' : List α} {sccs' : List (List α)} {comp' : List α} {S : α → Prop}
    (h : Condensation adj nodes sccs) (h' : Condensation adj' nodes' sccs') (hclosed : ∀ x, S x → ∀ y ∈ adj x, S y)
    (hsame : ∀ x, S x → adj x = adj' x) (hcomp : comp ∈ sccs) (hcomp' : comp' ∈ sccs') {x : α} (hS : S x) (hx : x ∈ comp)
    (hx' : x ∈ comp') {y : α} : y ∈ comp ↔ y ∈ comp' := by
  have hclosed' : ∀ x, S x → ∀ y ∈ adj' x, S y := fun x hx y hy => hclosed x hx y (hsame x hx ▸ hy)
  rw [h.mem_comp_iff hcomp hx, h'.mem_comp_iff hcomp' hx']
  constructor
  · rintro ⟨hxy, hyx⟩
    obtain ⟨hy, hxy'⟩ := reach_of_same hclosed hsame hS hxy
    exact ⟨hxy', (reach_of_same hclosed hsame hy hyx).2⟩
  · rintro ⟨hxy, hyx⟩
    have hback : ∀ x, S x → adj' x = adj x := fun x hx => (hsame x hx).symm
    obtain ⟨hy, hxy'⟩ := reach_of_same hclosed' hback hS hxy
    exact ⟨hxy', (reach_of_same hclosed' hback hy hyx).2⟩

/-- The first component that holds a node is its only one. -/
theorem findIdx_eq (h : Condensation adj nodes sccs) (hsplit : sccs = before ++ comp :: after) {x : α}
    (hx : x ∈ comp) : sccs.findIdx? (fun comp => x ∈ comp) = some before.length := by
  have hnodup := h.nodup
  rw [hsplit, List.flatten_append, List.flatten_cons, List.nodup_append] at hnodup
  have hbefore : before.findIdx? (fun comp => decide (x ∈ comp)) = none := by
    rw [List.findIdx?_eq_none_iff]
    intro c hc
    simp only [decide_eq_false_iff_not]
    intro hxc
    exact hnodup.2.2 x (List.mem_flatten.mpr ⟨c, hc, hxc⟩) x (List.mem_append_left _ hx) rfl
  rw [hsplit, List.findIdx?_append, hbefore, List.findIdx?_cons]
  simp [hx]

end Condensation

end tarjan
