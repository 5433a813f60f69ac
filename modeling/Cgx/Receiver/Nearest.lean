import Cgx.Receiver.Answers

open Relation

namespace cgx.receiver

/-- A lookup result `r` that is `out` with the targets in `T`, and unknown also when `U`. -/
structure Adds (out r : Lookup) (T : Nat → Prop) (U : Prop) : Prop where
  targets : ∀ d, d ∈ r.targets ↔ d ∈ out.targets ∨ T d
  unknown : r.unknown = true ↔ out.unknown = true ∨ U

namespace Adds

theorem merge (out r : Lookup) : Adds out (out.merge r) (· ∈ r.targets) (r.unknown = true) where
  targets _ := Finset.mem_union
  unknown := Bool.or_eq_true_iff

theorem extend (out r : Lookup) : Adds out (out.extend r) (· ∈ r.targets) (r.unknown = true) where
  targets _ := Finset.mem_union
  unknown := Bool.or_eq_true_iff

theorem extend_cone (out r : Lookup) :
    Adds out (out.extend_cone r) (· ∈ r.targets) (r.unknown = true) where
  targets _ := Finset.mem_union
  unknown := Bool.or_eq_true_iff

theorem congr {out r : Lookup} {T T' : Nat → Prop} {U U' : Prop} (h : Adds out r T U)
    (hT : ∀ d, T d ↔ T' d) (hU : U ↔ U') : Adds out r T' U' where
  targets d := (h.targets d).trans (or_congr_right (hT d))
  unknown := h.unknown.trans (or_congr_right hU)

theorem trans {out mid r : Lookup} {T T' : Nat → Prop} {U U' : Prop} (h : Adds out mid T U)
    (h' : Adds mid r T' U') : Adds out r (fun d => T d ∨ T' d) (U ∨ U') where
  targets d := by rw [h'.targets, h.targets, or_assoc]
  unknown := by rw [h'.unknown, h.unknown, or_assoc]

/-- A loop adds what its rounds add. -/
theorem foldlM {α : Type} {step : Lookup → α → Id Lookup} {T : α → Nat → Prop} {U : α → Prop}
    (xs : List α) (h : ∀ acc, ∀ x ∈ xs, Adds acc (step acc x : Lookup) (T x) (U x)) (out : Lookup) :
    Adds out (xs.foldlM step out : Id Lookup) (fun d => ∃ x ∈ xs, T x d) (∃ x ∈ xs, U x) := by
  induction xs generalizing out with
  | nil => exact ⟨fun d => by simp; rfl, by simp; rfl⟩
  | cons x rest ih =>
    rw [List.foldlM_cons]
    have hhead := h out x List.mem_cons_self
    have hrest := ih (fun acc y hy => h acc y (List.mem_cons_of_mem x hy)) (step out x)
    exact (hhead.trans hrest).congr (fun d => by simp) (by simp)

theorem unknown_false {out r : Lookup} {T : Nat → Prop} {U : Prop} (h : Adds out r T U)
    (hr : r.unknown = false) : out.unknown = false ∧ ¬ U := by
  have hno : ¬ (out.unknown = true ∨ U) := fun hor => by
    rw [h.unknown.mpr hor] at hr
    cases hr
  exact ⟨Bool.eq_false_iff.mpr fun ho => hno (.inl ho), fun hU => hno (.inr hU)⟩

end Adds

namespace Lattice

variable {l : Lattice} {c s d : Nat} {method : String} {given : Nat → String → Id Lookup}

/-- What one base adds, but for the classes in `exclude`. -/
theorem adds_visit (exclude : Option (List Nat)) (out : Lookup) (b : Base) :
    Adds out (visit given method exclude out b : Id Lookup)
      (fun d => ∃ cs, b = .Classes cs ∧ ∃ s ∈ cs, (exclude.all fun x => decide (s ∉ x)) = true ∧
        d ∈ (given s method : Lookup).targets)
      (b = .Unknown ∨ ∃ cs, b = .Classes cs ∧ ∃ s ∈ cs,
        (exclude.all fun x => decide (s ∉ x)) = true ∧ (given s method : Lookup).unknown = true) := by
  cases b with
  | Open => exact ⟨fun d => by simp [visit]; rfl, by simp [visit]; rfl⟩
  | Unknown => exact ⟨fun d => by simp [visit]; rfl, by simp [visit]; rfl⟩
  | Classes cs =>
    have hfold := Adds.foldlM (cs.filter fun s => exclude.all fun x => decide (s ∉ x))
      (fun acc s _ => Adds.merge acc (given s method)) out
    refine hfold.congr (fun d => ?_) ?_
    · simp only [List.mem_filter, and_assoc, Base.Classes.injEq, exists_eq_left']
    · simp only [List.mem_filter, and_assoc, Base.Classes.injEq, exists_eq_left', reduceCtorEq,
        false_or]

/-- What the bases of a class add. -/
theorem adds_bases (exclude : Option (List Nat)) (out : Lookup) (c : Nat) :
    Adds out ((l.bases c).foldlM (visit given method exclude) out : Id Lookup)
      (fun d => ∃ s, l.IsBase s c ∧ (exclude.all fun x => decide (s ∉ x)) = true ∧
        d ∈ (given s method : Lookup).targets)
      (.Unknown ∈ l.bases c ∨ ∃ s, l.IsBase s c ∧ (exclude.all fun x => decide (s ∉ x)) = true ∧
        (given s method : Lookup).unknown = true) := by
  refine (Adds.foldlM _ (fun acc b _ => adds_visit exclude acc b) out).congr (fun d => ?_) ?_
  · constructor
    · rintro ⟨b, hb, cs, rfl, s, hs, hd⟩
      exact ⟨s, ⟨cs, hb, hs⟩, hd⟩
    · rintro ⟨s, ⟨cs, hb, hs⟩, hd⟩
      exact ⟨.Classes cs, hb, cs, rfl, s, hs, hd⟩
  · constructor
    · rintro ⟨b, hb, rfl | ⟨cs, rfl, s, hs, hd⟩⟩
      · exact .inl hb
      · exact .inr ⟨s, ⟨cs, hb, hs⟩, hd⟩
    · rintro (hb | ⟨s, ⟨cs, hb, hs⟩, hd⟩)
      · exact ⟨.Unknown, hb, .inl rfl⟩
      · exact ⟨.Classes cs, hb, .inr ⟨cs, rfl, s, hs, hd⟩⟩

theorem note_foreign_targets (out : Lookup) : (l.note_foreign method out).targets = out.targets := by
  rw [note_foreign]
  split <;> rfl

theorem note_foreign_unknown {out : Lookup} (h : (l.note_foreign method out).unknown = false) :
    out.unknown = false := by
  rw [note_foreign] at h
  split at h
  · cases h
  · exact h

/-- Beyond the nearest definitions a lookup only learns that it is unknown. -/
theorem lookup_body_targets :
    (l.lookup_body given c method : Lookup).targets = (l.nearest given c method : Lookup).targets := by
  change (l.note_foreign method (Lookup.intercept _ _)).targets = _
  rw [note_foreign_targets, Lookup.intercept]
  split <;> rfl

theorem lookup_body_unknown (h : (l.lookup_body given c method : Lookup).unknown = false) :
    (l.nearest given c method : Lookup).unknown = false := by
  change (l.note_foreign method (Lookup.intercept _ _)).unknown = false at h
  have hout := note_foreign_unknown h
  rw [Lookup.intercept] at hout
  split at hout
  · cases hout
  · exact hout

/-- `d` defines the method, and some chain of bases from `c` meets no definition before. -/
inductive Clear (l : Lattice) (method : String) : Nat → Nat → Prop
  | here {d : Nat} : method ∈ l.own d → Clear l method d d
  | step {c s d : Nat} : method ∉ l.own c → l.IsBase s c → Clear l method s d → Clear l method c d

/-- A lookup that is not unknown on a class without the method crosses no unresolved base, and
is not unknown on any base. -/
theorem found_bases (hac : l.Acyclic) (h : (l.found c method : Lookup).unknown = false)
    (hown : method ∉ l.own c) :
    .Unknown ∉ l.bases c ∧ ∀ s, l.IsBase s c → (l.found s method : Lookup).unknown = false := by
  rw [found_eq hac] at h
  have hnearest := lookup_body_unknown h
  rw [nearest] at hnearest
  split at hnearest
  · cases hnearest
  have hnone := ((adds_bases none _ c).unknown_false (by simpa only [if_neg hown] using hnearest)).2
  exact ⟨fun hb => hnone (.inl hb), fun s hs => Bool.eq_false_iff.mpr fun hk =>
    hnone (.inr ⟨s, hs, rfl, hk⟩)⟩

/-- The targets of a lookup that is not unknown: the nearest definition of every branch. -/
theorem found_targets (hac : l.Acyclic) (h : (l.found c method : Lookup).unknown = false) :
    d ∈ (l.found c method : Lookup).targets ↔ l.Clear method c d := by
  induction hrank : l.rank c using Nat.strong_induction_on generalizing c with
  | _ n ih =>
    have hbases := found_bases hac h
    rw [found_eq hac] at h
    have hnearest := lookup_body_unknown h
    rw [found_eq hac, lookup_body_targets]
    rw [nearest] at hnearest ⊢
    split
    · rename_i hattr
      rw [if_pos hattr] at hnearest
      cases hnearest
    split
    · rename_i hown
      refine Finset.mem_singleton.trans ⟨?_, ?_⟩
      · rintro rfl
        exact .here hown
      · intro hclear
        cases hclear with
        | here => rfl
        | step hnot => exact absurd hown hnot
    · rename_i hown
      have hbases := hbases hown
      rw [(adds_bases none _ c).targets]
      constructor
      · rintro (hnone | ⟨s, hs, -, hd⟩)
        · cases hnone
        · exact .step hown hs ((ih _ (hrank ▸ rank_lt hac hs) (hbases.2 s hs) rfl).mp hd)
      · intro hclear
        cases hclear with
        | here hmine => exact absurd hmine hown
        | step _ hs hd =>
          exact .inr ⟨_, hs, rfl, (ih _ (hrank ▸ rank_lt hac hs) (hbases.2 _ hs) rfl).mpr hd⟩

/-- A cone lookup gathers the lookups of its classes. -/
theorem cone_targets (hs : s ∈ l.cone c) (h : (l.found_in_cone c method : Lookup).unknown = false) :
    (l.found s method : Lookup).unknown = false ∧
      ∀ d ∈ (l.found s method : Lookup).targets, d ∈ (l.found_in_cone c method : Lookup).targets := by
  have hcone := Adds.foldlM (l.cone c)
    (fun acc s _ => Adds.extend_cone acc (l.found s method)) {}
  have hall := hcone.trans (Adds.extend _ (l.floating_part l.found method none : Id Lookup))
  have hknown := (hall.unknown_false h).2
  refine ⟨Bool.eq_false_iff.mpr fun hk => hknown (.inl ⟨s, hs, hk⟩), fun d hd => ?_⟩
  exact (hall.targets d).mpr (.inr (.inl ⟨s, hs, hd⟩))

end Lattice

end cgx.receiver
