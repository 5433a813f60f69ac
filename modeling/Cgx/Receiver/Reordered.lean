import Cgx.Receiver.Serve

open cgx.frontend.facts cgx.resolve guarded

namespace cgx.receiver.names

/-! ### The join of several resolutions -/

/-- The join of two resolutions. -/
def meet (a b : Resolved) : Resolved :=
  match a, b with
  | .Class a, .Class b => .Class (a ∪ b)
  | a, b => if a = b then a else .NotFound

theorem join_some (a b : Resolved) : join (some a) b = some (meet a b) := by
  cases a <;> cases b <;> rfl

theorem meet_eq_class {a b : Resolved} {ids : Finset UInt32} :
    meet a b = .Class ids ↔ ∃ x y, a = .Class x ∧ b = .Class y ∧ ids = x ∪ y := by
  constructor
  · intro h
    unfold meet at h
    split at h
    case h_1 x y =>
      cases h
      exact ⟨x, y, rfl, rfl, rfl⟩
    case h_2 hclass =>
      split at h
      case isTrue hsame => exact (hclass ids ids h (hsame ▸ h)).elim
      · cases h
  · rintro ⟨x, y, rfl, rfl, rfl⟩
    rfl

theorem meet_eq_other {a b r : Resolved} (hclass : ∀ ids, r ≠ .Class ids) (hfound : r ≠ .NotFound) :
    meet a b = r ↔ a = r ∧ b = r := by
  constructor
  · intro h
    unfold meet at h
    split at h
    · exact absurd h.symm (hclass _)
    · split at h
      case isTrue hsame => exact ⟨h, hsame ▸ h⟩
      · exact absurd h.symm hfound
  · rintro ⟨rfl, rfl⟩
    cases b with
    | Class ids => exact absurd rfl (hclass ids)
    | _ => simp [meet]

/-- A resolution is known by what it is if it is found. -/
theorem Resolved.eq_of_found {a b : Resolved} (h : ∀ r, r ≠ .NotFound → (a = r ↔ b = r)) : a = b := by
  by_cases ha : a = .NotFound
  · by_contra hne
    have hb : b ≠ .NotFound := fun hb => hne (ha.trans hb.symm)
    exact hne ((h b hb).mpr rfl)
  · exact ((h a ha).mp rfl).symm

theorem meet_comm (a b : Resolved) : meet a b = meet b a := by
  refine Resolved.eq_of_found fun r hr => ?_
  by_cases hclass : ∃ ids, r = .Class ids
  · obtain ⟨ids, rfl⟩ := hclass
    rw [meet_eq_class, meet_eq_class]
    constructor <;>
    · rintro ⟨x, y, ha, hb, rfl⟩
      exact ⟨y, x, hb, ha, Finset.union_comm x y⟩
  · rw [meet_eq_other (not_exists.mp hclass) hr, meet_eq_other (not_exists.mp hclass) hr, and_comm]

theorem meet_assoc (a b c : Resolved) : meet (meet a b) c = meet a (meet b c) := by
  refine Resolved.eq_of_found fun r hr => ?_
  by_cases hclass : ∃ ids, r = .Class ids
  · obtain ⟨ids, rfl⟩ := hclass
    rw [meet_eq_class, meet_eq_class]
    constructor
    · rintro ⟨xy, z, hab, hc, rfl⟩
      obtain ⟨x, y, ha, hb, rfl⟩ := meet_eq_class.mp hab
      exact ⟨x, y ∪ z, ha, meet_eq_class.mpr ⟨y, z, hb, hc, rfl⟩, Finset.union_assoc x y z⟩
    · rintro ⟨x, yz, ha, hbc, rfl⟩
      obtain ⟨y, z, hb, hc, rfl⟩ := meet_eq_class.mp hbc
      exact ⟨x ∪ y, z, meet_eq_class.mpr ⟨x, y, ha, hb, rfl⟩, hc, (Finset.union_assoc x y z).symm⟩
  · have hother := not_exists.mp hclass
    rw [meet_eq_other hother hr, meet_eq_other hother hr, meet_eq_other hother hr, meet_eq_other hother hr, and_assoc]

instance : RightCommutative join where
  right_comm acc a b := by
    cases acc with
    | none =>
      change join (some a) b = join (some b) a
      rw [join_some, join_some, meet_comm]
    | some r =>
      rw [join_some, join_some, join_some, join_some, meet_assoc, meet_comm a b, ← meet_assoc]

instance : RightCommutative join_found where
  right_comm acc a b := by
    unfold join_found
    by_cases ha : a ≠ .NotFound
    · by_cases hb : b ≠ .NotFound
      · rw [if_pos ha, if_pos hb, if_pos hb, if_pos ha]
        exact RightCommutative.right_comm acc a b
      · rw [if_pos ha, if_neg hb, if_neg hb, if_pos ha]
    · rw [if_neg ha, if_neg ha]

/-! ### The same index, listed in another order -/

/-- The same entry of a map, its members in some order. -/
inductive Shuffled {α : Type} : Option (List α) → Option (List α) → Prop where
  | none : Shuffled none none
  | some {xs ys : List α} (hperm : ys.Perm xs) : Shuffled (some xs) (some ys)

theorem Shuffled.isSome {α : Type} {a b : Option (List α)} (h : Shuffled a b) : b.isSome = a.isSome := by
  cases h with
  | none => rfl
  | some _ => rfl

theorem Shuffled.getD {α : Type} {a b : Option (List α)} (h : Shuffled a b) : (b.getD []).Perm (a.getD []) := by
  cases h with
  | none => exact .refl []
  | some hperm => exact hperm

/-- The bindings of each name and the globs, in some order. -/
structure FileScope.Reordered (fs fs' : FileScope) : Prop where
  module_path : fs'.module_path = fs.module_path
  lang : fs'.lang = fs.lang
  bindings : ∀ name, Shuffled (fs.bindings.lookup name) (fs'.bindings.lookup name)
  globs : fs'.globs.Perm fs.globs

namespace ModuleIndex

variable {n : Nat}

/-- The files of each module, the modules with each last segment, the binding sites of each
value and what the files list, in some order. -/
structure Reordered (idx idx' : ModuleIndex n) : Prop where
  modules : ∀ m, Shuffled (idx.modules.lookup m) (idx'.modules.lookup m)
  by_last : ∀ last, Shuffled (idx.by_last.lookup last) (idx'.by_last.lookup last)
  files : ∀ f, (idx.files f).Reordered (idx'.files f)
  values : ∀ key, Shuffled (idx.values.lookup key) (idx'.values.lookup key)

/-- The same modules, suffix matches in some order. -/
inductive SameModules : InRepo → InRepo → Prop where
  | Exact (m : String) : SameModules (.Exact m) (.Exact m)
  | Suffix {ms ms' : List String} (hperm : ms'.Perm ms) : SameModules (.Suffix ms) (.Suffix ms')
  | Missing : SameModules .Missing .Missing
  | External : SameModules .External .External

namespace Reordered

variable {idx idx' : ModuleIndex n} (h : idx.Reordered idx') (d : Defs)
include h

theorem contains_module (m : String) : idx'.contains_module m = idx.contains_module m :=
  (h.modules m).isSome

theorem files_of (m : String) : (idx'.files_of m).Perm (idx.files_of m) :=
  (h.modules m).getD

theorem bound (f : Fin n) (name : String) : ((idx'.files f).bound name).Perm ((idx.files f).bound name) :=
  ((h.files f).bindings name).getD

theorem in_repo (s : Spec) : SameModules (idx.in_repo s) (idx'.in_repo s) := by
  unfold ModuleIndex.in_repo
  rw [h.contains_module]
  split
  · exact .Exact s.path
  · split
    · exact .Missing
    · have hhits := ((h.by_last (short_name s.path)).getD).filter fun m =>
        ends_with m ("::" ++ s.path) || ends_with s.path ("::" ++ m)
      dsimp only
      split
      case isTrue hnil =>
        rw [hnil] at hhits
        rw [if_pos hhits.eq_nil]
        exact .External
      case isFalse hnil =>
        rw [if_neg]
        · exact .Suffix hhits
        · intro hnil'
          rw [hnil'] at hhits
          exact hnil (List.nil_perm.mp hhits)

theorem offers (m name : String) : idx'.offers d m name = idx.offers d m name := by
  unfold ModuleIndex.offers ModuleIndex.provides
  rw [h.contains_module, h.contains_module, (h.values (m, name)).isSome]

theorem attempts (m name : String) (spec : Spec) : (idx'.attempts m name spec).Perm (idx.attempts m name spec) := by
  refine (h.files_of m).flatMap fun f _ => ?_
  refine ((((h.bound f name).map Target.spec).filter _).map _).append ?_
  refine (((h.files f).globs.filter _).map _).trans (.of_eq ?_)
  refine List.map_congr_left fun g _ => ?_
  have hsame := h.in_repo g
  generalize idx.in_repo g = a at hsame
  generalize idx'.in_repo g = b at hsame
  cases hsame with
  | Exact m => rfl
  | Suffix _ => rfl
  | Missing => rfl
  | External => rfl

theorem serves {name : String} {spec : Spec} {m : String} :
    idx'.Serves d name spec m ↔ idx.Serves d name spec m := by
  constructor
  · intro hserves
    induction hserves with
    | offers hoffers => exact .offers (h.offers d _ name ▸ hoffers)
    | outright hnone => exact .outright ((h.attempts _ name spec).mem_iff.mp hnone)
    | glob hglob _ ih => exact .glob ((h.attempts _ name spec).mem_iff.mp hglob) ih
  · intro hserves
    induction hserves with
    | offers hoffers => exact .offers ((h.offers d _ name).trans hoffers)
    | outright hnone => exact .outright ((h.attempts _ name spec).mem_iff.mpr hnone)
    | glob hglob _ ih => exact .glob ((h.attempts _ name spec).mem_iff.mpr hglob) ih

theorem may_serve (m name : String) (spec : Spec) : idx'.may_serve d m name spec = idx.may_serve d m name spec := by
  rw [Bool.eq_iff_iff, may_serve_iff, may_serve_iff]
  exact h.serves d

end Reordered

/-! ### Each function, followed in the other order -/

section alike

variable {idx idx' : ModuleIndex n} (h : idx.Reordered idx') (d : Defs)
  {eval eval' : Call → List Pair → Option (Outcome Pair Resolved)}
  (hcalls : ∀ c g, Refines (eval c g) (eval' c g))
include hcalls

theorem alike_call (c : Call) : Alike eval eval' (call c) (call c) :=
  Alike.call (hcalls c)

theorem alike_resolve_target (t : Target) (rest : List String) :
    Alike eval eval' (resolve_target t rest) (resolve_target t rest) := by
  cases t with
  | Module s => exact alike_call hcalls _
  | Member s name => exact alike_call hcalls _
  | ModuleOrMember s name =>
    exact (alike_call hcalls _).bind fun _ => (alike_call hcalls _).bind fun _ => .pure _

theorem alike_def_at (fqn : String) (rest : List String) :
    Alike eval eval' (def_at d (fun fqn rest => call (.Value fqn rest)) fqn rest)
      (def_at d (fun fqn rest => call (.Value fqn rest)) fqn rest) := by
  unfold def_at
  split
  · split
    · exact .pure _
    · split
      · exact .pure _
      · exact .pure _
  · split
    · exact .pure _
    · exact (alike_call hcalls _).bind fun _ => .pure _

theorem alike_resolve_source (m : String) (rest : List String) (src : ValueSource) :
    Alike eval eval' (resolve_source m rest src) (resolve_source m rest src) := by
  unfold resolve_source
  split
  · exact alike_call hcalls _
  · split
    · exact (alike_call hcalls _).bind fun _ => .pure _
    · exact .pure _
  · exact .pure _

omit hcalls in
theorem plain_resolve_source (m : String) (rest : List String) (src : ValueSource) : (resolve_source m rest src).Plain := by
  unfold resolve_source
  split
  · exact plain_call _
  · split
    · exact plain_map_call _ _
    · exact plain_pure _
  · exact plain_pure _

include h

theorem alike_resolve_spec (s : Spec) (path : List String) :
    Alike eval eval' (idx.resolve_spec d s path) (idx'.resolve_spec d s path) := by
  unfold resolve_spec
  have hsame := h.in_repo s
  generalize idx.in_repo s = a at hsame
  generalize idx'.in_repo s = b at hsame
  cases hsame with
  | Exact m => exact alike_call hcalls _
  | Suffix hperm =>
    refine (Alike.loop (fun _ => plain_call _) (fun _ => plain_call _) hperm
      (fun _ _ => alike_call hcalls _) none).bind fun acc => ?_
    cases path with
    | nil => exact .pure _
    | cons name rest =>
      have hany : ∀ ms : List String, (ms.any fun m => idx'.may_serve d m name s) = ms.any fun m => idx.may_serve d m name s :=
        fun ms => congrArg ms.any (funext fun m => h.may_serve d m name s)
      dsimp only
      rw [hany, hperm.any_eq]
      exact .pure _
  | Missing => exact .pure _
  | External => exact .pure _

theorem alike_resolve_in (m : String) (path : List String) :
    Alike eval eval' (idx.resolve_in d m path) (idx'.resolve_in d m path) := by
  unfold resolve_in
  cases path with
  | nil => exact .pure _
  | cons name rest =>
    refine (alike_def_at d hcalls _ rest).bind fun found => ?_
    cases found with
    | some r => exact .pure r
    | none =>
      dsimp only
      rw [h.contains_module]
      split
      · exact alike_call hcalls _
      · refine (Alike.guard_key _ _).bind fun _ => ?_
        refine (Alike.loop (fun _ => plain_call _) (fun _ => plain_call _)
          ((h.files_of m).flatMap fun f _ => h.bound f name) (fun _ _ => alike_call hcalls _) none).bind fun acc => ?_
        cases acc with
        | some r => exact .pure r
        | none =>
          refine (Alike.loop (fun _ => plain_call _) (fun _ => plain_call _)
            ((h.files_of m).flatMap fun f _ => (h.files f).globs) (fun _ _ => alike_call hcalls _) none).bind fun acc => ?_
          exact .pure _

theorem alike_value_at (fqn : String) (rest : List String) :
    Alike eval eval' (idx.value_at fqn rest) (idx'.value_at fqn rest) := by
  unfold value_at
  split
  · exact .pure _
  case h_2 m var _ =>
    dsimp only
    have hsame := h.values (String.ofList m, String.ofList var)
    generalize idx.values.lookup (String.ofList m, String.ofList var) = a at hsame
    generalize idx'.values.lookup (String.ofList m, String.ofList var) = b at hsame
    cases hsame with
    | none => exact .pure _
    | some hperm =>
      refine (Alike.guard_key _ _).bind fun _ => ?_
      refine (Alike.loop (fun _ => plain_resolve_source _ _ _) (fun _ => plain_resolve_source _ _ _) hperm
        (fun _ _ => alike_resolve_source hcalls _ _ _) none).bind fun acc => ?_
      exact .pure _

theorem refines_body (c : Call) (g : List Pair) :
    Refines (run .Branch eval (idx.body d c) g) (run .Branch eval' (idx'.body d c) g) := by
  cases c with
  | Target t rest => exact (alike_resolve_target hcalls t rest).body g
  | Spec s path => exact (alike_resolve_spec h d hcalls s path).body g
  | In m path => exact (alike_resolve_in h d hcalls m path).body g
  | Value fqn rest => exact (alike_value_at h hcalls fqn rest).body g

end alike

/-- With a guard of the open calls, a reordered index answers alike. -/
theorem Reordered.refines {idx idx' : ModuleIndex n} (h : idx.Reordered idx') (d : Defs) (fuel : Nat) (c : Call)
    (g : List Pair) : Refines (evaluate .Branch (idx.body d) fuel c g) (evaluate .Branch (idx'.body d) fuel c g) := by
  induction fuel generalizing c g with
  | zero => intro out hout; cases hout
  | succ fuel ih => exact refines_body h d ih c g

end ModuleIndex

end cgx.receiver.names
