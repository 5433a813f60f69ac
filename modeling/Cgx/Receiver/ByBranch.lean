import Cgx.Receiver.Names

open cgx.frontend.facts cgx.resolve guarded

namespace cgx.receiver.names

/-- From some fuel on, `f` returns `r`. -/
def Returns {α : Type} (f : Nat → Option α) (r : α) : Prop :=
  ∃ least, ∀ fuel, least ≤ fuel → f fuel = some r

theorem Returns.unique {α : Type} {f : Nat → Option α} {r r' : α} (h : Returns f r) (h' : Returns f r') : r = r' := by
  obtain ⟨least, hleast⟩ := h
  obtain ⟨least', hleast'⟩ := h'
  have hsame := (hleast _ (le_max_left least least')).symm.trans (hleast' _ (le_max_right least least'))
  exact Option.some.inj hsame

namespace ModuleIndex

variable {n : Nat} {idx idx' : ModuleIndex n} {d : Defs}

/-! ### What a name asks for -/

/-- There is a class or another definition of this name. -/
def defined (d : Defs) (fqn : String) : Bool :=
  (d.class_ids.lookup fqn).isSome || (d.table.def_by_fqn fqn).isSome

/-- The innermost container in which a name is defined. -/
def defining (idx : ModuleIndex n) (d : Defs) (file : Fin n) (scope_fqn head : String) : Option String :=
  (visible d (idx.files file) scope_fqn).find? fun scope => defined d (scope ++ "::" ++ head)

/-- The calls with a guard of their own that a name is resolved by. -/
def lookups (idx : ModuleIndex n) (d : Defs) (file : Fin n) (scope_fqn : String) (path : List String) : List Call :=
  match path with
  | [] => []
  | head :: rest =>
    match idx.defining d file scope_fqn head, (idx.files file).bindings.lookup head with
    | some scope, _ =>
      if (d.class_ids.lookup (scope ++ "::" ++ head)).isSome then [] else [.Value (scope ++ "::" ++ head) rest]
    | none, some targets => targets.map fun t => .Target t rest
    | none, none => (idx.files file).globs.map fun g => .Target (.Module g) path

/-- The name is looked for in the glob imports of the file. -/
def ThroughGlobs (idx : ModuleIndex n) (d : Defs) (file : Fin n) (scope_fqn : String) (path : List String) : Prop :=
  ∃ head rest, path = head :: rest ∧ idx.defining d file scope_fqn head = none ∧
    (idx.files file).bindings.lookup head = none

/-- No pair is asked for again when the branch that opened it is finished. -/
def AskedOnce (idx : ModuleIndex n) (d : Defs) (file : Fin n) (scope_fqn : String) (path : List String) : Prop :=
  ∀ c ∈ idx.lookups d file scope_fqn path,
    ∃ fuel out, evaluate .Branch (idx.body d) fuel c [] = some out ∧ out.trace.Nodup

/-! ### The lexical part -/

theorem findSomeM?_eq_none {α β : Type} {f : α → Option (Option β)} {l : List α} (h : ∀ x ∈ l, f x = some none) :
    l.findSomeM? f = some none := by
  induction l with
  | nil => rfl
  | cons x rest ih =>
    rw [List.findSomeM?, h x List.mem_cons_self]
    exact ih fun y hy => h y (List.mem_cons_of_mem x hy)

/-- The search ends at the first member that `p` holds of. -/
theorem findSomeM?_eq {α β : Type} {f : α → Option (Option β)} {p : α → Bool} (hskip : ∀ x, p x = false → f x = some none)
    {l : List α} {x : α} (hx : l.find? p = some x) (hfound : f x ≠ some none) : l.findSomeM? f = f x := by
  induction l with
  | nil => cases hx
  | cons y rest ih =>
    cases hy : p y with
    | true =>
      rw [List.find?_cons_of_pos hy] at hx
      cases hx
      rw [List.findSomeM?]
      cases hfx : f x with
      | none => rfl
      | some found =>
        cases found with
        | none => exact absurd hfx hfound
        | some b => rfl
    | false =>
      have hneg : ¬ p y = true := by rw [hy]; exact Bool.false_ne_true
      rw [List.find?_cons_of_neg hneg] at hx
      rw [List.findSomeM?, hskip y hy]
      exact ih hx

section def_at

variable {value value' : String → List String → Option Resolved} {fqn : String} {rest : List String}

theorem def_at_undefined (h : defined d fqn = false) : def_at d value fqn rest = some none := by
  rw [defined, Bool.or_eq_false_iff] at h
  have hclass := Option.not_isSome_iff_eq_none.mp (Bool.eq_false_iff.mp h.1)
  have hdef := Option.not_isSome_iff_eq_none.mp (Bool.eq_false_iff.mp h.2)
  simp only [def_at, hclass, hdef, Option.pure_def]

theorem def_at_class {c : UInt32} (h : d.class_ids.lookup fqn = some c) (rest : List String) :
    ∃ r, ∀ value : String → List String → Option Resolved, def_at d value fqn rest = some (some r) := by
  simp only [def_at, h]
  split
  · exact ⟨_, fun _ => rfl⟩
  · split
    · exact ⟨_, fun _ => rfl⟩
    · exact ⟨_, fun _ => rfl⟩

theorem def_at_value (hclass : d.class_ids.lookup fqn = none) (hdef : defined d fqn = true) :
    def_at d value fqn rest = (value fqn rest).map some := by
  rw [defined, hclass, Option.isSome_none, Bool.false_or] at hdef
  obtain ⟨entry, hentry⟩ := Option.isSome_iff_exists.mp hdef
  simp only [def_at, hclass, hentry]
  cases value fqn rest <;> rfl

theorem def_at_ne_none (h : defined d fqn = true) : def_at d value fqn rest ≠ some none := by
  cases hclass : d.class_ids.lookup fqn with
  | some c =>
    obtain ⟨r, hr⟩ := def_at_class hclass rest
    rw [hr]
    intro h
    cases h
  | none =>
    rw [def_at_value hclass h]
    cases value fqn rest <;> simp

end def_at

theorem defined_of_defining {file : Fin n} {scope_fqn head scope : String}
    (h : idx.defining d file scope_fqn head = some scope) : defined d (scope ++ "::" ++ head) = true :=
  List.find?_some (p := fun scope => defined d (scope ++ "::" ++ head)) h

/-- The three ways in which a name is resolved. -/
theorem resolve_name_cons (lookup : Call → Option Resolved) (file : Fin n) (scope_fqn head : String) (rest : List String) :
    idx.resolve_name d lookup file scope_fqn (head :: rest) =
      match idx.defining d file scope_fqn head, (idx.files file).bindings.lookup head with
      | some scope, _ => (def_at d (fun fqn rest => lookup (.Value fqn rest)) (scope ++ "::" ++ head) rest).join
      | none, some targets => (loop join (fun t => lookup (.Target t rest)) targets none).map fun acc => acc.getD .NotFound
      | none, none =>
        (loop join_found (fun g => lookup (.Target (.Module g) (head :: rest))) (idx.files file).globs none).map fun acc =>
          acc.getD (match rules (idx.files file).lang with
            | some r => if head ∈ r.builtin_types then .External else .NotFound
            | none => .NotFound) := by
  cases hdefining : idx.defining d file scope_fqn head with
  | some scope =>
    have hdef := defined_of_defining hdefining
    have hlexical : (visible d (idx.files file) scope_fqn).findSomeM? (fun scope =>
        def_at d (fun fqn rest => lookup (.Value fqn rest)) (scope ++ "::" ++ head) rest) =
        def_at d (fun fqn rest => lookup (.Value fqn rest)) (scope ++ "::" ++ head) rest :=
      findSomeM?_eq (f := fun scope => def_at d (fun fqn rest => lookup (.Value fqn rest)) (scope ++ "::" ++ head) rest)
        (p := fun scope => defined d (scope ++ "::" ++ head)) (fun scope h => def_at_undefined h) hdefining
        (def_at_ne_none hdef)
    simp only [resolve_name, hlexical]
    cases hfound : def_at d (fun fqn rest => lookup (.Value fqn rest)) (scope ++ "::" ++ head) rest with
    | none => rfl
    | some found =>
      cases found with
      | some r => rfl
      | none => exact absurd hfound (def_at_ne_none hdef)
  | none =>
    have hlexical : (visible d (idx.files file) scope_fqn).findSomeM? (fun scope =>
        def_at d (fun fqn rest => lookup (.Value fqn rest)) (scope ++ "::" ++ head) rest) = some none :=
      findSomeM?_eq_none fun scope hscope => def_at_undefined (Bool.eq_false_iff.mpr (List.find?_eq_none.mp hdefining scope hscope))
    simp only [resolve_name, hlexical]
    cases (idx.files file).bindings.lookup head with
    | some targets => exact Option.map_eq_bind.symm
    | none => exact Option.map_eq_bind.symm

/-! ### Lookups that answer alike -/

theorem Reordered.refl (idx : ModuleIndex n) : idx.Reordered idx where
  modules m := by cases idx.modules.lookup m; exacts [.none, .some (.refl _)]
  by_last last := by cases idx.by_last.lookup last; exacts [.none, .some (.refl _)]
  files f := ⟨rfl, rfl, fun name => by cases (idx.files f).bindings.lookup name; exacts [.none, .some (.refl _)], .refl _⟩
  values key := by cases idx.values.lookup key; exacts [.none, .some (.refl _)]

theorem Reordered.defining (h : idx.Reordered idx') (file : Fin n) (scope_fqn head : String) :
    idx'.defining d file scope_fqn head = idx.defining d file scope_fqn head := by
  unfold ModuleIndex.defining visible
  rw [(h.files file).module_path]

theorem Reordered.mem_lookups (h : idx.Reordered idx') {file : Fin n} {scope_fqn : String} {path : List String} {c : Call}
    (hc : c ∈ idx'.lookups d file scope_fqn path) : c ∈ idx.lookups d file scope_fqn path := by
  cases path with
  | nil => exact hc
  | cons head rest =>
    unfold lookups at hc ⊢
    dsimp only at hc ⊢
    rw [h.defining] at hc
    have hbound := (h.files file).bindings head
    generalize (idx.files file).bindings.lookup head = a at hbound ⊢
    generalize (idx'.files file).bindings.lookup head = b at hbound hc
    cases hdefining : idx.defining d file scope_fqn head with
    | some scope =>
      rw [hdefining] at hc
      exact hc
    | none =>
      rw [hdefining] at hc
      cases hbound with
      | none => exact (((h.files file).globs.map _).mem_iff).mp hc
      | some hperm => exact ((hperm.map _).mem_iff).mp hc

/-- What a name resolves to depends on what its lookups answer, not on the order of the
listings. -/
theorem Reordered.resolve_name (h : idx.Reordered idx') {lookup lookup' : Call → Option Resolved} {file : Fin n}
    {scope_fqn : String} {path : List String}
    (hanswers : ∀ c ∈ idx.lookups d file scope_fqn path, ∀ r, lookup c = some r → lookup' c = some r) {out : Resolved}
    (hout : idx.resolve_name d lookup file scope_fqn path = some out) :
    idx'.resolve_name d lookup' file scope_fqn path = some out := by
  cases path with
  | nil => exact hout
  | cons head rest =>
    rw [resolve_name_cons] at hout ⊢
    rw [h.defining, (h.files file).lang]
    unfold lookups at hanswers
    dsimp only at hanswers
    have hbound := (h.files file).bindings head
    generalize (idx.files file).bindings.lookup head = a at hbound hout hanswers
    generalize (idx'.files file).bindings.lookup head = b at hbound
    cases hdefining : idx.defining d file scope_fqn head with
    | some scope =>
      rw [hdefining] at hout hanswers
      dsimp only at hout hanswers ⊢
      cases hclass : d.class_ids.lookup (scope ++ "::" ++ head) with
      | some c =>
        obtain ⟨r, hr⟩ := def_at_class hclass rest
        rw [hr] at hout ⊢
        exact hout
      | none =>
        have hdef := defined_of_defining hdefining
        rw [def_at_value hclass hdef] at hout ⊢
        rw [hclass] at hanswers
        cases hvalue : lookup (.Value (scope ++ "::" ++ head) rest) with
        | none =>
          rw [hvalue] at hout
          cases hout
        | some r =>
          rw [hvalue] at hout
          rw [hanswers _ List.mem_cons_self r hvalue]
          exact hout
    | none =>
      rw [hdefining] at hout hanswers
      cases hbound with
      | none =>
        dsimp only at hout hanswers ⊢
        obtain ⟨acc, hloop, rfl⟩ := Option.map_eq_some_iff.mp hout
        rw [loop_perm (h.files file).globs (fun g hg r hr => hanswers _ (List.mem_map_of_mem hg) r hr) hloop]
        rfl
      | some hperm =>
        dsimp only at hout hanswers ⊢
        obtain ⟨acc, hloop, rfl⟩ := Option.map_eq_some_iff.mp hout
        rw [loop_perm hperm (fun t ht r hr => hanswers _ (List.mem_map_of_mem ht) r hr) hloop]
        rfl

theorem loop_total {α σ ρ : Type} (step : σ → ρ → σ) (f : α → ρ) (xs : List α) (init : σ) :
    loop step (fun x => some (f x)) xs init = some ((xs.map f).foldl step init) :=
  loop_eq_some.mpr ⟨xs.map f, List.forall₂_map_right_iff.mpr (List.forall₂_same.mpr fun _ _ => rfl), rfl⟩

/-- A name is resolved if every lookup answers. -/
theorem exists_resolve_name (idx : ModuleIndex n) (d : Defs) (answer : Call → Resolved) (file : Fin n) (scope_fqn : String)
    (path : List String) : ∃ out, idx.resolve_name d (fun c => some (answer c)) file scope_fqn path = some out := by
  cases path with
  | nil => exact ⟨.NotFound, rfl⟩
  | cons head rest =>
    rw [resolve_name_cons]
    cases hdefining : idx.defining d file scope_fqn head with
    | some scope =>
      have hdef := defined_of_defining hdefining
      dsimp only
      cases hclass : d.class_ids.lookup (scope ++ "::" ++ head) with
      | some c =>
        obtain ⟨r, hr⟩ := def_at_class hclass rest
        exact ⟨r, by rw [hr]; rfl⟩
      | none => exact ⟨answer (.Value (scope ++ "::" ++ head) rest), by rw [def_at_value hclass hdef]; rfl⟩
    | none =>
      cases (idx.files file).bindings.lookup head with
      | some targets => exact ⟨_, by dsimp only; rw [loop_total]; rfl⟩
      | none => exact ⟨_, by dsimp only; rw [loop_total]; rfl⟩

/-! ### Enough fuel -/

theorem fresh_returns (idx : ModuleIndex n) (d : Defs) (scope : Scope) (c : Call) :
    ∃ r, Returns (fun fuel => idx.fresh scope d fuel c) r := by
  obtain ⟨least, out, hout⟩ := call_returns idx d scope c []
  refine ⟨out.value, least, fun fuel hfuel => ?_⟩
  simp only [fresh, evaluate_mono hfuel c [] out hout, Option.map_some]

/-- Lookups that all return do so with a common fuel. -/
theorem returns_of_lookups {lookup : Nat → Call → Option Resolved} {answer : Call → Resolved} {file : Fin n}
    {scope_fqn : String} {path : List String}
    (h : ∀ c ∈ idx.lookups d file scope_fqn path, Returns (fun fuel => lookup fuel c) (answer c)) {out : Resolved}
    (hout : idx.resolve_name d (fun c => some (answer c)) file scope_fqn path = some out) :
    Returns (fun fuel => idx.resolve_name d (lookup fuel) file scope_fqn path) out := by
  have hcommon : ∀ l : List Call, (∀ c ∈ l, Returns (fun fuel => lookup fuel c) (answer c)) →
      ∃ least, ∀ fuel, least ≤ fuel → ∀ c ∈ l, lookup fuel c = some (answer c) := by
    intro l hl
    induction l with
    | nil => exact ⟨0, fun _ _ c hc => absurd hc List.not_mem_nil⟩
    | cons c rest ih =>
      obtain ⟨least, hleast⟩ := hl c List.mem_cons_self
      obtain ⟨least', hleast'⟩ := ih fun c' hc' => hl c' (List.mem_cons_of_mem c hc')
      refine ⟨max least least', fun fuel hfuel c' hc' => ?_⟩
      obtain rfl | hc' := List.mem_cons.mp hc'
      · exact hleast fuel ((le_max_left _ _).trans hfuel)
      · exact hleast' fuel ((le_max_right _ _).trans hfuel) c' hc'
  obtain ⟨least, hleast⟩ := hcommon _ h
  refine ⟨least, fun fuel hfuel => (Reordered.refl idx).resolve_name (fun c hc r hr => ?_) hout⟩
  cases hr
  exact hleast fuel hfuel c hc

theorem fresh_mono (scope : Scope) {fuel fuel' : Nat} (h : fuel ≤ fuel') {c : Call} {r : Resolved}
    (hr : idx.fresh scope d fuel c = some r) : idx.fresh scope d fuel' c = some r := by
  obtain ⟨out, hout, rfl⟩ := Option.map_eq_some_iff.mp hr
  simp only [fresh, evaluate_mono h c [] out hout, Option.map_some]

/-- What a name resolves to with some fuel, it resolves to with more. -/
theorem returns_of_resolve_name (scope : Scope) {fuel : Nat} {file : Fin n} {scope_fqn : String} {path : List String}
    {r : Resolved} (h : idx.resolve_name d (idx.fresh scope d fuel) file scope_fqn path = some r) :
    Returns (fun fuel => idx.resolve_name d (idx.fresh scope d fuel) file scope_fqn path) r :=
  ⟨fuel, fun _ hfuel => (Reordered.refl idx).resolve_name (fun _ _ _ hc => fresh_mono scope hfuel hc) h⟩

/-! ### Glob imports -/

/-- Classes joined from what globs resolve to are those of every glob. -/
theorem subset_of_join_found {rs : List Resolved} {acc : Option Resolved} {ids : Finset UInt32}
    (h : rs.foldl join_found acc = some (.Class ids)) :
    (∀ r, acc = some r → ∃ held, r = .Class held ∧ held ⊆ ids) ∧
      ∀ found, Resolved.Class found ∈ rs → found ⊆ ids := by
  induction rs generalizing acc with
  | nil =>
    refine ⟨fun r hr => ⟨ids, ?_, fun _ h => h⟩, fun _ hmem => absurd hmem List.not_mem_nil⟩
    exact Option.some.inj (hr.symm.trans h)
  | cons r rest ih =>
    rw [List.foldl_cons] at h
    obtain ⟨hacc, hrest⟩ := ih h
    by_cases hr : r = .NotFound
    · rw [join_found, if_neg (not_not.mpr hr)] at hacc
      refine ⟨hacc, fun found hmem => ?_⟩
      obtain hmem | hmem := List.mem_cons.mp hmem
      · rw [hr] at hmem
        cases hmem
      · exact hrest found hmem
    · rw [join_found, if_pos hr] at hacc
      cases acc with
      | none =>
        obtain ⟨held, hheld, hsub⟩ := hacc r rfl
        refine ⟨fun _ hnone => (nomatch hnone), fun found hmem => ?_⟩
        obtain hmem | hmem := List.mem_cons.mp hmem
        · cases hmem.trans hheld
          exact hsub
        · exact hrest found hmem
      | some before =>
        obtain ⟨held, hheld, hsub⟩ := hacc _ (join_some before r)
        obtain ⟨x, y, hx, hy, rfl⟩ := meet_eq_class.mp hheld
        refine ⟨fun a ha => ?_, fun found hmem => ?_⟩
        · cases ha
          exact ⟨x, hx, Finset.union_subset_left hsub⟩
        · obtain hmem | hmem := List.mem_cons.mp hmem
          · cases hmem.trans hy
            exact Finset.union_subset_right hsub
          · exact hrest found hmem

/-- A name found in globs has the classes of every glob. -/
theorem globs_subset {answer : Call → Resolved} {file : Fin n} {scope_fqn : String} {path : List String}
    (hglobs : idx.ThroughGlobs d file scope_fqn path) {ids : Finset UInt32}
    (h : idx.resolve_name d (fun c => some (answer c)) file scope_fqn path = some (.Class ids)) {g : Spec}
    (hg : g ∈ (idx.files file).globs) {found : Finset UInt32} (hfound : answer (.Target (.Module g) path) = .Class found) :
    found ⊆ ids := by
  obtain ⟨head, rest, rfl, hdefining, hbound⟩ := hglobs
  rw [resolve_name_cons, hdefining, hbound] at h
  dsimp only at h
  rw [loop_total, Option.map_some] at h
  cases hacc : ((idx.files file).globs.map fun g => answer (.Target (.Module g) (head :: rest))).foldl join_found none with
  | none =>
    rw [hacc] at h
    exfalso
    have hdefault := Option.some.inj h
    dsimp only [Option.getD_none] at hdefault
    split at hdefault
    · split at hdefault <;> cases hdefault
    · cases hdefault
  | some r =>
    rw [hacc] at h
    cases h
    exact (subset_of_join_found hacc).2 found (List.mem_map.mpr ⟨g, hg, hfound⟩)

/-! ### A shared guard and one of the open calls -/

/-- A lookup that asks for no pair again answers as one whose guard forgets what is finished. -/
theorem shared_of_asked_once {file : Fin n} {scope_fqn : String} {path : List String}
    (honce : idx.AskedOnce d file scope_fqn path) {c : Call} (hc : c ∈ idx.lookups d file scope_fqn path) {r : Resolved}
    (hr : Returns (fun fuel => idx.fresh .Branch d fuel c) r) : Returns (fun fuel => idx.fresh .Shared d fuel c) r := by
  obtain ⟨fuel, out, hout, hnodup⟩ := honce c hc
  have hbranch : Returns (fun fuel => idx.fresh .Branch d fuel c) out.value :=
    ⟨fuel, fun fuel' hfuel => fresh_mono .Branch hfuel (by rw [fresh, hout]; rfl)⟩
  rw [hr.unique hbranch]
  have hshared := agrees fuel c [] out hout hnodup [] (fun _ h => h) fun _ _ => List.not_mem_nil
  exact ⟨fuel, fun fuel' hfuel => fresh_mono .Shared hfuel (by rw [fresh, hshared]; rfl)⟩

theorem Reordered.asked_once (h : idx.Reordered idx') {file : Fin n} {scope_fqn : String} {path : List String}
    (honce : idx.AskedOnce d file scope_fqn path) : idx'.AskedOnce d file scope_fqn path := by
  intro c hc
  obtain ⟨fuel, out, hout, hnodup⟩ := honce c (h.mem_lookups hc)
  obtain ⟨out', hout', _, htrace⟩ := h.refines d fuel c [] out hout
  exact ⟨fuel, out', hout', htrace.nodup_iff.mpr hnodup⟩

/-- A name resolves, whatever the imports. If it is found in globs, it has the classes of each
of them. If no lookup asks for a pair again after the branch that opened it, the result is that
of a guard that forgets finished branches, and the order of the listings does not matter. -/
theorem resolve_name_in_file_by_branch (idx : ModuleIndex n) (d : Defs) (file : Fin n) (scope_fqn : String)
    (path : List String) :
    ∃ r, Returns (fun fuel => idx.resolve_name_in_file d fuel file scope_fqn path) r ∧
      (idx.ThroughGlobs d file scope_fqn path → ∀ ids, r = .Class ids → ∀ g ∈ (idx.files file).globs, ∀ found,
        Returns (fun fuel => idx.fresh .Shared d fuel (.Target (.Module g) path)) (.Class found) → found ⊆ ids) ∧
      (idx.AskedOnce d file scope_fqn path →
        Returns (fun fuel => idx.resolve_name_by_branch d fuel file scope_fqn path) r ∧
        ∀ idx', idx.Reordered idx' → Returns (fun fuel => idx'.resolve_name_in_file d fuel file scope_fqn path) r) := by
  choose shared hshared using fresh_returns idx d .Shared
  choose branch hbranch using fresh_returns idx d .Branch
  obtain ⟨r, hr⟩ := exists_resolve_name idx d shared file scope_fqn path
  refine ⟨r, returns_of_lookups (fun c _ => hshared c) hr, ?_, fun honce => ?_⟩
  · rintro hglobs ids rfl g hg found hfound
    exact globs_subset hglobs hr hg ((hshared _).unique hfound)
  · -- The answers of the lookups are those of the reference, also in every other order.
    have hsame : ∀ c ∈ idx.lookups d file scope_fqn path, shared c = branch c := fun c hc =>
      (hshared c).unique (shared_of_asked_once honce hc (hbranch c))
    have hreference : idx.resolve_name d (fun c => some (branch c)) file scope_fqn path = some r :=
      (Reordered.refl idx).resolve_name (fun c hc _ hanswer => by rw [← hsame c hc]; exact hanswer) hr
    refine ⟨returns_of_lookups (fun c _ => hbranch c) hreference, fun idx' h => ?_⟩
    have hreordered : idx'.resolve_name d (fun c => some (branch c)) file scope_fqn path = some r :=
      h.resolve_name (fun _ _ _ hanswer => hanswer) hreference
    refine returns_of_lookups (fun c hc => ?_) hreordered
    refine shared_of_asked_once (h.asked_once honce) hc ?_
    obtain ⟨least, hleast⟩ := hbranch c
    refine ⟨least, fun fuel hfuel => ?_⟩
    obtain ⟨out, hout, hvalue⟩ := Option.map_eq_some_iff.mp (hleast fuel hfuel)
    obtain ⟨out', hout', hvalue', _⟩ := h.refines d fuel c [] out hout
    simp only [fresh, hout', Option.map_some, hvalue', hvalue]

/-! ### A name re-exported on two ways -/

/-- A Python module that imports `X` from others. -/
def importing (m : String) (from_modules : List String) : FileScope where
  module_path := some m
  lang := "python"
  bindings := if from_modules = [] then [] else [("X", from_modules.map fun s => .Member ⟨s, false⟩ "X")]
  globs := []

/-- `u` imports `X` from `a`, which has it from `b` and from `c`; both have it from `d`, which
has it from `e`. -/
def diamond : ModuleIndex 6 where
  modules := [("a", [1]), ("b", [2]), ("c", [3]), ("d", [4]), ("e", [5]), ("u", [0])]
  by_last := [("a", ["a"]), ("b", ["b"]), ("c", ["c"]), ("d", ["d"]), ("e", ["e"]), ("u", ["u"])]
  files f := match f with
    | 0 => importing "u" ["a"]
    | 1 => importing "a" ["b", "c"]
    | 2 => importing "b" ["d"]
    | 3 => importing "c" ["d"]
    | 4 => importing "d" ["e"]
    | 5 => importing "e" []
  values := []

/-- `e` defines the class `X`. -/
def diamond_defs : Defs where
  class_ids := [("e::X", 0)]
  table := ⟨[⟨⟨0⟩, "e::X", .Type, none, "python", "e.py"⟩], []⟩

/-- The second way meets the pairs of the first, and the class is lost. -/
theorem diamond_lost :
    Returns (fun fuel => diamond.resolve_name_in_file diamond_defs fuel 0 "u" ["X"]) .NotFound ∧
      Returns (fun fuel => diamond.resolve_name_by_branch diamond_defs fuel 0 "u" ["X"]) (.Class {0}) := by
  constructor
  · exact returns_of_resolve_name .Shared
      (by decide : diamond.resolve_name_in_file diamond_defs 16 0 "u" ["X"] = some .NotFound)
  · exact returns_of_resolve_name .Branch
      (by decide : diamond.resolve_name_by_branch diamond_defs 16 0 "u" ["X"] = some (.Class {0}))

/-- Each of the two ways alone is asked once. -/
theorem diamond_way : diamond.AskedOnce diamond_defs 2 "b" ["X"] ∧
    Returns (fun fuel => diamond.resolve_name_in_file diamond_defs fuel 2 "b" ["X"]) (.Class {0}) := by
  have honce : diamond.AskedOnce diamond_defs 2 "b" ["X"] := by
    intro c hc
    have hlookups : diamond.lookups diamond_defs 2 "b" ["X"] = [.Target (.Member ⟨"d", false⟩ "X") []] := by decide
    rw [hlookups] at hc
    cases List.mem_singleton.mp hc
    exact ⟨16, _, rfl, by decide⟩
  obtain ⟨r, hr, _, hbranch⟩ := resolve_name_in_file_by_branch diamond diamond_defs 2 "b" ["X"]
  have hclass : Returns (fun fuel => diamond.resolve_name_by_branch diamond_defs fuel 2 "b" ["X"]) (.Class {0}) :=
    returns_of_resolve_name .Branch
      (by decide : diamond.resolve_name_by_branch diamond_defs 16 2 "b" ["X"] = some (.Class {0}))
  rw [(hbranch honce).1.unique hclass] at hr
  exact ⟨honce, hr⟩

end ModuleIndex

end cgx.receiver.names
