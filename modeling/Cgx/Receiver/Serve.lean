import Cgx.Receiver.Modules

open cgx.resolve guarded

namespace cgx.receiver.names

namespace ModuleIndex

variable {n : Nat} (idx : ModuleIndex n) (d : Defs) (name : String) (spec : Spec)

/-- A module that could provide the name, itself or through globs. -/
inductive Serves : String → Prop where
  | offers {m : String} (h : idx.offers d m name = true) : Serves m
  | outright {m : String} (h : none ∈ idx.attempts m name spec) : Serves m
  | glob {m m' : String} (h : some m' ∈ idx.attempts m name spec) (hrest : Serves m') : Serves m

/-- Every module that `after` has more than `before` was looked through in vain. -/
structure Exhausted (before after : List String) : Prop where
  subset : before ⊆ after
  offers : ∀ m ∈ after, m ∉ before → idx.offers d m name = false
  outright : ∀ m ∈ after, m ∉ before → none ∉ idx.attempts m name spec
  glob : ∀ m ∈ after, m ∉ before → ∀ m', some m' ∈ idx.attempts m name spec → m' ∈ after

variable {idx d name spec}

theorem Exhausted.refl (visited : List String) : idx.Exhausted d name spec visited visited where
  subset := fun _ h => h
  offers := fun _ h hnot => absurd h hnot
  outright := fun _ h hnot => absurd h hnot
  glob := fun _ h hnot => absurd h hnot

theorem Exhausted.trans {a b c : List String} (hab : idx.Exhausted d name spec a b)
    (hbc : idx.Exhausted d name spec b c) : idx.Exhausted d name spec a c where
  subset := fun m hm => hbc.subset (hab.subset hm)
  offers := fun m hm hnot => by
    by_cases hb : m ∈ b
    · exact hab.offers m hb hnot
    · exact hbc.offers m hm hb
  outright := fun m hm hnot => by
    by_cases hb : m ∈ b
    · exact hab.outright m hb hnot
    · exact hbc.outright m hm hb
  glob := fun m hm hnot m' hglob => by
    by_cases hb : m ∈ b
    · exact hbc.subset (hab.glob m hb hnot m' hglob)
    · exact hbc.glob m hm hb m' hglob

/-- Nothing that is looked through in vain serves. -/
theorem Exhausted.not_serves {visited : List String} (h : idx.Exhausted d name spec [] visited) {m : String}
    (hm : m ∈ visited) : ¬ idx.Serves d name spec m := by
  intro hserves
  induction hserves with
  | offers hoffers =>
    rw [h.offers _ hm List.not_mem_nil] at hoffers
    cases hoffers
  | outright hnone => exact h.outright _ hm List.not_mem_nil hnone
  | glob hglob _ ih => exact ih (h.glob _ hm List.not_mem_nil _ hglob)

/-! ### The attempts of one module -/

theorem any_serves_true {visit : String → List String → Bool × List String} {attempts : List (Option String)}
    {visited : List String} (h : (any_serves visit attempts visited).1 = true) :
    none ∈ attempts ∨ ∃ m visited', some m ∈ attempts ∧ (visit m visited').1 = true := by
  induction attempts generalizing visited with
  | nil => cases h
  | cons attempt rest ih =>
    cases attempt with
    | none => exact .inl List.mem_cons_self
    | some m =>
      rw [any_serves] at h
      cases hvisit : visit m visited with
      | mk served after =>
        cases served with
        | true => exact .inr ⟨m, _, List.mem_cons_self, congrArg Prod.fst hvisit⟩
        | false =>
          rw [hvisit] at h
          obtain hnone | ⟨m', visited', hmem, hserved⟩ := ih h
          · exact .inl (List.mem_cons_of_mem _ hnone)
          · exact .inr ⟨m', visited', List.mem_cons_of_mem _ hmem, hserved⟩

theorem any_serves_false {visit : String → List String → Bool × List String} {attempts : List (Option String)}
    {visited after : List String}
    (hvisit : ∀ m, some m ∈ attempts → ∀ v v', visited ⊆ v → visit m v = (false, v') →
      m ∈ v' ∧ idx.Exhausted d name spec v v')
    (h : any_serves visit attempts visited = (false, after)) :
    none ∉ attempts ∧ (∀ m, some m ∈ attempts → m ∈ after) ∧ idx.Exhausted d name spec visited after := by
  induction attempts generalizing visited with
  | nil =>
    cases h
    exact ⟨List.not_mem_nil, fun m hm => absurd hm List.not_mem_nil, .refl _⟩
  | cons attempt rest ih =>
    cases attempt with
    | none => cases h
    | some m =>
      rw [any_serves] at h
      cases hfirst : visit m visited with
      | mk served between =>
        rw [hfirst] at h
        cases served with
        | true => cases h
        | false =>
          obtain ⟨hm, hout⟩ := hvisit m List.mem_cons_self visited between (fun _ h => h) hfirst
          obtain ⟨hnone, hmodules, hrest⟩ := ih (fun m' hm' v v' hsub =>
            hvisit m' (List.mem_cons_of_mem _ hm') v v' fun x hx => hsub (hout.subset hx)) h
          refine ⟨?_, ?_, hout.trans hrest⟩
          · intro hmem
            obtain hmem | hmem := List.mem_cons.mp hmem
            · cases hmem
            · exact hnone hmem
          · intro m' hm'
            obtain hm' | hm' := List.mem_cons.mp hm'
            · cases hm'
              exact hrest.subset hm
            · exact hmodules m' hm'

/-! ### The search -/

theorem serves_of_serve_from {fuel : Nat} {m : String} {visited : List String}
    (h : (idx.serve_from d name spec fuel m visited).1 = true) : idx.Serves d name spec m := by
  induction fuel generalizing m visited with
  | zero => cases h
  | succ fuel ih =>
    rw [serve_from] at h
    split at h
    · cases h
    · split at h
      case isTrue hoffers => exact .offers hoffers
      · obtain hnone | ⟨m', visited', hmem, hserved⟩ := any_serves_true h
        · exact .outright hnone
        · exact .glob hmem (ih hserved)

/-- With fuel for every module that is not visited, a search in vain looks through all it
reaches. -/
theorem exhausted_of_serve_from {domain : Finset String}
    (hclosed : ∀ m m', some m' ∈ idx.attempts m name spec → m' ∈ domain) {fuel : Nat} {m : String}
    {visited after : List String} (hm : m ∈ domain) (hfuel : missing domain visited < fuel)
    (h : idx.serve_from d name spec fuel m visited = (false, after)) :
    m ∈ after ∧ idx.Exhausted d name spec visited after := by
  induction fuel generalizing m visited after with
  | zero => omega
  | succ fuel ih =>
    rw [serve_from] at h
    split at h
    case isTrue hmem =>
      cases h
      exact ⟨hmem, .refl visited⟩
    case isFalse hmem =>
      split at h
      · cases h
      case isFalse hoffers =>
        have hless : missing domain (m :: visited) < fuel := by
          have hcons := missing_cons hm hmem
          omega
        obtain ⟨hnone, hmodules, hout⟩ := any_serves_false (fun m' hm' v v' hsub hvisit =>
          ih (hclosed m m' hm') ((missing_mono hsub).trans_lt hless) hvisit) h
        refine ⟨hout.subset List.mem_cons_self, fun x hx => hout.subset (List.mem_cons_of_mem m hx), ?_, ?_, ?_⟩
        · intro x hx hnot
          by_cases hxm : x = m
          · subst hxm
            exact Bool.eq_false_iff.mpr hoffers
          · exact hout.offers x hx fun hmem => (List.mem_cons.mp hmem).elim hxm hnot
        · intro x hx hnot
          by_cases hxm : x = m
          · subst hxm
            exact hnone
          · exact hout.outright x hx fun hmem => (List.mem_cons.mp hmem).elim hxm hnot
        · intro x hx hnot
          by_cases hxm : x = m
          · subst hxm
            exact hmodules
          · exact hout.glob x hx fun hmem => (List.mem_cons.mp hmem).elim hxm hnot

theorem mem_of_lookup_eq_some {α β : Type} [BEq α] [LawfulBEq α] {l : List (α × β)} {a : α} {b : β} (h : l.lookup a = some b) :
    (a, b) ∈ l := by
  obtain ⟨l₁, l₂, rfl, _⟩ := List.lookup_eq_some_iff.mp h
  exact List.mem_append_right l₁ List.mem_cons_self

theorem mem_modules_of_exact {s : Spec} {m : String} (h : idx.in_repo s = .Exact m) :
    m = s.path ∧ m ∈ idx.modules.map Prod.fst := by
  rw [in_repo] at h
  split at h
  case isTrue hcontains =>
    cases h
    refine ⟨rfl, ?_⟩
    obtain ⟨files, hfiles⟩ := Option.isSome_iff_exists.mp hcontains
    exact List.mem_map.mpr ⟨(s.path, files), mem_of_lookup_eq_some hfiles, rfl⟩
  · split at h
    · cases h
    · dsimp only at h
      split at h
      · cases h
      · cases h

theorem mem_modules_of_attempt {m m' : String} (h : some m' ∈ idx.attempts m name spec) :
    m' ∈ idx.modules.map Prod.fst := by
  obtain ⟨f, _, hmem⟩ := List.mem_flatMap.mp h
  obtain hmem | hmem := List.mem_append.mp hmem
  · obtain ⟨_, _, hnone⟩ := List.mem_map.mp hmem
    cases hnone
  · obtain ⟨g, _, hglob⟩ := List.mem_map.mp hmem
    split at hglob
    case h_1 hexact =>
      cases hglob
      exact (mem_modules_of_exact hexact).2
    · cases hglob

/-- The search says which modules serve. -/
theorem may_serve_iff {m : String} : idx.may_serve d m name spec = true ↔ idx.Serves d name spec m := by
  constructor
  · exact serves_of_serve_from
  · intro hserves
    by_contra hnot
    have hfalse : idx.serve_from d name spec (idx.modules.length + 2) m [] =
        (false, (idx.serve_from d name spec (idx.modules.length + 2) m []).2) :=
      Prod.ext (Bool.eq_false_iff.mpr hnot) rfl
    have hfuel : missing (insert m (idx.modules.map Prod.fst).toFinset) [] < idx.modules.length + 2 := by
      have hfilter := Finset.card_filter_le (insert m (idx.modules.map Prod.fst).toFinset) fun k => k ∉ ([] : List String)
      have hinsert := Finset.card_insert_le m (idx.modules.map Prod.fst).toFinset
      have hlist := List.toFinset_card_le (idx.modules.map Prod.fst)
      rw [List.length_map] at hlist
      rw [missing]
      omega
    obtain ⟨hm, hout⟩ := exhausted_of_serve_from
      (fun _ _ h => Finset.mem_insert_of_mem (List.mem_toFinset.mpr (mem_modules_of_attempt h)))
      (Finset.mem_insert_self m _) hfuel hfalse
    exact hout.not_serves hm hserves

end ModuleIndex

end cgx.receiver.names
