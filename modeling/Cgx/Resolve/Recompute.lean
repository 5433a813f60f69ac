import Mathlib.Order.Bounds.Basic
import Mathlib.Order.Lattice
import Cgx.Lib.Condense
import Cgx.Resolve.Ifds

open cgx.core carry sorting tarjan Relation

namespace cgx.resolve

section spec

variable (fns : FnMap) (formal : FnDataflow → Nat → String → Prop)

/-- Inside `f`, the value `x` derives from `y` along a balanced path: by derivations of `f`,
and from the result of a call to an argument whose parameter, inside the callee, a return
derives from. -/
inductive Derives : String → String → String → Prop
  | refl {f x : String} : Derives f x x
  | hop {f : String} {fd : FnDataflow} {e : IntraEdge} {y : String} (hf : fns.get f = some fd)
      (he : e ∈ fd.intra) (hrest : Derives f e.source_fqn y) : Derives f e.derived_fqn y
  | call {f g : String} {fd gd : FnDataflow} {cs : CallSite} {ret v arg y : String} {k : Nat}
      (hf : fns.get f = some fd) (hcs : cs ∈ fd.calls) (hcallee : cs.callee_fqn = some g)
      (hg : fns.get g = some gd) (hret : ret ∈ gd.returns) (hinner : Derives g ret v)
      (hformal : formal gd k v) (harg : cs.args[k]? = some (some arg)) (hrest : Derives f arg y) :
      Derives f cs.result_fqn y

/-- The value of the formal `k` flows to the return of `f`. -/
def FlowsToReturn (f : String) (k : Nat) : Prop :=
  ∃ fd, fns.get f = some fd ∧ ∃ ret ∈ fd.returns, ∃ v, Derives fns formal f ret v ∧ formal fd k v

/-- One hop inside a function, given the formals that flow to the returns of its callees. -/
def HopUnder (S : String → Nat → Prop) (fd : FnDataflow) (x y : String) : Prop :=
  (∃ e ∈ fd.intra, e.derived_fqn = x ∧ e.source_fqn = y) ∨
    ∃ cs ∈ fd.calls, cs.result_fqn = x ∧ ∃ g, cs.callee_fqn = some g ∧
      ∃ k, S g k ∧ cs.args[k]? = some (some y)

/-- The summary equations: a formal is in a function's set exactly when a return reaches it. -/
def SolvesEquations (S : String → Nat → Prop) : Prop :=
  ∀ f k, S f k ↔ ∃ fd, fns.get f = some fd ∧ ∃ ret ∈ fd.returns, ∃ v,
    ReflTransGen (HopUnder S fd) ret v ∧ formal fd k v

end spec

/-- The formal at a position. -/
def FormalAt (fd : FnDataflow) (k : Nat) (v : String) : Prop :=
  fd.formal_ins[k]? = some v

/-- The formal the search records under an index. -/
def FormalIndexed (fd : FnDataflow) (k : Nat) (v : String) : Prop :=
  ∃ i, formal_idx fd v = some i ∧ i.toNat = k

section equations

variable {fns : FnMap} {formal : FnDataflow → Nat → String → Prop} {S : String → Nat → Prop}

/-- A derivation stays within every solution of the equations. -/
theorem Derives.within (hS : SolvesEquations fns formal S) {f x y : String} {fd : FnDataflow}
    (hf : fns.get f = some fd) (h : Derives fns formal f x y) : ReflTransGen (HopUnder S fd) x y := by
  induction h generalizing fd with
  | refl => exact .refl
  | hop hf' he _ ih =>
    obtain rfl : _ = fd := Option.some.inj (hf'.symm.trans hf)
    exact .head (.inl ⟨_, he, rfl, rfl⟩) (ih hf)
  | call hf' hcs hcallee hg hret _ hformal harg _ ihinner ih =>
    obtain rfl : _ = fd := Option.some.inj (hf'.symm.trans hf)
    have hin := (hS _ _).mpr ⟨_, hg, _, hret, _, ihinner hg, hformal⟩
    exact .head (.inr ⟨_, hcs, rfl, _, hcallee, _, hin, harg⟩) (ih hf)

/-- The formals that flow to a return are the least solution of the equations. -/
theorem flows_least (hS : SolvesEquations fns formal S) {f : String} {k : Nat}
    (h : FlowsToReturn fns formal f k) : S f k := by
  obtain ⟨fd, hf, ret, hret, v, hderives, hformal⟩ := h
  exact (hS f k).mpr ⟨fd, hf, ret, hret, v, hderives.within hS hf, hformal⟩

theorem flows_solves : SolvesEquations fns formal (FlowsToReturn fns formal) := by
  intro f k
  constructor
  · rintro ⟨fd, hf, ret, hret, v, hderives, hformal⟩
    refine ⟨fd, hf, ret, hret, v, ?_, hformal⟩
    clear hret hformal
    induction hderives generalizing fd with
    | refl => exact .refl
    | hop hf' he _ ih =>
      obtain rfl : _ = fd := Option.some.inj (hf'.symm.trans hf)
      exact .head (.inl ⟨_, he, rfl, rfl⟩) (ih _ hf)
    | call hf' hcs hcallee hg hret hinner hformal harg _ _ ih =>
      obtain rfl : _ = fd := Option.some.inj (hf'.symm.trans hf)
      exact .head (.inr ⟨_, hcs, rfl, _, hcallee, _, ⟨_, hg, _, hret, _, hinner, hformal⟩, harg⟩) (ih _ hf)
  · rintro ⟨fd, hf, ret, hret, v, hpath, hformal⟩
    refine ⟨fd, hf, ret, hret, v, ?_, hformal⟩
    clear hret hformal
    induction hpath using ReflTransGen.head_induction_on with
    | refl => exact .refl
    | head hstep _ ih =>
      obtain ⟨e, he, rfl, rfl⟩ | ⟨cs, hcs, rfl, g, hcallee, k, ⟨gd, hg, ret, hret, v, hinner, hformal⟩, harg⟩ := hstep
      · exact .hop hf he ih
      · exact .call hf hcs hcallee hg hret hinner hformal harg ih

/-- Names for the formals that agree on the functions of the run give the same derivations. -/
theorem Derives.congr {formal' : FnDataflow → Nat → String → Prop}
    (hsame : ∀ f fd, fns.get f = some fd → ∀ k v, formal fd k v → formal' fd k v) {f x y : String}
    (h : Derives fns formal f x y) : Derives fns formal' f x y := by
  induction h with
  | refl => exact .refl
  | hop hf he _ ih => exact .hop hf he ih
  | call hf hcs hcallee hg hret _ hformal harg _ ihinner ih =>
    exact .call hf hcs hcallee hg hret ihinner (hsame _ _ hg _ _ hformal) harg ih

end equations

/-- With distinct formals, at most 256, the index of a formal is its position. -/
theorem formalIndexed_iff {fd : FnDataflow} (hnodup : fd.formal_ins.Nodup) (hlen : fd.formal_ins.length ≤ 256)
    {k : Nat} {v : String} : FormalIndexed fd k v ↔ FormalAt fd k v := by
  have hmem : ∀ e ∈ fd.formal_ins.zipIdx, e.1 = v → e.2 < 256 ∧ fd.formal_ins[e.2]? = some v := by
    intro e he hev
    have hget := List.mk_mem_zipIdx_iff_getElem?.mp (show (e.1, e.2) ∈ _ from he)
    rw [hev] at hget
    have hlt := (List.getElem?_eq_some_iff.mp hget).1
    exact ⟨by omega, hget⟩
  have hindex : ∀ n < 256, (Nat.min n 255).toUInt8.toNat = n := by
    intro n hn
    have hmin : Nat.min n 255 = n := Nat.min_eq_left (by omega)
    rw [hmin]
    simp only [Nat.toUInt8_eq, UInt8.toNat_ofNat']
    omega
  unfold FormalIndexed formal_idx FormalAt
  constructor
  · rintro ⟨i, hi, rfl⟩
    obtain ⟨e, hfind, rfl⟩ := Option.map_eq_some_iff.mp hi
    have hev : e.1 = v := by simpa using List.find?_some hfind
    obtain ⟨hlt, hget⟩ := hmem e (List.mem_reverse.mp (List.mem_of_find?_eq_some hfind)) hev
    rw [hindex e.2 hlt]
    exact hget
  · intro hget
    have hmem' : (v, k) ∈ fd.formal_ins.zipIdx := List.mk_mem_zipIdx_iff_getElem?.mpr hget
    cases hfind : fd.formal_ins.zipIdx.reverse.find? fun e => decide (e.1 = v) with
    | none =>
      have hnone := List.find?_eq_none.mp hfind (v, k) (List.mem_reverse.mpr hmem')
      simp at hnone
    | some e =>
      have hev : e.1 = v := by simpa using List.find?_some hfind
      obtain ⟨hlt, hget'⟩ := hmem e (List.mem_reverse.mp (List.mem_of_find?_eq_some hfind)) hev
      have hsame : e.2 = k := by
        obtain ⟨hlt', heq'⟩ := List.getElem?_eq_some_iff.mp hget'
        obtain ⟨hlt'', heq''⟩ := List.getElem?_eq_some_iff.mp hget
        exact (hnodup.getElem_inj_iff).mp (heq'.trans heq''.symm)
      exact ⟨_, rfl, by rw [hindex e.2 hlt, hsame]⟩

end cgx.resolve

namespace cgx.resolve

namespace Payload

theorem join_comm (a b : Payload) : a.join b = b.join a :=
  Prod.ext (join_transform_comm a.1 b.1) (join_condition_comm a.2 b.2)

theorem join_assoc (a b c : Payload) : (a.join b).join c = a.join (b.join c) :=
  Prod.ext (join_transform_assoc a.1 b.1 c.1) (join_condition_assoc a.2 b.2 c.2)

@[simp] theorem join_self (a : Payload) : a.join a = a :=
  Prod.ext (join_transform_self a.1) (join_condition_self a.2)

@[simp] theorem start_join (a : Payload) : start.join a = a :=
  Prod.ext (join_transform_copy a.1) (join_condition_always a.2)

end Payload

/-- The join of the payloads of some paths, if there is one. -/
def joined (payloads : List Payload) : Option Payload :=
  payloads.foldl (fun acc p => some ((acc.getD p).join p)) none

/-- The join of one payload and others. -/
def join_all (first : Payload) (rest : List Payload) : Payload :=
  rest.foldl Payload.join first

theorem joined_cons (first : Payload) (rest : List Payload) :
    joined (first :: rest) = some (join_all first rest) := by
  have hloop : ∀ (acc : Payload) (payloads : List Payload),
      payloads.foldl (fun acc p => some ((Option.getD acc p).join p)) (some acc) = some (join_all acc payloads) := by
    intro acc payloads
    induction payloads generalizing acc with
    | nil => rfl
    | cons p rest ih => exact ih (acc.join p)
  have hfirst : (Option.getD none first).join first = first := Payload.join_self first
  rw [joined, List.foldl_cons, hfirst, hloop]

theorem joined_isSome {payloads : List Payload} : (joined payloads).isSome ↔ payloads ≠ [] := by
  cases payloads with
  | nil => simp [joined]
  | cons first rest => simp [joined_cons]

section summary

variable {fd : FnDataflow} {t t' : Summaries}

/-- What is recorded under an index is the join of the visits to its formals. -/
theorem summary_facts_eq (fd : FnDataflow) (t : Summaries) (i : UInt8) :
    summary_facts fd t i =
      joined (((return_visits fd t).filter fun v => formal_idx fd v.1 = some i).map Prod.snd) := by
  have hloop : ∀ (visits : List (String × Payload)) (facts : UInt8 → Option Payload),
      visits.foldl (record fd) facts i =
        ((visits.filter fun v => formal_idx fd v.1 = some i).map Prod.snd).foldl
          (fun acc p => some ((Option.getD acc p).join p)) (facts i) := by
    intro visits
    induction visits with
    | nil => exact fun _ => rfl
    | cons v rest ih =>
      intro facts
      rw [List.foldl_cons, ih]
      by_cases hv : formal_idx fd v.1 = some i
      · rw [List.filter_cons_of_pos (by simpa using hv), List.map_cons, List.foldl_cons]
        simp [record, hv]
      · rw [List.filter_cons_of_neg (by simpa using hv)]
        congr 1
        unfold record
        cases hidx : formal_idx fd v.1 with
        | none => rfl
        | some j =>
          have hne : i ≠ j := fun heq => hv (heq ▸ hidx)
          simp [Function.update_of_ne hne]
  exact hloop (return_visits fd t) fun _ => none

theorem mem_compute_summary {sf : SummaryFact} :
    sf ∈ compute_summary fd t ↔
      sf.formal_out = .Return ∧ summary_facts fd t sf.formal_in_idx = some (sf.transform, sf.condition) := by
  unfold compute_summary
  rw [List.mem_filterMap]
  constructor
  · rintro ⟨i, _, hi⟩
    obtain ⟨p, hp, rfl⟩ := Option.map_eq_some_iff.mp hi
    exact ⟨rfl, hp⟩
  · rintro ⟨hout, hfacts⟩
    refine ⟨sf.formal_in_idx.toNat, List.mem_range.mpr sf.formal_in_idx.toNat_lt, ?_⟩
    have hidx : sf.formal_in_idx.toNat.toUInt8 = sf.formal_in_idx := by simp
    rw [hidx, hfacts, Option.map_some]
    cases sf
    cases hout
    rfl

/-- The facts of a summary have distinct formals, in ascending order. -/
theorem compute_summary_nodup : ((compute_summary fd t).map SummaryFact.formal_in_idx).Nodup := by
  have hidx : ∀ i j : Nat, i < 256 → j < 256 → i.toUInt8 = j.toUInt8 → i = j := by
    intro i j hi hj heq
    have htoNat := congrArg UInt8.toNat heq
    simp only [Nat.toUInt8_eq, UInt8.toNat_ofNat'] at htoNat
    omega
  have hrange : ∀ l : List Nat, l.Nodup → (∀ i ∈ l, i < 256) →
      ((l.filterMap fun i => (summary_facts fd t i.toUInt8).map fun p =>
        (⟨i.toUInt8, .Return, p.1, p.2⟩ : SummaryFact)).map SummaryFact.formal_in_idx).Nodup := by
    intro l
    induction l with
    | nil => simp
    | cons i rest ih =>
      intro hnodup hlt
      obtain ⟨hi, hrest⟩ := List.nodup_cons.mp hnodup
      have hih := ih hrest fun j hj => hlt j (List.mem_cons_of_mem i hj)
      rw [List.filterMap_cons]
      cases hfacts : summary_facts fd t i.toUInt8 with
      | none => simpa [hfacts] using hih
      | some p =>
        simp only [Option.map_some, List.map_cons]
        rw [List.nodup_cons]
        refine ⟨fun hmem => ?_, hih⟩
        obtain ⟨sf, hsf, heq⟩ := List.mem_map.mp hmem
        obtain ⟨j, hj, hsome⟩ := List.mem_filterMap.mp hsf
        obtain ⟨q, _, rfl⟩ := Option.map_eq_some_iff.mp hsome
        have hji := hidx j i (hlt j (List.mem_cons_of_mem i hj)) (hlt i List.mem_cons_self) heq
        exact hi (hji ▸ hj)
  exact hrange (List.range 256) List.nodup_range fun i hi => List.mem_range.mp hi

/-- An index is recorded exactly when a return node reaches one of its formals. -/
theorem recorded_iff {i : UInt8} :
    (summary_facts fd t i).isSome ↔
      ∃ ret ∈ fd.returns, ∃ v, ReflTransGen (carry.Leads (back fd t)) ret v ∧ formal_idx fd v = some i := by
  rw [summary_facts_eq, joined_isSome, ne_eq, List.map_eq_nil_iff, List.filter_eq_nil_iff]
  simp only [decide_eq_true_eq, not_forall, not_not]
  constructor
  · rintro ⟨visit, hvisit, hidx⟩
    obtain ⟨ret, hret, hmem⟩ := List.mem_flatMap.mp hvisit
    exact ⟨ret, hret, visit.1, mem_search_iff.mp (List.mem_map_of_mem hmem), hidx⟩
  · rintro ⟨ret, hret, v, hpath, hidx⟩
    have hmem : v ∈ (search (back fd t) Payload.join ret .start).map Prod.fst := mem_search_iff.mpr hpath
    obtain ⟨visit, hvisit, rfl⟩ := List.mem_map.mp hmem
    exact ⟨visit, List.mem_flatMap.mpr ⟨ret, hret, hvisit⟩, hidx⟩

theorem exists_fact_iff {i : UInt8} :
    (∃ sf ∈ compute_summary fd t, sf.formal_in_idx = i) ↔
      ∃ ret ∈ fd.returns, ∃ v, ReflTransGen (carry.Leads (back fd t)) ret v ∧ formal_idx fd v = some i := by
  rw [← recorded_iff, Option.isSome_iff_exists]
  constructor
  · rintro ⟨sf, hsf, rfl⟩
    exact ⟨_, (mem_compute_summary.mp hsf).2⟩
  · rintro ⟨p, hp⟩
    exact ⟨⟨i, .Return, p.1, p.2⟩, mem_compute_summary.mpr ⟨rfl, hp⟩, rfl⟩

theorem mem_applied_facts {cs : CallSite} {fact : SummaryFact × String} :
    fact ∈ applied_facts t cs ↔ ∃ g facts, cs.callee_fqn = some g ∧ t g = some facts ∧ fact.1 ∈ facts ∧
      fact.1.formal_out = .Return ∧ cs.args[fact.1.formal_in_idx.toNat]? = some (some fact.2) := by
  unfold applied_facts
  cases hcallee : cs.callee_fqn with
  | none => simp
  | some g =>
    cases hfacts : t g with
    | none => simp [hfacts]
    | some facts =>
      simp only [Option.bind_some, hfacts, List.mem_filterMap]
      constructor
      · rintro ⟨sf, hsf, hsome⟩
        split at hsome
        · rename_i hout
          split at hsome
          · rename_i arg harg
            obtain rfl := Option.some.inj hsome
            exact ⟨g, facts, rfl, hfacts, hsf, hout, harg⟩
          · cases hsome
        · cases hsome
      · rintro ⟨_, _, hg, hfacts', hsf, hout, harg⟩
        cases hg
        cases hfacts.symm.trans hfacts'
        exact ⟨fact.1, hsf, by rw [if_pos hout, harg]⟩

/-- The hops of the search: the derivations, and those of the callees' summaries. -/
theorem leads_back_iff {x y : String} :
    carry.Leads (back fd t) x y ↔ (∃ e ∈ fd.intra, e.derived_fqn = x ∧ e.source_fqn = y) ∨
      ∃ cs ∈ fd.calls, cs.result_fqn = x ∧ ∃ g facts, cs.callee_fqn = some g ∧ t g = some facts ∧
        ∃ sf ∈ facts, sf.formal_out = .Return ∧ cs.args[sf.formal_in_idx.toNat]? = some (some y) := by
  unfold carry.Leads back
  constructor
  · rintro ⟨h, hh, rfl, rfl⟩
    obtain hh | hh := List.mem_append.mp hh
    · obtain ⟨e, he, rfl⟩ := List.mem_map.mp hh
      exact .inl ⟨e, he, rfl, rfl⟩
    · obtain ⟨cs, hcs, hh⟩ := List.mem_flatMap.mp hh
      obtain ⟨fact, hfact, rfl⟩ := List.mem_map.mp hh
      obtain ⟨g, facts, hg, hfacts, hsf, hout, harg⟩ := mem_applied_facts.mp hfact
      exact .inr ⟨cs, hcs, rfl, g, facts, hg, hfacts, fact.1, hsf, hout, harg⟩
  · rintro (⟨e, he, rfl, rfl⟩ | ⟨cs, hcs, rfl, g, facts, hg, hfacts, sf, hsf, hout, harg⟩)
    · exact ⟨_, List.mem_append_left _ (List.mem_map_of_mem he), rfl, rfl⟩
    · have hfact : (sf, y) ∈ applied_facts t cs := mem_applied_facts.mpr ⟨g, facts, hg, hfacts, hsf, hout, harg⟩
      exact ⟨_, List.mem_append_right _ (List.mem_flatMap.mpr ⟨cs, hcs, List.mem_map_of_mem hfact⟩), rfl, rfl⟩

/-- A summary depends on the summaries of its callees alone. -/
theorem compute_summary_congr (h : ∀ cs ∈ fd.calls, ∀ g, cs.callee_fqn = some g → t g = t' g) :
    compute_summary fd t = compute_summary fd t' := by
  have hback : back fd t = back fd t' := by
    unfold back
    congr 1
    refine List.flatMap_congr fun cs hcs => ?_
    have hfacts : applied_facts t cs = applied_facts t' cs := by
      unfold applied_facts
      cases hcallee : cs.callee_fqn with
      | none => rfl
      | some g => rw [Option.bind_some, Option.bind_some, h cs hcs g hcallee]
    rw [hfacts]
  unfold compute_summary summary_facts return_visits
  rw [hback]

end summary

end cgx.resolve

/-! The payloads of paths are ordered by their join. -/

namespace cgx.core

instance : Max Transform := ⟨cgx.resolve.join_transform⟩

instance : SemilatticeSup Transform :=
  SemilatticeSup.mk' cgx.resolve.join_transform_comm cgx.resolve.join_transform_assoc
    cgx.resolve.join_transform_self

instance : Max EdgeCondition := ⟨cgx.resolve.join_condition⟩

instance : SemilatticeSup EdgeCondition :=
  SemilatticeSup.mk' cgx.resolve.join_condition_comm cgx.resolve.join_condition_assoc
    cgx.resolve.join_condition_self

end cgx.core

namespace cgx.resolve

namespace Payload

theorem join_eq_sup (a b : Payload) : a.join b = a ⊔ b := rfl

theorem le_iff {a b : Payload} : a ≤ b ↔ a.join b = b :=
  sup_eq_right.symm

theorem start_le (a : Payload) : start ≤ a :=
  le_iff.mpr (start_join a)

end Payload

theorem join_all_isLUB (first : Payload) (rest : List Payload) :
    IsLUB {p | p ∈ first :: rest} (join_all first rest) := by
  induction rest generalizing first with
  | nil => simp [join_all]
  | cons p rest ih =>
    have hrest : IsLUB {q | q ∈ (first ⊔ p) :: rest} (join_all first (p :: rest)) := ih (first ⊔ p)
    constructor
    · intro q hq
      have hfirst : first ⊔ p ≤ join_all first (p :: rest) := hrest.1 List.mem_cons_self
      obtain rfl | hq := List.mem_cons.mp hq
      · exact le_sup_left.trans hfirst
      · obtain rfl | hq := List.mem_cons.mp hq
        · exact le_sup_right.trans hfirst
        · exact hrest.1 (List.mem_cons_of_mem _ hq)
    · intro b hb
      refine hrest.2 fun q hq => ?_
      obtain rfl | hq := List.mem_cons.mp hq
      · exact sup_le (hb List.mem_cons_self) (hb (List.mem_cons_of_mem _ List.mem_cons_self))
      · exact hb (List.mem_cons_of_mem _ (List.mem_cons_of_mem _ hq))

/-- What is joined of some payloads is their least upper bound. -/
theorem joined_isLUB {payloads : List Payload} {p : Payload} (h : joined payloads = some p) :
    IsLUB {q | q ∈ payloads} p := by
  cases payloads with
  | nil => simp [joined] at h
  | cons first rest =>
    rw [joined_cons] at h
    rw [← Option.some.inj h]
    exact join_all_isLUB first rest

end cgx.resolve
