import Cgx.Lib.Closure
import Cgx.Resolve.Reaching
import Cgx.Resolve.SiteCallees

open cgx.core cgx.frontend sorting worklist guarded Relation

namespace cgx.resolve

/-! ### The dependencies of a function -/

/-- The callee of a call that could be any function. -/
def WILDCARD : String := "*"

/-- The function that an opaque call is recorded to depend on: the callable of that FQN, else
the only callable of that short name, else any. -/
def ground_callee (table : SymbolTable) (callee_fqn : Option String) : String :=
  match callee_fqn with
  | none => WILDCARD
  | some name =>
    match (table.def_by_fqn name).filter fun d => d.kind.is_callable with
    | some d => d.fqn
    | none =>
      match (table.defs_by_short (short_name name)).filter fun d => d.kind.is_callable with
      | [only] => only.fqn
      | _ => WILDCARD

/-! ### The substrate of an incremental run -/

/-- The hash of the facts of a function, by the blob and the name of the function. -/
abbrev CacheRow := (String × String) × String

/-- What a link records for the next one: the cache rows, on which functions each function
depends, and the functions whose facts are not those of the prior cache. -/
structure DataflowOutput where
  fn_intraproc_cache : List CacheRow
  summary_deps : List (String × String)
  changed_fns : List String

def pair_cmp : String × String → String × String → Ordering :=
  compareLex (compareOn Prod.fst) (compareOn Prod.snd)

/-- The facts of a file, each with the blob and the name of its function. -/
def fn_rows (file : FileInput) : List ((String × String) × DataFlowFact) :=
  file.facts.data_flows.filterMap fun df => (function_fqn file df).map fun f => ((file.blob_oid, f), df)

/-- The facts of each function, keyed by blob and name, in ascending order of the keys. -/
def per_fn (inputs : List FileInput) : List ((String × String) × List DataFlowFact) :=
  let rows := inputs.flatMap fn_rows
  (sort_by pair_cmp (rows.map Prod.fst).dedup).map fun key =>
    (key, (rows.filter fun row => row.1 = key).map Prod.snd)

/-- The prior hash of a function, whatever its blob; of several rows the last one read. -/
def prior_by_fqn (prior_cache : List CacheRow) (f : String) : Option String :=
  (prior_cache.reverse.find? fun row => row.1.2 = f).map Prod.snd

/-- `facts_hash` is the hash of the encoded facts, `prior_cache` the rows of the prior run. -/
def build_incremental_substrate (facts_hash : List DataFlowFact → String) (inputs : List FileInput) (table : SymbolTable)
    (prior_cache : List CacheRow) : DataflowOutput where
  fn_intraproc_cache := (per_fn inputs).map fun row => (row.1, facts_hash row.2)
  summary_deps := sort_by pair_cmp ((per_fn inputs).flatMap fun row =>
    (row.2.filter is_opaque).map fun df => (row.1.2, ground_callee table df.callee_fqn)).dedup
  changed_fns := ((per_fn inputs).filter fun row =>
    prior_by_fqn prior_cache row.1.2 ≠ some (facts_hash row.2)).map fun row => row.1.2

/-! ### The transitive dependents -/

/-- The functions that depend on a function by name. -/
def dependents_of (summary_deps : List (String × String)) (node : String) : List String :=
  (summary_deps.filter fun dep => dep.2 ≠ WILDCARD ∧ dep.2 = node).map Prod.fst

def wildcard_dependents (summary_deps : List (String × String)) : List String :=
  (summary_deps.filter fun dep => dep.2 = WILDCARD).map Prod.fst

/-- The closure of the changed functions over the dependents. A function that may depend on any
is in it if anything changed. Every dependent is queued once, so the fuel never runs out. -/
def propagate_dirty (seed : List String) (summary_deps : List (String × String)) : List String :=
  let start := if seed = [] then (seed, seed) else push_new seed seed (wildcard_dependents summary_deps)
  sort_by compare (drain (dependents_of summary_deps) (seed.length + summary_deps.length) start).dedup

/-- What a change touches. -/
inductive Touched (seed : List String) (summary_deps : List (String × String)) : String → Prop where
  | changed {f : String} (h : f ∈ seed) : Touched seed summary_deps f
  | any {f : String} (hchange : seed ≠ []) (hdep : (f, WILDCARD) ∈ summary_deps) : Touched seed summary_deps f
  | depends {f g : String} (hdep : (f, g) ∈ summary_deps) (hg : g ≠ WILDCARD) (h : Touched seed summary_deps g) :
      Touched seed summary_deps f

section dirty

variable {seed : List String} {summary_deps : List (String × String)} {f g : String}

theorem mem_dependents_of : f ∈ dependents_of summary_deps g ↔ (f, g) ∈ summary_deps ∧ g ≠ WILDCARD := by
  rw [dependents_of, List.mem_map]
  constructor
  · rintro ⟨dep, hdep, rfl⟩
    obtain ⟨hmem, hkeep⟩ := List.mem_filter.mp hdep
    obtain ⟨hne, rfl⟩ := of_decide_eq_true hkeep
    exact ⟨hmem, hne⟩
  · rintro ⟨hmem, hne⟩
    exact ⟨(f, g), List.mem_filter.mpr ⟨hmem, decide_eq_true ⟨hne, rfl⟩⟩, rfl⟩

theorem mem_wildcard_dependents : f ∈ wildcard_dependents summary_deps ↔ (f, WILDCARD) ∈ summary_deps := by
  rw [wildcard_dependents, List.mem_map]
  constructor
  · rintro ⟨⟨f, g⟩, hdep, rfl⟩
    obtain ⟨hmem, hkeep⟩ := List.mem_filter.mp hdep
    obtain rfl : g = WILDCARD := of_decide_eq_true hkeep
    exact hmem
  · intro hmem
    exact ⟨(f, WILDCARD), List.mem_filter.mpr ⟨hmem, decide_eq_true rfl⟩, rfl⟩

/-- Nothing is touched if nothing changed. -/
theorem Touched.seed_ne_nil (h : Touched seed summary_deps f) : seed ≠ [] := by
  induction h with
  | changed h => exact List.ne_nil_of_mem h
  | any hchange _ => exact hchange
  | depends _ _ _ ih => exact ih

/-- A function that may depend on one that is touched is touched. -/
theorem Touched.of_dep (h : Touched seed summary_deps g) (hdep : (f, g) ∈ summary_deps ∨ (f, WILDCARD) ∈ summary_deps) :
    Touched seed summary_deps f := by
  obtain hdep | hany := hdep
  · by_cases hg : g = WILDCARD
    · exact .any h.seed_ne_nil (hg ▸ hdep)
    · exact .depends hdep hg h
  · exact .any h.seed_ne_nil hany

theorem missing_le (seed : List String) (summary_deps : List (String × String)) :
    missing (seed ++ summary_deps.map Prod.fst).toFinset seed ≤ summary_deps.length := by
  have hsub : ((seed ++ summary_deps.map Prod.fst).toFinset.filter fun f => f ∉ seed) ⊆
      (summary_deps.map Prod.fst).toFinset := by
    intro f hf
    obtain ⟨hmem, hnew⟩ := Finset.mem_filter.mp hf
    rw [List.mem_toFinset] at hmem ⊢
    exact (List.mem_append.mp hmem).resolve_left hnew
  have hcard := Finset.card_le_card hsub
  have hlength := List.toFinset_card_le (summary_deps.map Prod.fst)
  rw [List.length_map] at hlength
  exact hcard.trans hlength

/-- The dirty functions are those that a change touches. -/
theorem mem_propagate_dirty : f ∈ propagate_dirty seed summary_deps ↔ Touched seed summary_deps f := by
  rw [propagate_dirty, mem_sort_by, List.mem_dedup]
  split
  case isTrue hnil =>
    subst hnil
    have hdrain : drain (dependents_of summary_deps) summary_deps.length ([], []) = [] := by
      cases summary_deps.length <;> rfl
    simp only [List.length_nil, Nat.zero_add, hdrain]
    exact iff_of_false List.not_mem_nil fun h => h.seed_ne_nil rfl
  case isFalse hchange =>
    have hpush := pushed (seed ++ summary_deps.map Prod.fst).toFinset seed seed (wildcard_dependents summary_deps)
    have hdependent : ∀ {x y}, (x, y) ∈ summary_deps → x ∈ (seed ++ summary_deps.map Prod.fst).toFinset := by
      intro x y hdep
      rw [List.mem_toFinset]
      exact List.mem_append_right seed (List.mem_map.mpr ⟨(x, y), hdep, rfl⟩)
    have hstart : ∀ x, x ∈ (push_new seed seed (wildcard_dependents summary_deps)).2 ↔
        x ∈ seed ∨ (x, WILDCARD) ∈ summary_deps := by
      intro x
      constructor
      · intro hx
        exact (hpush.from_queue x hx).imp_right fun hnew => mem_wildcard_dependents.mp hnew.1
      · rintro (hx | hx)
        · exact hpush.keeps_queue hx
        · have hmarked := hpush.marks x (mem_wildcard_dependents.mpr hx)
          exact (hpush.from_marked x hmarked).elim (fun hold => hpush.keeps_queue hold) And.right
    have hmarked : ∀ x, x ∈ (push_new seed seed (wildcard_dependents summary_deps)).1 ↔
        x ∈ (push_new seed seed (wildcard_dependents summary_deps)).2 := fun x =>
      ⟨fun hx => (hpush.from_marked x hx).elim (fun hold => hpush.keeps_queue hold) And.right,
        fun hx => (hpush.from_queue x hx).elim (fun hold => hpush.keeps_marked hold) And.right⟩
    have hbound := hpush.bounded fun x hx => hdependent (mem_wildcard_dependents.mp hx)
    have hless := missing_le seed summary_deps
    have hclosed : ∀ x ∈ (seed ++ summary_deps.map Prod.fst).toFinset, ∀ y ∈ dependents_of summary_deps x,
        y ∈ (seed ++ summary_deps.map Prod.fst).toFinset := fun x _ y hy => hdependent (mem_dependents_of.mp hy).1
    rw [mem_drain hclosed (fun x hx => ((hstart x).mp hx).elim (fun hseed => by simp [hseed]) hdependent) hmarked (by omega)]
    constructor
    · rintro ⟨y, hy, hreach⟩
      have hfirst : Touched seed summary_deps y := ((hstart y).mp hy).elim .changed (.any hchange)
      induction hreach with
      | refl => exact hfirst
      | tail _ hnext ih =>
        obtain ⟨hdep, hne⟩ := mem_dependents_of.mp hnext
        exact .depends hdep hne ih
    · intro h
      induction h with
      | changed h => exact ⟨_, (hstart _).mpr (.inl h), .refl⟩
      | any _ hdep => exact ⟨_, (hstart _).mpr (.inr hdep), .refl⟩
      | depends hdep hne _ ih =>
        obtain ⟨y, hy, hreach⟩ := ih
        exact ⟨y, hy, hreach.tail (mem_dependents_of.mpr ⟨hdep, hne⟩)⟩

end dirty

end cgx.resolve
