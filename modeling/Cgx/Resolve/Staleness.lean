import Cgx.Resolve.Exact
import Cgx.Resolve.Incremental
import Cgx.Resolve.Locality
import Cgx.Resolve.OwnFlow

open cgx.core cgx.frontend sorting Std

namespace cgx.resolve

/-! ### The facts that an incremental run compares -/

/-- The facts of a function in all files. -/
def fn_facts (inputs : List FileInput) (f : String) : List DataFlowFact :=
  inputs.flatMap fun file => own_facts file f

section facts

variable {inputs : List FileInput} {f : String}

theorem mem_per_fn {key : String × String} {facts : List DataFlowFact} :
    (key, facts) ∈ per_fn inputs ↔ (∃ df, (key, df) ∈ inputs.flatMap fn_rows) ∧
      facts = ((inputs.flatMap fn_rows).filter fun row => row.1 = key).map Prod.snd := by
  rw [per_fn, List.mem_map]
  constructor
  · rintro ⟨k, hk, heq⟩
    obtain ⟨rfl, rfl⟩ := Prod.mk.inj heq
    rw [mem_sort_by, List.mem_dedup, List.mem_map] at hk
    obtain ⟨row, hrow, rfl⟩ := hk
    exact ⟨⟨row.2, hrow⟩, rfl⟩
  · rintro ⟨⟨df, hdf⟩, rfl⟩
    refine ⟨key, ?_, rfl⟩
    rw [mem_sort_by, List.mem_dedup]
    exact List.mem_map_of_mem hdf

theorem fn_facts_eq (inputs : List FileInput) (f : String) :
    fn_facts inputs f = (fn_files inputs f).flatMap fun file => own_facts file f := by
  rw [fn_facts, fn_files]
  induction inputs with
  | nil => rfl
  | cons file rest ih =>
    rw [List.flatMap_cons, ih, List.filter_cons]
    split
    · rfl
    · rename_i hnone
      have hfacts : own_facts file f = [] := by simpa using hnone
      rw [hfacts, List.nil_append]

/-- The rows of a function are those of its files. -/
theorem rows_of_name (inputs : List FileInput) (f : String) :
    ((inputs.flatMap fn_rows).filter fun row => row.1.2 = f) =
      (fn_files inputs f).flatMap fun file => (own_facts file f).map fun df => ((file.blob_oid, f), df) := by
  have hfile : ∀ file : FileInput, ((fn_rows file).filter fun row => row.1.2 = f) =
      (own_facts file f).map fun df => ((file.blob_oid, f), df) := by
    intro file
    rw [fn_rows, own_facts]
    induction file.facts.data_flows with
    | nil => rfl
    | cons df rest ih =>
      rw [List.filterMap_cons, List.filter_cons]
      cases hname : function_fqn file df with
      | none => simpa using ih
      | some g =>
        by_cases hg : g = f
        · subst hg
          simpa using ih
        · simpa [hg] using ih
  rw [fn_files]
  induction inputs with
  | nil => rfl
  | cons file rest ih =>
    rw [List.flatMap_cons, List.filter_append, ih, hfile, List.filter_cons]
    split
    · rfl
    · rename_i hnone
      have hfacts : own_facts file f = [] := by simpa using hnone
      rw [hfacts, List.map_nil, List.nil_append]

/-- The rows of a function under one key are among those of its name. -/
theorem rows_of_key (inputs : List FileInput) (blob f : String) :
    ((inputs.flatMap fn_rows).filter fun row => row.1 = (blob, f)) =
      ((inputs.flatMap fn_rows).filter fun row => row.1.2 = f).filter fun row => row.1 = (blob, f) := by
  rw [List.filter_filter]
  apply List.filter_congr
  intro row _
  by_cases hkey : row.1 = (blob, f)
  · simp [hkey]
  · simp [hkey]

/-- The one row of a function whose facts stand in one file holds them all. -/
theorem per_fn_row (hone : (fn_files inputs f).length ≤ 1) {blob : String} {facts : List DataFlowFact}
    (h : ((blob, f), facts) ∈ per_fn inputs) : facts = fn_facts inputs f := by
  obtain ⟨⟨df, hdf⟩, rfl⟩ := mem_per_fn.mp h
  have hrow : ((blob, f), df) ∈ (inputs.flatMap fn_rows).filter fun row => row.1.2 = f :=
    List.mem_filter.mpr ⟨hdf, decide_eq_true rfl⟩
  rw [rows_of_key, fn_facts_eq]
  rw [rows_of_name] at hrow ⊢
  obtain hnone | ⟨file, hfile⟩ : fn_files inputs f = [] ∨ ∃ file, fn_files inputs f = [file] := by
    cases hfiles : fn_files inputs f with
    | nil => exact .inl rfl
    | cons file rest =>
      rw [hfiles, List.length_cons] at hone
      have hrest : rest = [] := List.length_eq_zero_iff.mp (by omega)
      exact .inr ⟨file, by rw [hrest]⟩
  · rw [hnone] at hrow
    cases hrow
  · rw [hfile, List.flatMap_singleton] at hrow ⊢
    obtain ⟨_, _, heq⟩ := List.mem_map.mp hrow
    obtain ⟨rfl, _⟩ := Prod.mk.inj (Prod.mk.inj heq).1
    rw [List.flatMap_singleton, List.filter_eq_self.mpr, List.map_map]
    · exact List.map_id _
    · intro row hrow
      obtain ⟨df, _, rfl⟩ := List.mem_map.mp hrow
      exact decide_eq_true rfl

/-- A function with facts has a row. -/
theorem exists_per_fn_row (hone : (fn_files inputs f).length ≤ 1) (hfacts : fn_facts inputs f ≠ []) :
    ∃ blob, ((blob, f), fn_facts inputs f) ∈ per_fn inputs := by
  obtain ⟨df, hdf⟩ := List.exists_mem_of_ne_nil _ hfacts
  obtain ⟨file, hfile, hown⟩ := List.mem_flatMap.mp hdf
  obtain ⟨hmem, hname⟩ := List.mem_filter.mp hown
  have hrow : ((file.blob_oid, f), df) ∈ inputs.flatMap fn_rows := by
    refine List.mem_flatMap.mpr ⟨file, hfile, List.mem_filterMap.mpr ⟨df, hmem, ?_⟩⟩
    rw [of_decide_eq_true hname]
    rfl
  have hper := mem_per_fn.mpr ⟨⟨df, hrow⟩, rfl⟩
  exact ⟨file.blob_oid, per_fn_row hone hper ▸ hper⟩

variable {facts_hash : List DataFlowFact → String} {inputs' : List FileInput} {table : SymbolTable}
  {earlier prior : List CacheRow}

/-- What the prior run recorded for a function whose facts stood in one file. -/
theorem prior_of_one_file (hone : (fn_files inputs f).length ≤ 1)
    (hprior : prior.Perm (build_incremental_substrate facts_hash inputs table earlier).fn_intraproc_cache) {hash : String}
    (h : prior_by_fqn prior f = some hash) : hash = facts_hash (fn_facts inputs f) := by
  obtain ⟨row, hrow, rfl⟩ := Option.map_eq_some_iff.mp h
  have hfound := List.find?_some hrow
  have hname : row.1.2 = f := of_decide_eq_true hfound
  have hmem := hprior.mem_iff.mp (List.mem_reverse.mp (List.mem_of_find?_eq_some hrow))
  obtain ⟨entry, hentry, rfl⟩ := List.mem_map.mp hmem
  obtain ⟨⟨blob, g⟩, facts⟩ := entry
  simp only at hname
  subst hname
  rw [per_fn_row hone hentry]

/-- A function that is not among the changed ones has the facts it had, if none are left out
and the hash tells the facts apart. -/
theorem same_facts_of_unchanged (hone : (fn_files inputs f).length ≤ 1) (hone' : (fn_files inputs' f).length ≤ 1)
    (hkept : fn_facts inputs' f = [] → fn_facts inputs f = [])
    (hhash : facts_hash (fn_facts inputs f) = facts_hash (fn_facts inputs' f) → fn_facts inputs f = fn_facts inputs' f)
    (hprior : prior.Perm (build_incremental_substrate facts_hash inputs table earlier).fn_intraproc_cache)
    (table' : SymbolTable) (h : f ∉ (build_incremental_substrate facts_hash inputs' table' prior).changed_fns) :
    fn_facts inputs f = fn_facts inputs' f := by
  by_cases hnone : fn_facts inputs' f = []
  · rw [hnone, hkept hnone]
  · obtain ⟨blob, hrow⟩ := exists_per_fn_row hone' hnone
    by_contra hne
    refine h (List.mem_map.mpr ⟨_, List.mem_filter.mpr ⟨hrow, decide_eq_true fun hsame => hne (hhash ?_)⟩, rfl⟩)
    exact (prior_of_one_file hone hprior hsame).symm

/-- An opaque fact of a function with facts in one file leaves a dependency. -/
theorem dep_of_fact (hone : (fn_files inputs f).length ≤ 1) {df : DataFlowFact} (hdf : df ∈ fn_facts inputs f)
    ( hopaque : is_opaque df = true) :
    (f, ground_callee table df.callee_fqn) ∈ (build_incremental_substrate facts_hash inputs table prior).summary_deps := by
  obtain ⟨blob, hrow⟩ := exists_per_fn_row hone (List.ne_nil_of_mem hdf)
  rw [build_incremental_substrate, mem_sort_by, List.mem_dedup]
  exact List.mem_flatMap.mpr ⟨_, hrow, List.mem_map.mpr ⟨df, List.mem_filter.mpr ⟨hdf, hopaque⟩, rfl⟩⟩

end facts

/-! ### Two runs -/

section runs

variable (narrow : List FileInput → SymbolTable → Site → Narrowed) (opts : LinkOpts) (budget : Nat)

/-- What the summary pass of a link reads of the functions. -/
def flows (inputs : List FileInput) : FnMap :=
  fn_dataflow inputs (pass_edges narrow inputs opts)

/-- The summary pass of a link. -/
def summary_pass (inputs : List FileInput) : IfdsOutput :=
  run_ifds_summaries (flows narrow opts inputs) (def_to_node (link_values inputs opts)) budget

/-- Its edges are the interprocedural ones of the graph. -/
theorem linker_summary_edges (inputs : List FileInput) :
    (linker narrow opts budget).summary_edges inputs (def_to_node (link_values inputs opts)) =
      (summary_pass narrow opts budget inputs).edges := rfl

/-- The edges at the calls of a function, without their markers. -/
def fn_offers (inputs : List FileInput) (fd : FnDataflow) : List (List CutMarker → EdgeWithProvenance) :=
  fd.calls.flatMap (offered (summary_pass narrow opts budget inputs).summaries (def_to_node (link_values inputs opts)))

/-- For each edge of the summary pass, the function at whose call it stands. -/
def edge_fns (inputs : List FileInput) : List String :=
  (flows narrow opts inputs).entries.flatMap fun entry =>
    (fn_offers narrow opts budget inputs entry.2).map fun _ => entry.1

/-- The interprocedural edges at the calls of a function. -/
def fn_edges (inputs : List FileInput) (f : String) : List EdgeWithProvenance :=
  (((edge_fns narrow opts budget inputs).zip (summary_pass narrow opts budget inputs).edges).filter fun t =>
    t.1 = f).map Prod.snd

/-- No component of the run is cut short, and no edge is past the budget. -/
structure WithinBudget (inputs : List FileInput) : Prop where
  settled : (summary_pass narrow opts budget inputs).stats.budget_exceeded_sccs = 0
  edges : (summary_pass narrow opts budget inputs).edges.length ≤ budget

/-- Edges of two graphs between values of the same names, alike in all else. -/
def SameEdge (inputs inputs' : List FileInput) (e e' : EdgeWithProvenance) : Prop :=
  ∃ x y, def_to_node (link_values inputs opts) x = some e.edge.src ∧ def_to_node (link_values inputs opts) y = some e.edge.dst ∧
    def_to_node (link_values inputs' opts) x = some e'.edge.src ∧ def_to_node (link_values inputs' opts) y = some e'.edge.dst ∧
      e' = { e with edge := { e.edge with src := e'.edge.src, dst := e'.edge.dst } }

/-- Both runs give a function the same summary and the same interprocedural edges. -/
structure SameResults (inputs inputs' : List FileInput) (f : String) : Prop where
  summaries : (summary_pass narrow opts budget inputs).summaries f = (summary_pass narrow opts budget inputs').summaries f
  edges : List.Forall₂ (SameEdge opts inputs inputs') (fn_edges narrow opts budget inputs f)
    (fn_edges narrow opts budget inputs' f)

end runs

section edges

variable {narrow : List FileInput → SymbolTable → Site → Narrowed} {opts : LinkOpts} {budget : Nat}
  {inputs inputs' : List FileInput} {f : String}

theorem FnMap.filter_entries (fns : FnMap) (f : String) :
    (fns.entries.filter fun entry => entry.1 = f) = ((fns.get f).map fun fd => (f, fd)).toList := by
  have hrest : ∀ entries : List (String × FnDataflow), (∀ entry ∈ entries, entry.1 ≠ f) →
      (entries.filter fun entry => entry.1 = f) = [] := fun entries h =>
    List.filter_eq_nil_iff.mpr fun entry hentry heq => h entry hentry (of_decide_eq_true heq)
  cases hfd : fns.get f with
  | none =>
    refine hrest fns.entries fun entry hentry heq => ?_
    have hsome := FnMap.get_eq_some.mpr (show (f, entry.2) ∈ fns.entries from heq ▸ hentry)
    rw [hfd] at hsome
    cases hsome
  | some fd =>
    obtain ⟨before, after, hsplit⟩ := List.append_of_mem (FnMap.get_eq_some.mp hfd)
    have hsorted := fns.ascending
    rw [hsplit] at hsorted ⊢
    obtain ⟨_, hcons, hbefore⟩ := List.pairwise_append.mp hsorted
    obtain ⟨hafter, _⟩ := List.pairwise_cons.mp hcons
    rw [List.filter_append, List.filter_cons_of_pos (by simp),
      hrest before fun entry hentry => sorted_map.ne_of_lt (hbefore entry hentry _ List.mem_cons_self),
      hrest after fun entry hentry => (sorted_map.ne_of_lt (hafter entry hentry)).symm]
    rfl

/-- Within the budget no edge is marked. -/
theorem edges_within (h : WithinBudget narrow opts budget inputs) :
    (summary_pass narrow opts budget inputs).edges =
      ((flows narrow opts inputs).entries.flatMap fun entry => fn_offers narrow opts budget inputs entry.2).map fun e => e [] := by
  have hsettled : (run_fixpoint (flows narrow opts inputs) budget).budget_exceeded_sccs = 0 := h.settled
  have hglobal := run_fixpoint_global hsettled
  have hoffers : ((flows narrow opts inputs).entries.flatMap fun entry => fn_offers narrow opts budget inputs entry.2) =
      all_offers (flows narrow opts inputs) (run_fixpoint (flows narrow opts inputs) budget).summaries
        (def_to_node (link_values inputs opts)) := rfl
  have hlength := h.edges
  rw [hoffers]
  rw [summary_pass, run_ifds_summaries] at hlength ⊢
  simp only [List.length_mapIdx, hglobal, hsettled, Nat.lt_irrefl, decide_false, Bool.or_false, Bool.false_eq_true,
    or_false] at hlength ⊢
  generalize all_offers _ _ _ = offers at hlength ⊢
  apply List.ext_getElem?
  intro i
  rw [List.getElem?_mapIdx, List.getElem?_map]
  cases hi : offers[i]? with
  | none => rfl
  | some offer =>
    have hlt := (List.getElem?_eq_some_iff.mp hi).1
    rw [Option.map_some, Option.map_some, if_neg (by omega)]

/-- Each edge with the function at whose call it stands. -/
theorem zip_edge_fns (h : WithinBudget narrow opts budget inputs) :
    (edge_fns narrow opts budget inputs).zip (summary_pass narrow opts budget inputs).edges =
      (flows narrow opts inputs).entries.flatMap fun entry =>
        (fn_offers narrow opts budget inputs entry.2).map fun e => (entry.1, e []) := by
  rw [edges_within h, edge_fns]
  induction (flows narrow opts inputs).entries with
  | nil => rfl
  | cons entry rest ih =>
    rw [List.flatMap_cons, List.flatMap_cons, List.flatMap_cons, List.map_append, List.zip_append (by simp), ih, List.zip_map']

/-- Within the budget the edges of a function are what its calls offer. -/
theorem fn_edges_within (h : WithinBudget narrow opts budget inputs) :
    fn_edges narrow opts budget inputs f =
      ((flows narrow opts inputs).get f).toList.flatMap fun fd => (fn_offers narrow opts budget inputs fd).map fun e => e [] := by
  have hfilter : ∀ entries : List (String × FnDataflow),
      ((entries.flatMap fun entry => (fn_offers narrow opts budget inputs entry.2).map fun e => (entry.1, e [])).filter
        fun t => t.1 = f).map Prod.snd =
      (entries.filter fun entry => entry.1 = f).flatMap fun entry =>
        (fn_offers narrow opts budget inputs entry.2).map fun e => e [] := by
    intro entries
    induction entries with
    | nil => rfl
    | cons entry rest ih =>
      rw [List.flatMap_cons, List.filter_append, List.map_append, ih, List.filter_cons, List.filter_map, Function.comp_def]
      by_cases hname : entry.1 = f
      · simp [hname, Function.comp_def]
      · simp [hname]
  rw [fn_edges, zip_edge_fns h, hfilter, FnMap.filter_entries]
  cases (flows narrow opts inputs).get f <;> rfl

/-- Calls whose ends have nodes in both graphs get the same edges from the same facts. -/
theorem same_offers {t t' : Summaries} {calls : List CallSite}
    (hfacts : ∀ cs ∈ calls, applied_facts t cs = applied_facts t' cs)
    (hends : ∀ cs ∈ calls, ∀ x, x = cs.result_fqn ∨ some x ∈ cs.args →
      (def_to_node (link_values inputs opts) x).isSome ∧ (def_to_node (link_values inputs' opts) x).isSome) :
    List.Forall₂ (SameEdge opts inputs inputs')
      ((calls.flatMap (offered t (def_to_node (link_values inputs opts)))).map fun e => e [])
      ((calls.flatMap (offered t' (def_to_node (link_values inputs' opts)))).map fun e => e []) := by
  have hcall : ∀ cs ∈ calls, List.Forall₂ (SameEdge opts inputs inputs')
      ((offered t (def_to_node (link_values inputs opts)) cs).map fun e => e [])
      ((offered t' (def_to_node (link_values inputs' opts)) cs).map fun e => e []) := by
    intro cs hcs
    have hargs : ∀ fact ∈ applied_facts t cs, some fact.2 ∈ cs.args := by
      intro fact hfact
      obtain ⟨_, _, _, _, _, _, harg⟩ := mem_applied_facts.mp hfact
      exact List.mem_of_getElem? harg
    obtain ⟨hresult, hresult'⟩ := hends cs hcs cs.result_fqn (.inl rfl)
    obtain ⟨result, hresult⟩ := Option.isSome_iff_exists.mp hresult
    obtain ⟨result', hresult'⟩ := Option.isSome_iff_exists.mp hresult'
    rw [offered, offered, ← hfacts cs hcs]
    generalize applied_facts t cs = facts at hargs ⊢
    induction facts with
    | nil => exact .nil
    | cons fact rest ih =>
      obtain ⟨hsource, hsource'⟩ := hends cs hcs fact.2 (.inr (hargs fact List.mem_cons_self))
      obtain ⟨source, hsource⟩ := Option.isSome_iff_exists.mp hsource
      obtain ⟨source', hsource'⟩ := Option.isSome_iff_exists.mp hsource'
      simp only [List.filterMap_cons, hresult, hresult', hsource, hsource', Option.bind_eq_bind, Option.bind_some,
        Option.pure_def, List.map_cons]
      refine .cons ⟨cs.result_fqn, fact.2, hresult, hsource, hresult', hsource', rfl⟩ ?_
      have hrest := ih fun fact' hfact' => hargs fact' (List.mem_cons_of_mem fact hfact')
      simpa only [hresult, hresult', Option.bind_eq_bind, Option.bind_some, Option.pure_def] using hrest
  clear hfacts hends
  induction calls with
  | nil => exact .nil
  | cons cs rest ih =>
    rw [List.flatMap_cons, List.flatMap_cons, List.map_append, List.map_append]
    exact List.rel_append (hcall cs List.mem_cons_self) (ih fun cs' hcs' => hcall cs' (List.mem_cons_of_mem cs hcs'))

end edges

/-! ### What the dirty functions cover -/

section covers

variable (narrow : List FileInput → SymbolTable → Site → Narrowed) (opts : LinkOpts) (budget : Nat)
  (facts_hash : List DataFlowFact → String)

/-- A definition of that name is in the graph. -/
def Present (inputs : List FileInput) (f : String) : Prop :=
  ∃ n ∈ build_nodes inputs, n.node.fqn = f

/-- What an opaque fact of a function is taken for a call of. -/
def callee_of (inputs : List FileInput) (f : String) (df : DataFlowFact) : Option String :=
  summary_callee inputs (pass_edges narrow inputs opts) f df

/-- A function of both runs that has another summary or other interprocedural edges in the
second run is dirty there, given the cache of the first. -/
def DirtyCovers (inputs inputs' : List FileInput) : Prop :=
  ∀ earlier prior,
    prior.Perm (build_incremental_substrate facts_hash inputs (symbol_table inputs) earlier).fn_intraproc_cache →
    ∀ f, Present inputs f → Present inputs' f → ¬ SameResults narrow opts budget inputs inputs' f →
      f ∈ propagate_dirty (build_incremental_substrate facts_hash inputs' (symbol_table inputs') prior).changed_fns
        (build_incremental_substrate facts_hash inputs' (symbol_table inputs') prior).summary_deps

/-- The facts of a function show what the summary pass reads of it: they stand in one file and
do not all go away, their hash tells them apart, with the same facts come the same path,
parameters and callees, and a callee whose summary is applied is the one that is recorded. -/
structure Traced (inputs inputs' : List FileInput) (f : String) : Prop where
  one_file : (fn_files inputs f).length ≤ 1
  one_file' : (fn_files inputs' f).length ≤ 1
  kept : fn_facts inputs' f = [] → fn_facts inputs f = []
  hashed : facts_hash (fn_facts inputs f) = facts_hash (fn_facts inputs' f) → fn_facts inputs f = fn_facts inputs' f
  paths : fn_facts inputs f = fn_facts inputs' f →
    (fn_files inputs f).map FileInput.path = (fn_files inputs' f).map FileInput.path
  parameters : fn_facts inputs f = fn_facts inputs' f → signatures inputs f = signatures inputs' f
  callees : fn_facts inputs f = fn_facts inputs' f → ∀ df ∈ fn_facts inputs' f, is_opaque df = true →
    callee_of narrow opts inputs f df = callee_of narrow opts inputs' f df
  recorded : ∀ df ∈ fn_facts inputs' f, is_opaque df = true → ∀ g ∈ callee_of narrow opts inputs' f df,
    ground_callee (symbol_table inputs') df.callee_fqn = g ∨ ground_callee (symbol_table inputs') df.callee_fqn = WILDCARD

instance (inputs inputs' : List FileInput) (f : String) :
    Decidable (Traced narrow opts facts_hash inputs inputs' f) :=
  decidable_of_iff
    ((fn_files inputs f).length ≤ 1 ∧ (fn_files inputs' f).length ≤ 1 ∧
      (fn_facts inputs' f = [] → fn_facts inputs f = []) ∧
      (facts_hash (fn_facts inputs f) = facts_hash (fn_facts inputs' f) → fn_facts inputs f = fn_facts inputs' f) ∧
      (fn_facts inputs f = fn_facts inputs' f →
        (fn_files inputs f).map FileInput.path = (fn_files inputs' f).map FileInput.path) ∧
      (fn_facts inputs f = fn_facts inputs' f → signatures inputs f = signatures inputs' f) ∧
      (fn_facts inputs f = fn_facts inputs' f → ∀ df ∈ fn_facts inputs' f, is_opaque df = true →
        callee_of narrow opts inputs f df = callee_of narrow opts inputs' f df) ∧
      ∀ df ∈ fn_facts inputs' f, is_opaque df = true → ∀ g ∈ callee_of narrow opts inputs' f df,
        ground_callee (symbol_table inputs') df.callee_fqn = g ∨
          ground_callee (symbol_table inputs') df.callee_fqn = WILDCARD)
    ⟨fun ⟨h₁, h₂, h₃, h₄, h₅, h₆, h₇, h₈⟩ => ⟨h₁, h₂, h₃, h₄, h₅, h₆, h₇, h₈⟩,
      fun h => ⟨h.one_file, h.one_file', h.kept, h.hashed, h.paths, h.parameters, h.callees, h.recorded⟩⟩

variable {narrow opts budget facts_hash} {inputs inputs' : List FileInput} {f : String}

theorem own_parts_eq (hone : (fn_files inputs f).length ≤ 1)
    (hpaths : (fn_files inputs f).map FileInput.path = (fn_files inputs' f).map FileInput.path)
    (hfacts : fn_facts inputs f = fn_facts inputs' f) : own_parts inputs f = own_parts inputs' f := by
  rw [fn_facts_eq, fn_facts_eq] at hfacts
  rw [own_parts, own_parts]
  have hlength := congrArg List.length hpaths
  rw [List.length_map, List.length_map] at hlength
  cases hfiles : fn_files inputs f with
  | nil =>
    rw [hfiles, List.length_nil, eq_comm, List.length_eq_zero_iff] at hlength
    rw [hlength]
  | cons file rest =>
    rw [hfiles, List.length_cons] at hone
    obtain rfl : rest = [] := List.length_eq_zero_iff.mp (by omega)
    rw [hfiles, List.length_singleton, eq_comm, List.length_eq_one_iff] at hlength
    obtain ⟨file', hfiles'⟩ := hlength
    rw [hfiles, hfiles', List.flatMap_singleton, List.flatMap_singleton] at hfacts
    rw [hfiles, hfiles', List.map_singleton, List.map_singleton] at hpaths
    rw [hfiles', List.map_singleton, List.map_singleton, hfacts, List.singleton_inj.mp hpaths]

/-- A function whose summary is applied is in the graph. -/
theorem present_of_callee {df : DataFlowFact} {g : String} (h : callee_of narrow opts inputs f df = some g) :
    Present inputs g := by
  rw [callee_of, summary_callee, ground_summary_callee] at h
  obtain ⟨path, _, h⟩ := Option.bind_eq_some_iff.mp h
  split at h
  case h_1 fqn hsite =>
    obtain ⟨caller_id, _, hsite⟩ := Option.bind_eq_some_iff.mp hsite
    obtain rfl := Option.some.inj h
    obtain ⟨id, n, hn, hfqn, _⟩ := summary_site_callees_eq_some hsite
    exact ⟨n, List.mem_of_getElem? hn, hfqn⟩
  case h_2 =>
    obtain ⟨d, hd, hfqn⟩ := Option.map_eq_some_iff.mp h
    obtain ⟨hd, _⟩ := Option.filter_eq_some_iff.mp hd
    have hentry : d ∈ (symbol_table inputs).entries := List.mem_reverse.mp (List.mem_of_find?_eq_some hd)
    obtain ⟨record, hrecord, rfl⟩ := List.mem_map.mp hentry
    obtain ⟨n, hn, rfl⟩ := List.mem_map.mp hrecord
    exact ⟨n, hn, hfqn⟩

/-- The functions of both runs that are not dirty in the second. -/
def clean (facts_hash : List DataFlowFact → String) (inputs inputs' : List FileInput) (prior : List CacheRow) : Set String :=
  {f | Present inputs f ∧ Present inputs' f ∧
    f ∉ propagate_dirty (build_incremental_substrate facts_hash inputs' (symbol_table inputs') prior).changed_fns
      (build_incremental_substrate facts_hash inputs' (symbol_table inputs') prior).summary_deps}

section

variable {earlier prior : List CacheRow}
  (hprior : prior.Perm (build_incremental_substrate facts_hash inputs (symbol_table inputs) earlier).fn_intraproc_cache)
  (htraced : ∀ f, Present inputs f → Present inputs' f → Traced narrow opts facts_hash inputs inputs' f)
include hprior htraced

theorem same_facts_of_clean (hf : f ∈ clean facts_hash inputs inputs' prior) : fn_facts inputs f = fn_facts inputs' f := by
  obtain ⟨hpresent, hpresent', hclean⟩ := hf
  have h := htraced f hpresent hpresent'
  refine same_facts_of_unchanged h.one_file h.one_file' h.kept h.hashed hprior (symbol_table inputs') fun hchanged => hclean ?_
  exact mem_propagate_dirty.mpr (.changed hchanged)

/-- The summary pass reads the same of the functions that are not dirty. -/
theorem same_flow_of_clean (hf : f ∈ clean facts_hash inputs inputs' prior) :
    (flows narrow opts inputs).get f = (flows narrow opts inputs').get f := by
  have hfacts := same_facts_of_clean hprior htraced hf
  obtain ⟨hpresent, hpresent', _⟩ := hf
  have h := htraced f hpresent hpresent'
  rw [flows, flows, get_fn_dataflow, get_fn_dataflow, h.parameters hfacts, own_parts_eq h.one_file (h.paths hfacts) hfacts]
  apply own_flow_congr
  intro part hpart df hdf hopaque
  obtain ⟨file, hfile, rfl⟩ := List.mem_map.mp hpart
  have hin : df ∈ fn_facts inputs' f := by
    rw [fn_facts_eq]
    exact List.mem_flatMap.mpr ⟨file, hfile, hdf⟩
  exact h.callees hfacts df hin hopaque

/-- What a function calls that is not dirty is not dirty. -/
theorem callee_of_clean (hf : f ∈ clean facts_hash inputs inputs' prior) {fd : FnDataflow}
    (hfd : (flows narrow opts inputs).get f = some fd) {cs : CallSite} (hcs : cs ∈ fd.calls) {g : String}
    (hg : cs.callee_fqn = some g) : g ∈ clean facts_hash inputs inputs' prior := by
  have hfacts := same_facts_of_clean hprior htraced hf
  obtain ⟨hpresent, hpresent', hclean⟩ := hf
  have h := htraced f hpresent hpresent'
  obtain ⟨file, hfile, df, hdf, caller, r, hopaque, hcaller, rfl, rfl⟩ := fn_dataflow_calls f fd hfd cs hcs
  have hown : df ∈ own_facts file caller.fqn := by
    refine List.mem_filter.mpr ⟨hdf, decide_eq_true ?_⟩
    rw [function_fqn, hcaller]
    rfl
  have hin : df ∈ fn_facts inputs' caller.fqn := hfacts ▸ List.mem_flatMap.mpr ⟨file, hfile, hown⟩
  have hcallee : callee_of narrow opts inputs caller.fqn df = some g := hg
  have hcallee' : callee_of narrow opts inputs' caller.fqn df = some g := (h.callees hfacts df hin hopaque) ▸ hcallee
  refine ⟨present_of_callee hcallee, present_of_callee hcallee', fun hdirty => hclean ?_⟩
  have hdep : (caller.fqn, ground_callee (symbol_table inputs') df.callee_fqn) ∈
      (build_incremental_substrate facts_hash inputs' (symbol_table inputs') prior).summary_deps :=
    dep_of_fact h.one_file' hin hopaque
  refine mem_propagate_dirty.mpr ((mem_propagate_dirty.mp hdirty).of_dep ?_)
  obtain hsame | hany := h.recorded df hin hopaque g hcallee'
  · exact .inl (hsame ▸ hdep)
  · exact .inr (hany ▸ hdep)

/-- Functions that are not dirty have the same results in both runs, if neither runs out of
budget. -/
theorem same_results_of_clean (hon : opts.dataflow = true) (hbudget : WithinBudget narrow opts budget inputs)
    (hbudget' : WithinBudget narrow opts budget inputs') (hf : f ∈ clean facts_hash inputs inputs' prior) :
    SameResults narrow opts budget inputs inputs' f := by
  have hagree : Agree (flows narrow opts inputs) (flows narrow opts inputs') (clean facts_hash inputs inputs' prior) :=
    ⟨fun f hf => same_flow_of_clean hprior htraced hf,
      fun f hf fd hfd cs hcs g hg => callee_of_clean hprior htraced hf hfd hcs hg⟩
  have hsummaries : ∀ g ∈ clean facts_hash inputs inputs' prior,
      (summary_pass narrow opts budget inputs).summaries g = (summary_pass narrow opts budget inputs').summaries g :=
    fun g hg => hagree.summaries_eq hbudget.settled hbudget'.settled hg
  refine ⟨hsummaries f hf, ?_⟩
  rw [fn_edges_within hbudget, fn_edges_within hbudget', ← hagree.same f hf]
  cases hfd : (flows narrow opts inputs).get f with
  | none => exact .nil
  | some fd =>
    have hfd' : (flows narrow opts inputs').get f = some fd := hagree.same f hf ▸ hfd
    rw [Option.toList_some, List.flatMap_singleton, List.flatMap_singleton]
    refine same_offers (fun cs hcs => ?_) fun cs hcs x hx => ?_
    · rw [applied_facts, applied_facts]
      cases hg : cs.callee_fqn with
      | none => rfl
      | some g => rw [Option.bind_some, Option.bind_some, hsummaries g (hagree.closed f hf fd hfd cs hcs g hg)]
    · exact ⟨call_ends_have_nodes hon hfd hcs hx, call_ends_have_nodes hon hfd' hcs hx⟩

end

end covers

namespace sample

/-- `m::g(x)` with this body, and `m::f(a)` with `r = g(a)`. -/
def calling_g (blob_oid : String) (body : List DataFlowFact) : FileInput where
  blob_oid := blob_oid
  path := "m.py"
  lang := "python"
  facts :=
    { FileFacts.empty with
      defs := [ python_def "m::g" 1 [⟨"x", none, false, false⟩], python_def "m::f" 4 [⟨"a", none, false, false⟩]]
      refs :=
        [{ name_path := ["g"], scope := ⟨2⟩, kind := .Call, edge_condition := .Always, implicit := none,
           span := ⟨"m.py", 5, some 8⟩, stmt_index := 0, arity := some 1, cut_markers := [] }]
      data_flows := body ++
        [{ derived := ["r"], source := [], derived_version := 1, scope := ⟨2⟩, transform := .Copy,
           edge_condition := .Always, cut_markers := [.OpaqueCall], callee_fqn := some "g",
           args := [["a"]], span := ⟨"m.py", 5, some 4⟩ }]
      scopes := ⟨[⟨none, none⟩, ⟨some .ROOT, some "m::g"⟩, ⟨some .ROOT, some "m::f"⟩]⟩ }

/-- The names that the facts derive and read. -/
def digest (facts : List DataFlowFact) : String :=
  facts.foldl (fun acc df => df.derived.foldl String.append (df.source.foldl String.append acc)) ""

/-- `return x` -/
def returning : List FileInput :=
  [calling_g "b1" [assignment "return" "x" 1 2]]

/-- `y = x; return y` -/
def passing_on : List FileInput :=
  [calling_g "b2" [assignment "y" "x" 1 2, assignment "return" "y" 1 3]]

/-- `pass` -/
def dropping : List FileInput :=
  [calling_g "b3" []]

end sample

end cgx.resolve
