import Cgx.Resolve.BlindSpots
import Cgx.Resolve.Reaching

open cgx.core cgx.frontend sorting history last Std

namespace cgx.resolve

/-! ### The definition that reaches a use -/

instance : TransCmp span_cmp :=
  inferInstanceAs (TransCmp (compareLex (compareOn Span.file) (compareLex (compareOn Span.line) (compareOn Span.col))))

instance : TransCmp fact_cmp :=
  haveI : TransCmp fun a b : DataFlowFact => span_cmp a.span b.span := trans_on span_cmp DataFlowFact.span
  inferInstanceAs (TransCmp (compareLex (fun a b : DataFlowFact => span_cmp a.span b.span)
    (compareLex (compareOn DataFlowFact.derived) (compareOn DataFlowFact.derived_version))))

theorem span_cmp_self (a : Span) : span_cmp a a = .eq :=
  ReflCmp.compare_self

theorem eq_of_span_cmp {a b : Span} (h : span_cmp a b = .eq) : a = b := by
  simp only [span_cmp, compareLex, compareOn, Ordering.then_eq_eq] at h
  obtain ⟨file, line, col⟩ := a
  obtain ⟨file', line', col'⟩ := b
  obtain rfl : file = file' := LawfulEqCmp.eq_of_compare h.1
  obtain rfl : line = line' := LawfulEqCmp.eq_of_compare h.2.1
  obtain rfl : col = col' := LawfulEqCmp.eq_of_compare h.2.2
  rfl

/-- Program order goes by spans first. -/
theorem span_isLE {a b : DataFlowFact} (h : (fact_cmp a b).isLE) : (span_cmp a.span b.span).isLE := by
  rw [fact_cmp, compareLex] at h
  cases hspan : span_cmp a.span b.span with
  | lt => rfl
  | eq => rfl
  | gt =>
    rw [hspan] at h
    exact h

/-- The facts of one function stand at different spans. -/
def DistinctSpans (file : FileInput) : Prop :=
  file.facts.data_flows.Pairwise fun a b =>
    function_scope file a = function_scope file b → (function_scope file a).isSome = true → a.span ≠ b.span

instance (file : FileInput) : Decidable (DistinctSpans file) :=
  inferInstanceAs (Decidable (List.Pairwise _ _))

/-- A fact of the function of `d` that defines the local and precedes `d` in span order. -/
structure Reaches (file : FileInput) (d : DataFlowFact) (local_name : String) (d' : DataFlowFact) : Prop where
  mem : d' ∈ file.facts.data_flows
  same_function : function_scope file d' = function_scope file d
  defines : derived_local d' = local_name
  precedes : span_cmp d'.span d.span = .lt

/-- The version that `d` reads of a local: the one written last before it by its function, or
the initial one. -/
inductive ReachingVersion (file : FileInput) (d : DataFlowFact) (local_name : String) : UInt32 → Prop
  | written {d' : DataFlowFact} : Reaches file d local_name d' →
      (∀ d'', Reaches file d local_name d'' → (span_cmp d''.span d'.span).isLE) →
      ReachingVersion file d local_name d'.derived_version
  | initial : (∀ d', ¬ Reaches file d local_name d') → ReachingVersion file d local_name 0

/-- A fact of the function with that scope writes the local. -/
def own_defines (file : FileInput) (sid : ScopeId) (local_name : String) (df : DataFlowFact) : Bool :=
  function_scope file df = some sid ∧ derived_local df = local_name

/-- The version of a local that its own function has reached behind some facts. -/
def own_version (file : FileInput) (before : List DataFlowFact) (sid : ScopeId) (local_name : String) : UInt32 :=
  latest (own_defines file sid local_name) DataFlowFact.derived_version 0 before

section

variable {file : FileInput} {before : List DataFlowFact} {d d' : DataFlowFact} {sid : ScopeId} {local_name : String}

theorem distinct_program_order (hspans : DistinctSpans file) :
    (program_order file).Pairwise fun a b =>
      function_scope file a = function_scope file b → (function_scope file a).isSome = true → a.span ≠ b.span := by
  refine ((perm_sort_by _).pairwise_iff ?_).mpr hspans
  intro a b h hsame hsome heq
  exact h hsame.symm (hsame ▸ hsome) heq.symm

theorem sorted_program_order (file : FileInput) : (program_order file).Pairwise fun a b => (fact_cmp a b).isLE :=
  pairwise_sort_by _

/-- What precedes a fact in program order and defines a local in its function reaches it. -/
theorem fact_reaches_iff (hspans : DistinctSpans file) (hd : (before, d) ∈ preceded (program_order file))
    (hscope : function_scope file d = some sid) :
    Reaches file d local_name d' ↔ d' ∈ before ∧ own_defines file sid local_name d' = true := by
  obtain ⟨after, horder⟩ := mem_preceded.mp hd
  have hsorted := sorted_program_order file
  have hdistinct := distinct_program_order hspans
  rw [horder, List.pairwise_append, List.pairwise_cons] at hsorted
  rw [horder, List.pairwise_append, List.pairwise_cons] at hdistinct
  constructor
  · intro h
    have hown : own_defines file sid local_name d' = true := decide_eq_true ⟨h.same_function.trans hscope, h.defines⟩
    refine ⟨?_, hown⟩
    have hmem : d' ∈ program_order file := mem_sort_by.mpr h.mem
    have hlt := h.precedes
    rw [horder, List.mem_append, List.mem_cons] at hmem
    obtain hbefore | rfl | hafter := hmem
    · exact hbefore
    · rw [span_cmp_self] at hlt
      cases hlt
    · have hle := span_isLE (hsorted.2.1.1 d' hafter)
      rw [isLE_iff_ne_lt] at hle
      exact absurd hlt hle
  · rintro ⟨hbefore, hown⟩
    obtain ⟨hown, hlocal⟩ := of_decide_eq_true hown
    have hmem : d' ∈ program_order file := horder ▸ List.mem_append_left _ hbefore
    refine ⟨mem_sort_by.mp hmem, hown.trans hscope.symm, hlocal, ?_⟩
    have hle := span_isLE (hsorted.2.2 d' hbefore d List.mem_cons_self)
    have hne := hdistinct.2.2 d' hbefore d List.mem_cons_self (hown.trans hscope.symm) (by rw [hown]; rfl)
    cases hspan : span_cmp d'.span d.span with
    | lt => rfl
    | eq => exact absurd (eq_of_span_cmp hspan) hne
    | gt =>
      rw [hspan] at hle
      cases hle

/-- The version that reaches a fact is the one that its function has reached behind the facts
before it. -/
theorem reaching_version_iff (hspans : DistinctSpans file) (hd : (before, d) ∈ preceded (program_order file))
    (hscope : function_scope file d = some sid) {v : UInt32} :
    ReachingVersion file d local_name v ↔ v = own_version file before sid local_name := by
  have hreaches : ∀ d', Reaches file d local_name d' ↔ d' ∈ before ∧ own_defines file sid local_name d' = true :=
    fun _ => fact_reaches_iff hspans hd hscope
  obtain ⟨after, horder⟩ := mem_preceded.mp hd
  rw [own_version, latest]
  cases hfind : before.reverse.find? (own_defines file sid local_name) with
  | none =>
    have hnone : ∀ d', ¬ Reaches file d local_name d' := by
      intro d' h
      obtain ⟨hmem, hown⟩ := (hreaches d').mp h
      exact List.find?_eq_none.mp hfind d' (List.mem_reverse.mpr hmem) hown
    constructor
    · intro h
      cases h with
      | written h _ => exact absurd h (hnone _)
      | initial _ => rfl
    · rintro rfl
      exact .initial hnone
  | some e =>
    obtain ⟨b, c, rfl, hown, hlater⟩ := find?_reverse_eq_some_iff.mp hfind
    have he : Reaches file d local_name e := (hreaches e).mpr ⟨by simp, hown⟩
    have hsorted := sorted_program_order file
    have hdistinct := distinct_program_order hspans
    rw [horder, List.append_assoc, List.pairwise_append] at hsorted
    rw [horder, List.append_assoc, List.pairwise_append] at hdistinct
    -- What defines the local before `d` is `e`, or stands before `e`.
    have hcases : ∀ d', Reaches file d local_name d' → d' = e ∨ d' ∈ b := by
      intro d' h
      obtain ⟨hmem, hown'⟩ := (hreaches d').mp h
      obtain hb | hcons := List.mem_append.mp hmem
      · exact .inr hb
      · obtain heq | hc := List.mem_cons.mp hcons
        · exact .inl heq
        · rw [hlater d' hc] at hown'
          cases hown'
    have hmax : ∀ d', Reaches file d local_name d' → (span_cmp d'.span e.span).isLE := by
      intro d' h
      obtain rfl | hb := hcases d' h
      · rw [span_cmp_self]
        rfl
      · exact span_isLE (hsorted.2.2 d' hb e List.mem_cons_self)
    constructor
    · intro h
      cases h with
      | initial hnone => exact absurd he (hnone e)
      | @written d' h hlast =>
        obtain rfl | hb := hcases d' h
        · rfl
        · have heq : span_cmp d'.span e.span = .eq := by
            have hle := hmax d' h
            have hge := hlast e he
            rw [isLE_iff_ne_lt] at hge
            cases hspan : span_cmp d'.span e.span with
            | lt => exact absurd hspan hge
            | eq => rfl
            | gt =>
              rw [hspan] at hle
              cases hle
          have hne := hdistinct.2.2 d' hb e List.mem_cons_self (h.same_function.trans he.same_function.symm)
            (by rw [h.same_function, hscope]; rfl)
          exact absurd (eq_of_span_cmp heq) hne
    · rintro rfl
      exact .written he hmax

end

/-! ### The nodes of the values -/

/-- The names of the staged values. -/
def Replay.names (r : Replay) : List String :=
  r.stages.map ValueNodeStage.fqn

theorem mem_names_intern {stage : ValueNodeStage} {stages : List ValueNodeStage} {fqn : String} :
    fqn ∈ (intern stage stages).map ValueNodeStage.fqn ↔ fqn ∈ stages.map ValueNodeStage.fqn ∨ fqn = stage.fqn := by
  rw [intern]
  split
  · rename_i hany
    obtain ⟨s, hs, heq⟩ := List.any_eq_true.mp hany
    refine ⟨.inl, fun h => h.elim id fun hfqn => ?_⟩
    rw [hfqn, ← of_decide_eq_true heq]
    exact List.mem_map_of_mem hs
  · rw [List.map_append, List.mem_append, List.map_singleton, List.mem_singleton]

theorem names_foldl_intern_live {file : FileInput} {df : DataFlowFact} {fn_fqn fqn : String} (locals : List String)
    {r : Replay} (h : fqn ∈ r.names) : fqn ∈ (locals.foldl (Replay.intern_live file df fn_fqn) r).names := by
  induction locals generalizing r with
  | nil => exact h
  | cons l rest ih => exact ih (mem_names_intern.mpr (.inl h))

/-- Both ends of every derivation are staged. -/
def Replay.Staged (r : Replay) : Prop :=
  ∀ pe ∈ r.pending, pe.derived_fqn ∈ r.names ∧ pe.source_fqn ∈ r.names

theorem staged_replay_fact {file : FileInput} {fn_fqn : String} {df : DataFlowFact} {r : Replay} (h : r.Staged) :
    (replay_fact file fn_fqn df r).Staged := by
  have hkept : ∀ fqn (r' : Replay), fqn ∈ r'.names → ∀ args : List String,
      fqn ∈ (args.foldl (Replay.intern_live file df fn_fqn)
        (df.source.head?.toList.foldl (Replay.intern_live file df fn_fqn) r')).names :=
    fun fqn r' hr args => names_foldl_intern_live args (names_foldl_intern_live _ hr)
  have hderived : ∀ fqn, fqn ∈ r.names ∨ fqn = value_fqn fn_fqn (derived_local df) df.derived_version →
      fqn ∈ (intern (value_stage (value_fqn fn_fqn (derived_local df) df.derived_version) file df.span) r.stages).map
        ValueNodeStage.fqn := fun fqn hfqn => mem_names_intern.mpr hfqn
  intro pe hpe
  rw [replay_fact] at hpe ⊢
  simp only [(foldl_intern_live ..).2] at hpe
  obtain hold | hnew := List.mem_append.mp hpe
  · obtain ⟨h1, h2⟩ := h pe hold
    exact ⟨hkept _ _ (hderived _ (.inl h1)) _, hkept _ _ (hderived _ (.inl h2)) _⟩
  · cases hsource : df.source.head? with
    | none =>
      rw [hsource] at hnew
      cases hnew
    | some source_local =>
      rw [hsource] at hnew
      obtain rfl := List.mem_singleton.mp hnew
      rw [hsource] at hkept
      refine ⟨hkept _ _ (hderived _ (.inr rfl)) _, ?_⟩
      exact names_foldl_intern_live _ (mem_names_intern.mpr (.inr rfl))

theorem staged_replay_files (inputs : List FileInput) : (replay_files inputs).Staged := by
  have hstep : ∀ (file : FileInput) (facts : List DataFlowFact) (r : Replay), r.Staged →
      (facts.foldl (replay_step file) r).Staged := by
    intro file facts
    induction facts with
    | nil => exact fun r h => h
    | cons df rest ih =>
      intro r h
      apply ih
      rw [replay_step]
      split
      · exact staged_replay_fact h
      · exact h
  have hfiles : ∀ r : Replay, r.Staged → (inputs.foldl replay_file r).Staged := by
    induction inputs with
    | nil => exact fun r h => h
    | cons file rest ih => exact fun r h => ih _ (hstep file _ _ h)
  refine hfiles _ fun pe hpe => ?_
  cases hpe

variable {inputs : List FileInput} {opts : LinkOpts}

/-- A staged value has a value node. -/
theorem value_of_name (opts : LinkOpts) (hon : opts.dataflow = true) {fqn : String} (h : fqn ∈ (replay_files inputs).names) :
    ∃ v ∈ link_values inputs opts, def_to_node (link_values inputs opts) fqn = some v.node.id ∧ v.node.fqn = fqn := by
  obtain ⟨stage, hstage, hfqn⟩ := List.mem_map.mp h
  have hmem : ∃ v ∈ link_values inputs opts, v.node.fqn = fqn := by
    rw [link_values, if_pos hon, value_nodes]
    have hsorted : stage.into_node ∈ sort_by node_order ((replay_files inputs).stages.map ValueNodeStage.into_node) :=
      mem_sort_by.mpr (List.mem_map_of_mem hstage)
    obtain ⟨i, hi, heq⟩ := List.getElem_of_mem hsorted
    refine ⟨_, List.mem_mapIdx.mpr ⟨i, hi, rfl⟩, ?_⟩
    rw [heq]
    exact hfqn
  obtain ⟨v, hv, hname⟩ := hmem
  have hsome : ((link_values inputs opts).reverse.find? fun n => n.node.fqn = fqn).isSome := by
    rw [List.find?_isSome]
    exact ⟨v, List.mem_reverse.mpr hv, decide_eq_true hname⟩
  obtain ⟨u, hu⟩ := Option.isSome_iff_exists.mp hsome
  have hfound := List.find?_some hu
  refine ⟨u, List.mem_reverse.mp (List.mem_of_find?_eq_some hu), ?_, of_decide_eq_true hfound⟩
  rw [def_to_node, hu, Option.map_some]

/-! ### The edges of the facts -/

/-- A fact at its place in the program order of its file. -/
structure Occurrence where
  file : FileInput
  before : List DataFlowFact
  fact : DataFlowFact

def occurrences (inputs : List FileInput) : List Occurrence :=
  inputs.flatMap fun file => (preceded (program_order file)).map fun t => ⟨file, t.1, t.2⟩

/-- The edge of a derivation in the linked graph. -/
def derivation_edge (inputs : List FileInput) (opts : LinkOpts) (pe : PendingDataFlowEdge) : Option EdgeWithProvenance :=
  (def_to_node (link_values inputs opts) pe.derived_fqn).bind fun derived =>
    ((def_to_node (link_values inputs opts) pe.source_fqn).or (def_to_node (build_nodes inputs) pe.source_fqn)).map
      fun source => linked_edge inputs opts (data_flow_edge derived source pe)

/-- The edge that a fact leaves. -/
def Occurrence.edge (inputs : List FileInput) (opts : LinkOpts) (o : Occurrence) : Option EdgeWithProvenance :=
  (derivation o.file o.before o.fact).bind (derivation_edge inputs opts)

/-- An edge that a fact of a function left, not one of the summary pass. -/
def is_derivation (e : EdgeWithProvenance) : Bool :=
  e.edge.kind = .DerivesFrom ∧ e.edge.rule = "derives-from"

theorem edge_kind_ne_derives (kind : RefKind) (virtual_dispatch : Bool) : edge_kind kind virtual_dispatch ≠ .DerivesFrom := by
  cases kind <;> cases virtual_dispatch <;> exact fun h => nomatch h

/-- The references leave no derivations. -/
theorem link_refs_no_derivation (env : LinkEnv) : ∀ e ∈ (link_refs env inputs opts).edges, e.edge.kind ≠ .DerivesFrom := by
  intro e he hkind
  obtain ⟨site, _, e', he', hkind'⟩ := (exists_edge_link_refs (p := fun e => e.edge.kind = .DerivesFrom)
    fun _ => Iff.rfl).mp ⟨e, he, hkind⟩
  obtain ⟨virtual_dispatch, hedge⟩ := emitted_kind he'
  exact edge_kind_ne_derives _ _ (hedge.symm.trans hkind')

theorem filterMap_occurrences (inputs : List FileInput) (opts : LinkOpts) :
    (occurrences inputs).filterMap (Occurrence.edge inputs opts) =
      (replay_files inputs).pending.filterMap (derivation_edge inputs opts) := by
  have hfiles : ∀ files : List FileInput, (occurrences files).filterMap (Occurrence.edge inputs opts) =
      (files.flatMap file_derivations).filterMap (derivation_edge inputs opts) := by
    intro files
    induction files with
    | nil => rfl
    | cons file rest ih =>
      rw [occurrences, List.flatMap_cons, List.filterMap_append, ← occurrences, ih, List.flatMap_cons,
        List.filterMap_append, List.filterMap_map, file_derivations, List.filterMap_filterMap]
      rfl
  rw [pending_replay_files, hfiles]

section

variable (narrow : List FileInput → SymbolTable → Site → Narrowed) (budget : Nat) (inputs : List FileInput) (opts : LinkOpts)

/-- The derivations of the linked graph are the edges of the facts. -/
theorem perm_derivation_edges (hon : opts.dataflow = true) :
    (((link (linker narrow opts budget) inputs opts).edges.filter is_derivation).map stem).Perm
      (((occurrences inputs).filterMap (Occurrence.edge inputs opts)).map stem) := by
  have hnumbers := fun l => map_filter_stem (p := is_derivation) (f := stem) (fun _ => rfl) (fun _ => rfl) l
  have hperm := ((perm_link_stems (linker narrow opts budget) inputs opts).filter is_derivation).map stem
  rw [hnumbers] at hperm
  refine hperm.trans (.of_eq ?_)
  have hstaged : is_derivation ∘ (fun e => stem (linked_edge inputs opts e)) = is_derivation := rfl
  have hrefs : (link_refs (linker narrow opts budget) inputs opts).edges.filter is_derivation = [] := by
    rw [List.filter_eq_nil_iff]
    intro e he hsome
    exact link_refs_no_derivation _ e he (of_decide_eq_true hsome).1
  have hrelations : (inputs.flatMap fun file => file.facts.impl_relations.filterMap
      (resolve_impl_relation (build_nodes inputs) (symbol_table inputs) file)).filter is_derivation = [] := by
    rw [List.filter_eq_nil_iff]
    intro e he hsome
    obtain ⟨file, _, he⟩ := List.mem_flatMap.mp he
    obtain ⟨rel, _, hrel⟩ := List.mem_filterMap.mp he
    have hkind := impl_relation_kind hrel
    rw [(of_decide_eq_true hsome).1] at hkind
    simp at hkind
  have hsummary : ((linker narrow opts budget).summary_edges inputs
      (def_to_node (link_values inputs opts))).filter is_derivation = [] := by
    rw [List.filter_eq_nil_iff]
    intro e he hsome
    have hrule := (of_decide_eq_true hsome).2
    obtain ⟨i, hi, rfl⟩ := List.mem_mapIdx.mp he
    obtain ⟨cs, _, hoffer⟩ := mem_all_offers.mp (List.getElem_mem hi)
    obtain ⟨fact, _, result, source, _, _, hedge⟩ := mem_offered.mp hoffer
    rw [hedge] at hrule
    have hsame : "interprocedural" = "derives-from" := hrule
    revert hsame
    decide
  have hderived : (data_flow_edges (build_nodes inputs) (link_values inputs opts)
      (replay_files inputs).pending).filter is_derivation =
        data_flow_edges (build_nodes inputs) (link_values inputs opts) (replay_files inputs).pending := by
    rw [List.filter_eq_self]
    intro e he
    obtain ⟨pe, _, hpe⟩ := List.mem_filterMap.mp he
    obtain ⟨derived, _, hpe⟩ := Option.bind_eq_some_iff.mp hpe
    obtain ⟨source, _, rfl⟩ := Option.map_eq_some_iff.mp hpe
    rfl
  rw [List.filter_map, hstaged, List.map_map, staged_edges, List.filter_append, List.filter_append, hrefs, hrelations,
    List.nil_append, List.nil_append, link_dataflow_edges, if_pos hon, List.filter_append, hderived, hsummary,
    List.append_nil, filterMap_occurrences, data_flow_edges, List.map_filterMap, List.map_filterMap]
  apply List.filterMap_congr
  intro pe _
  rw [derivation_edge, Option.map_bind, Option.map_bind]
  congr 1
  funext derived
  rw [Function.comp_apply, Function.comp_apply, Option.map_map, Option.map_map]
  rfl

/-- Every derivation of the graph is the edge of a fact, and the edge of a fact that is no
opaque call leads to the value of its source local at the version that reaches the fact. -/
structure BindsToReaching : Prop where
  edges : (((link (linker narrow opts budget) inputs opts).edges.filter is_derivation).map stem).Perm
    (((occurrences inputs).filterMap (Occurrence.edge inputs opts)).map stem)
  binds : ∀ o ∈ occurrences inputs, is_opaque o.fact = false → ∀ fn_fqn source_local v,
    function_fqn o.file o.fact = some fn_fqn → o.fact.source.head? = some source_local →
    ReachingVersion o.file o.fact source_local v →
      ∃ e, o.edge inputs opts = some e ∧ ∃ n ∈ (link (linker narrow opts budget) inputs opts).nodes,
        n.node.id = e.edge.dst ∧ n.node.kind = .Variable ∧ n.node.fqn = value_fqn fn_fqn source_local v

end

/-- The last fact before a place that a function of that name writes the local with. -/
def last_write (file : FileInput) (before : List DataFlowFact) (fn_fqn local_name : String) : Option DataFlowFact :=
  before.reverse.find? (defines file fn_fqn local_name)

/-- Among the functions of the file with the name of the fact's function, no other one writes
the source local last before the fact, unless the version is that of the own function. -/
def Occurrence.Undisturbed (o : Occurrence) : Prop :=
  is_opaque o.fact = false → ∀ fn_fqn ∈ function_fqn o.file o.fact, ∀ sid ∈ function_scope o.file o.fact,
    ∀ source_local ∈ o.fact.source.head?, ∀ w ∈ last_write o.file o.before fn_fqn source_local,
      function_scope o.file w ≠ some sid → w.derived_version = own_version o.file o.before sid source_local

instance (o : Occurrence) : Decidable o.Undisturbed :=
  inferInstanceAs (Decidable ( is_opaque o.fact = false → ∀ fn_fqn ∈ function_fqn o.file o.fact,
    ∀ sid ∈ function_scope o.file o.fact, ∀ source_local ∈ o.fact.source.head?,
      ∀ w ∈ last_write o.file o.before fn_fqn source_local,
        function_scope o.file w ≠ some sid → w.derived_version = own_version o.file o.before sid source_local))

/-- What a function writes is written under its name. -/
theorem defines_of_own {file : FileInput} {d w : DataFlowFact} {fn_fqn local_name : String} {sid : ScopeId}
    (hfn : function_fqn file d = some fn_fqn) (hscope : function_scope file d = some sid)
    (hown : own_defines file sid local_name w = true) : defines file fn_fqn local_name w = true := by
  obtain ⟨hsame, hlocal⟩ := of_decide_eq_true hown
  refine decide_eq_true ⟨?_, hlocal⟩
  rw [function_fqn_eq, hscope] at hfn
  rw [function_fqn_eq, hsame, hfn]

/-- The replay has reached the function's own version unless another function wrote last. -/
theorem replayed_eq_own_iff {file : FileInput} {before : List DataFlowFact} {d : DataFlowFact}
    {fn_fqn local_name : String} {sid : ScopeId} (hfn : function_fqn file d = some fn_fqn)
    (hscope : function_scope file d = some sid) :
    replayed_version file before fn_fqn local_name = own_version file before sid local_name ↔
      ∀ w ∈ last_write file before fn_fqn local_name,
        function_scope file w ≠ some sid → w.derived_version = own_version file before sid local_name := by
  rw [replayed_version, latest, last_write]
  cases hlast : before.reverse.find? (defines file fn_fqn local_name) with
  | none =>
    have hnone : before.reverse.find? (own_defines file sid local_name) = none := by
      rw [List.find?_eq_none] at hlast ⊢
      exact fun w hw hown => hlast w hw (defines_of_own hfn hscope hown)
    rw [own_version, latest, hnone]
    refine iff_of_true rfl fun w hw => ?_
    cases hw
  | some w =>
    rw [Option.map_some, Option.getD_some]
    constructor
    · intro heq w' hw' _
      obtain rfl := Option.mem_some.mp hw'
      exact heq
    · intro h
      by_cases hown : function_scope file w = some sid
      · have hfound := List.find?_some hlast
        have hsome : before.reverse.find? (own_defines file sid local_name) = some w := by
          obtain ⟨hw, pre, post, heq, hpre⟩ := List.find?_eq_some_iff_append.mp hlast
          refine List.find?_eq_some_iff_append.mpr ⟨decide_eq_true ⟨hown, (of_decide_eq_true hfound).2⟩, pre, post, heq, ?_⟩
          intro v hv
          rw [Bool.not_eq_true', ← Bool.not_eq_true]
          intro hv'
          have hnot := hpre v hv
          rw [defines_of_own hfn hscope hv'] at hnot
          cases hnot
        rw [own_version, latest, hsome, Option.map_some, Option.getD_some]
      · exact h w rfl hown

theorem value_fqn_inj {fn_fqn local_name : String} {v w : UInt32}
    (h : value_fqn fn_fqn local_name v = value_fqn fn_fqn local_name w) : v = w := by
  have hdigits : (toString v.toNat).toList = (toString w.toNat).toList := by
    have hlist := congrArg String.toList h
    simp only [value_fqn, String.toList_append] at hlist
    exact List.append_cancel_left hlist
  have hv : (toString v.toNat).toList = Nat.toDigits 10 v.toNat := Nat.toList_repr
  have hw : (toString w.toNat).toList = Nat.toDigits 10 w.toNat := Nat.toList_repr
  have hread := congrArg (fun digits => Nat.ofDigitChars 10 digits 0) (hv.symm.trans (hdigits.trans hw))
  simp only [Nat.ofDigitChars_ten_toDigits] at hread
  exact UInt32.toNat_inj.mp hread

section

variable {narrow : List FileInput → SymbolTable → Site → Narrowed} {budget : Nat}

/-- The fact of a function with a source leaves an edge, to the version that the replay has
reached. -/
theorem occurrence_edge (hon : opts.dataflow = true)
    (hnodes : (link (linker narrow opts budget) inputs opts).nodes.length ≤ 2 ^ 32) {o : Occurrence}
    (ho : o ∈ occurrences inputs) {fn_fqn source_local : String} (hfn : function_fqn o.file o.fact = some fn_fqn)
    (hsource : o.fact.source.head? = some source_local) :
    ∃ e, o.edge inputs opts = some e ∧ ∃ n ∈ (link (linker narrow opts budget) inputs opts).nodes,
      n.node.id = e.edge.dst ∧ n.node.kind = .Variable ∧
        n.node.fqn = value_fqn fn_fqn source_local (replayed_version o.file o.before fn_fqn source_local) := by
  obtain ⟨file, hfile, hin⟩ := List.mem_flatMap.mp ho
  obtain ⟨t, ht, rfl⟩ := List.mem_map.mp hin
  have hderivation : ∃ pe, derivation file t.1 t.2 = some pe ∧
      pe.source_fqn = value_fqn fn_fqn source_local (replayed_version file t.1 fn_fqn source_local) := by
    exact ⟨_, Option.bind_eq_some_iff.mpr ⟨fn_fqn, hfn, Option.map_eq_some_iff.mpr ⟨source_local, hsource, rfl⟩⟩, rfl⟩
  obtain ⟨pe, hpe, hsourcefqn⟩ := hderivation
  have hpending : pe ∈ (replay_files inputs).pending := by
    rw [pending_replay_files]
    exact List.mem_flatMap.mpr ⟨file, hfile, List.mem_filterMap.mpr ⟨t, ht, hpe⟩⟩
  obtain ⟨hderivedname, hsourcename⟩ := staged_replay_files inputs pe hpending
  obtain ⟨u, _, hu, _⟩ := value_of_name opts hon hderivedname
  obtain ⟨v, hv, hvid, hvname⟩ := value_of_name opts hon hsourcename
  obtain ⟨m, narrowing, hm, hstamp⟩ := node_of_linked_id hnodes (List.mem_append_right (build_nodes inputs) hv)
  have hfound := List.find?_some hm
  refine ⟨linked_edge inputs opts (data_flow_edge u.node.id v.node.id pe), ?_, m, List.mem_of_find?_eq_some hm,
    of_decide_eq_true hfound, ?_, ?_⟩
  · rw [Occurrence.edge, hpe, Option.bind_some, derivation_edge, hu, Option.bind_some, hvid, Option.some_or,
      Option.map_some]
  · have hkind := link_values_kind hv
    rw [hstamp]
    exact hkind
  · rw [hstamp, ← hsourcefqn, ← hvname]
    rfl

/-- The sources of all facts bind to the definitions that reach them if and only if no other
function of the same name in the file comes between with a write of another version. -/
theorem binds_to_reaching_iff (hon : opts.dataflow = true) (hspans : ∀ file ∈ inputs, DistinctSpans file)
    (hnodes : (link (linker narrow opts budget) inputs opts).nodes.length ≤ 2 ^ 32) :
    BindsToReaching narrow budget inputs opts ↔ ∀ o ∈ occurrences inputs, o.Undisturbed := by
  have hreaching : ∀ o ∈ occurrences inputs, ∀ sid source_local v, function_scope o.file o.fact = some sid →
      (ReachingVersion o.file o.fact source_local v ↔ v = own_version o.file o.before sid source_local) := by
    intro o ho sid source_local v hscope
    obtain ⟨file, hfile, hin⟩ := List.mem_flatMap.mp ho
    obtain ⟨t, ht, rfl⟩ := List.mem_map.mp hin
    exact reaching_version_iff (hspans file hfile) ht hscope
  constructor
  · intro h o ho hopaque fn_fqn hfn sid hscope source_local hsource
    rw [← replayed_eq_own_iff hfn hscope]
    have hv := (hreaching o ho sid source_local _ hscope).mpr rfl
    obtain ⟨e, he, n, hn, hid, _, hname⟩ := h.binds o ho hopaque fn_fqn source_local _ hfn hsource hv
    obtain ⟨e', he', m, hm, hid', _, hname'⟩ := occurrence_edge hon hnodes ho hfn hsource
    obtain rfl := Option.some.inj (he.symm.trans he')
    have hsame := List.inj_on_of_nodup_map (nodup_link_ids hnodes) hn hm (hid.trans hid'.symm)
    rw [← hsame, hname] at hname'
    exact (value_fqn_inj hname').symm
  · intro h
    refine ⟨perm_derivation_edges narrow budget inputs opts hon, ?_⟩
    intro o ho hopaque fn_fqn source_local v hfn hsource hv
    obtain ⟨sid, hscope⟩ := function_scope_of_fqn hfn
    rw [hreaching o ho sid source_local v hscope] at hv
    have hundisturbed := h o ho hopaque fn_fqn hfn sid hscope source_local hsource
    rw [← replayed_eq_own_iff hfn hscope] at hundisturbed
    rw [hv, ← hundisturbed]
    exact occurrence_edge hon hnodes ho hfn hsource

end

namespace sample

/-- `local_name = source_local` on a line of `m.py`, in the scope `scope`. -/
def assignment (derived_name source_local : String) (scope line : UInt32) : DataFlowFact where
  derived := [derived_name]
  source := [source_local]
  derived_version := 1
  scope := ⟨scope⟩
  transform := .Copy
  edge_condition := .Always
  cut_markers := []
  callee_fqn := none
  args := []
  span := ⟨"m.py", line, none⟩

/-- A property of `m.py` and its setter share a name: `x = x` stands in the first function,
`y = x` in the second. -/
def property_input (first second : String) : FileInput where
  blob_oid := ""
  path := "m.py"
  lang := "python"
  facts :=
    { FileFacts.empty with
      defs := [ python_def first 1 [], python_def second 4 []]
      scopes := ⟨[⟨none, none⟩, ⟨some .ROOT, some first⟩, ⟨some .ROOT, some second⟩]⟩
      data_flows := [assignment "x" "x" 1 2, assignment "y" "x" 2 5] }

def dataflow_opts : LinkOpts :=
  { LinkOpts.default with dataflow := true }

/-- Functions of different names keep their versions apart. -/
theorem other_names_bind : BindsToReaching no_receivers 10 [property_input "m::x" "m::set_x"] dataflow_opts :=
  (binds_to_reaching_iff rfl (by decide +kernel) (by decide +kernel)).mpr (by decide +kernel)

/-- The use in the setter, which writes no `x` before. -/
def setter_use : Occurrence :=
  ⟨property_input "m::x" "m::x", [assignment "x" "x" 1 2], assignment "y" "x" 2 5⟩

/-- Functions of one name share their versions: the setter reads the version of the getter. -/
theorem setter_reads_the_getter : ¬ BindsToReaching no_receivers 10 [property_input "m::x" "m::x"] dataflow_opts := by
  intro h
  have hin : (setter_use.before, setter_use.fact) ∈ preceded (program_order setter_use.file) := by decide +kernel
  have hscope : function_scope setter_use.file setter_use.fact = some ⟨2⟩ := rfl
  have hreaching : ReachingVersion setter_use.file setter_use.fact "x" 0 :=
    (reaching_version_iff (by decide +kernel) hin hscope).mpr rfl
  obtain ⟨e, he, n, hn, hid, _, hname⟩ :=
    h.binds setter_use (.tail _ (.head _)) rfl "m::x" "x" 0 rfl rfl hreaching
  have hother : ∀ e ∈ setter_use.edge [property_input "m::x" "m::x"] dataflow_opts,
      ∀ n ∈ (link (linker no_receivers dataflow_opts 10) [property_input "m::x" "m::x"] dataflow_opts).nodes,
        n.node.id = e.edge.dst → n.node.fqn ≠ value_fqn "m::x" "x" 0 := by
    decide +kernel
  exact hother e he n hn hid hname

end sample

end cgx.resolve
