import Cgx.Lib.SortBy
import Cgx.Resolve.Grounded
import Cgx.Resolve.SsaEdges

open cgx.core cgx.frontend sorting history Std

namespace cgx.resolve

/-! ### What the summary pass reads of one function -/

/-- The facts of a function in a file, in stored order. -/
def own_facts (file : FileInput) (f : String) : List DataFlowFact :=
  file.facts.data_flows.filter fun df => function_fqn file df = some f

/-- The files with facts of a function. -/
def fn_files (inputs : List FileInput) (f : String) : List FileInput :=
  inputs.filter fun file => own_facts file f ≠ []

/-- The facts of a function by file, each with the path of the file. -/
def own_parts (inputs : List FileInput) (f : String) : List (String × List DataFlowFact) :=
  (fn_files inputs f).map fun file => (file.path, own_facts file f)

/-- The parameters of a callable definition of the function. -/
def own_params (f : String) (d : SymbolDef) : Option (List String) :=
  if d.fqn = f ∧ d.kind.is_callable = true then d.signature.map fun sig => sig.params.map fun p => p.name else none

/-- The parameters of the definitions of a function, one list for each definition. -/
def signatures (inputs : List FileInput) (f : String) : List (List String) :=
  (inputs.flatMap fun file => file.facts.defs).filterMap (own_params f)

/-- What is held of a function, if anything is. -/
def held_or_empty (held : Option FnDataflow) : FnDataflow :=
  held.getD ⟨[], [], [], []⟩

def own_formals (f : String) (held : Option FnDataflow) (params : List String) : Option FnDataflow :=
  some { held_or_empty held with
    formal_ins := (held_or_empty held).formal_ins ++ params.map fun p => value_fqn f p 0 }

/-- The versions of the locals of a function, and what the summary pass holds of it. -/
abbrev OwnState := (String → UInt32) × Option FnDataflow

namespace OwnState

def live (s : OwnState) (f local_name : String) : String :=
  value_fqn f local_name (s.1 local_name)

end OwnState

def own_return (f : String) (df : DataFlowFact) (held : Option FnDataflow) : Option FnDataflow :=
  if derived_local df = "return" then
    some { held_or_empty held with
      returns := sort_by compare (derived_value f df :: (held_or_empty held).returns).dedup }
  else held

def own_call (callee : Option String) (path f : String) (s : OwnState) (df : DataFlowFact) (held : Option FnDataflow) :
    Option FnDataflow :=
  if is_opaque df then
    some { held_or_empty held with
      calls := (held_or_empty held).calls ++ [{
        result_fqn := derived_value f df
        callee_fqn := callee
        args := df.args.map fun path => path.head?.map (s.live f)
        condition := df.edge_condition
        span := ⟨path, df.span.line, df.span.col⟩ }] }
  else held

def own_source (f : String) (s : OwnState) (df : DataFlowFact) (held : Option FnDataflow) : Option FnDataflow :=
  match df.source.head? with
  | some source_local =>
    some { held_or_empty held with
      intra := (held_or_empty held).intra ++
        [⟨derived_value f df, s.live f source_local, df.transform, df.edge_condition⟩] }
  | none => held

/-- What one fact of a function changes of it. -/
def own_step (callee : DataFlowFact → Option String) (path f : String) (s : OwnState) (df : DataFlowFact) : OwnState :=
  (Function.update s.1 (derived_local df) df.derived_version,
    own_source f s df (own_call (callee df) path f s df (own_return f df s.2)))

/-- What the facts of a function in a file change of it, in program order. -/
def own_part (callee : DataFlowFact → Option String) (f : String) (held : Option FnDataflow)
    (part : String × List DataFlowFact) : Option FnDataflow :=
  ((sort_by fact_cmp part.2).foldl (own_step callee part.1 f) (fun _ => 0, held)).2

/-- What the summary pass reads of a function, from its own parameters and facts. -/
def own_flow (callee : DataFlowFact → Option String) (sigs : List (List String)) (parts : List (String × List DataFlowFact))
    (f : String) : Option FnDataflow :=
  parts.foldl (own_part callee f) (sigs.foldl (own_formals f) none)

section

variable {inputs : List FileInput} {edges : List EdgeWithProvenance} {f : String}

theorem get_def_flows (fns : FnMap) (d : SymbolDef) :
    (def_flows fns d).get f = (own_params f d).elim (fns.get f) (own_formals f (fns.get f)) := by
  rw [def_flows]
  split
  case h_1 sig hsig =>
    split
    case isTrue hcallable =>
      rw [FnMap.get_modify]
      by_cases hname : f = d.fqn
      · subst hname
        rw [if_pos rfl, own_params, if_pos ⟨rfl, hcallable⟩, hsig, Option.map_some, Option.elim_some, own_formals,
          List.map_map]
        rfl
      · rw [if_neg hname, own_params, if_neg fun h => hname h.1.symm]
        rfl
    case isFalse hcallable =>
      rw [own_params, if_neg fun h => hcallable h.2]
      rfl
  case h_2 hsig =>
    rw [own_params, hsig, Option.map_none, ite_self]
    rfl

theorem get_formals (defs : List SymbolDef) (fns : FnMap) :
    (defs.foldl def_flows fns).get f = (defs.filterMap (own_params f)).foldl (own_formals f) (fns.get f) := by
  induction defs generalizing fns with
  | nil => rfl
  | cons d rest ih =>
    rw [List.foldl_cons, ih, get_def_flows, List.filterMap_cons]
    cases own_params f d <;> rfl

/-- What of the state of the summary pass is about one function. -/
def own_view (f : String) (s : Replay × FnMap) : OwnState :=
  (fun local_name => s.1.version f local_name, s.2.get f)

theorem get_return_flow (fns : FnMap) (df : DataFlowFact) :
    (return_flow f df fns).get f = own_return f df (fns.get f) := by
  rw [return_flow, own_return, derived_local]
  split
  · rw [FnMap.get_modify, if_pos rfl]
    rfl
  · rfl

theorem get_call_flow (callee : Option String) (file : FileInput) (df : DataFlowFact) (s : Replay × FnMap) (fns : FnMap) :
    (call_flow callee file f df s.1 fns).get f = own_call callee file.path f (own_view f s) df (fns.get f) := by
  rw [call_flow, own_call]
  split
  · rw [FnMap.get_modify, if_pos rfl]
    rfl
  · rfl

theorem get_source_flow (df : DataFlowFact) (s : Replay × FnMap) (fns : FnMap) :
    (source_flow f df s.1 fns).get f = own_source f (own_view f s) df (fns.get f) := by
  rw [source_flow]
  split
  case h_1 source_local hsource =>
    rw [FnMap.get_modify, if_pos rfl, own_source, hsource]
    rfl
  case h_2 hsource => rw [own_source, hsource]

theorem get_fact_flows_of_ne {g : String} (hne : f ≠ g) (callee : Option String) (file : FileInput) (df : DataFlowFact)
    (r : Replay) (fns : FnMap) : (fact_flows callee file g df r fns).get f = fns.get f := by
  have hmodify : ∀ (change : FnDataflow → FnDataflow) (fns : FnMap), (fns.modify g change).get f = fns.get f := by
    intro change fns
    rw [FnMap.get_modify, if_neg hne]
  rw [fact_flows, source_flow, call_flow, return_flow]
  split <;> split <;> split <;> simp only [hmodify]

theorem flow_fact_replay (file : FileInput) (s : Replay × FnMap) (df : DataFlowFact) :
    (flow_fact inputs edges file s df).1 = replay_step file s.1 df := by
  rw [flow_fact, replay_step]
  cases enclosing_def file.facts.scopes file.facts.defs df.scope <;> rfl

/-- A fact changes what is read of its own function, and of no other. -/
theorem own_view_flow_fact (file : FileInput) (s : Replay × FnMap) (df : DataFlowFact) :
    own_view f (flow_fact inputs edges file s df) =
      if function_fqn file df = some f then
        own_step (summary_callee inputs edges f) file.path f (own_view f s) df
      else own_view f s := by
  have hversions : (own_view f (flow_fact inputs edges file s df)).1 =
      if function_fqn file df = some f then
        Function.update (own_view f s).1 (derived_local df) df.derived_version
      else (own_view f s).1 := by
    funext local_name
    change (flow_fact inputs edges file s df).1.version f local_name = _
    rw [flow_fact_replay, version_replay_step, defines]
    by_cases hown : function_fqn file df = some f
    · rw [if_pos hown, Function.update_apply]
      by_cases hlocal : derived_local df = local_name
      · rw [if_pos (decide_eq_true ⟨hown, hlocal⟩), if_pos hlocal.symm]
      · rw [if_neg fun h => hlocal (of_decide_eq_true h).2, if_neg (Ne.symm hlocal)]
        rfl
    · rw [if_neg hown, if_neg fun h => hown (of_decide_eq_true h).1]
      rfl
  have hflow : (own_view f (flow_fact inputs edges file s df)).2 =
      if function_fqn file df = some f then
        (own_step (summary_callee inputs edges f) file.path f (own_view f s) df).2
      else (own_view f s).2 := by
    rw [own_view, flow_fact, function_fqn]
    split
    case h_1 caller hcaller =>
      rw [hcaller, Option.map_some]
      by_cases hname : caller.fqn = f
      · subst hname
        rw [if_pos rfl, fact_flows, get_source_flow, get_call_flow, get_return_flow]
        rfl
      · rw [if_neg fun h => hname (Option.some.inj h), get_fact_flows_of_ne (Ne.symm hname)]
        rfl
    case h_2 hcaller =>
      rw [hcaller]
      rfl
  refine Prod.ext ?_ ?_
  · rw [hversions]
    split <;> rfl
  · rw [hflow]
    split <;> rfl

/-- A file changes what is read of a function by the function's own facts. -/
theorem get_flow_file (s : Replay × FnMap) (file : FileInput) :
    (flow_file inputs edges s file).2.get f =
      own_part (summary_callee inputs edges f) f (s.2.get f) (file.path, own_facts file f) := by
  have hstep : ∀ (s : Replay × FnMap) df, own_view f (flow_fact inputs edges file s df) =
      if decide (function_fqn file df = some f) then
        own_step (summary_callee inputs edges f) file.path f (own_view f s) df
      else own_view f s := by
    intro s df
    rw [own_view_flow_fact]
    simp only [decide_eq_true_eq]
  have hview := foldl_view (own_view f) hstep ({ s.1 with current := [] }, s.2) (sort_by fact_cmp file.facts.data_flows)
  rw [filter_sort_by] at hview
  exact congrArg Prod.snd hview

/-- What the summary pass reads of a function depends on its parameters, on its facts, and on
what its calls are taken for. -/
theorem get_fn_dataflow (inputs : List FileInput) (edges : List EdgeWithProvenance) (f : String) :
    (fn_dataflow inputs edges).get f =
      own_flow (summary_callee inputs edges f) (signatures inputs f) (own_parts inputs f) f := by
  have hempty : ∀ (held : Option FnDataflow) (path : String),
      own_part (summary_callee inputs edges f) f held (path, []) = held := fun _ _ => rfl
  have hfiles : ∀ (files : List FileInput) (s : Replay × FnMap),
      (files.foldl (flow_file inputs edges) s).2.get f =
        (own_parts files f).foldl (own_part (summary_callee inputs edges f) f) (s.2.get f) := by
    intro files
    induction files with
    | nil => exact fun _ => rfl
    | cons file rest ih =>
      intro s
      rw [List.foldl_cons, ih, get_flow_file, own_parts, own_parts, fn_files, fn_files, List.filter_cons]
      split
      · rfl
      · rename_i hnone
        have hfacts : own_facts file f = [] := by simpa using hnone
        rw [hfacts, hempty]
  rw [fn_dataflow, hfiles, get_formals]
  rfl

end

/-- The calls of one function are those of its opaque facts. -/
theorem own_flow_congr {callee callee' : DataFlowFact → Option String} {sigs : List (List String)}
    {parts : List (String × List DataFlowFact)} {f : String}
    (h : ∀ part ∈ parts, ∀ df ∈ part.2, is_opaque df = true → callee df = callee' df) :
    own_flow callee sigs parts f = own_flow callee' sigs parts f := by
  have hstep : ∀ (path : String) (df : DataFlowFact), ( is_opaque df = true → callee df = callee' df) →
      ∀ s : OwnState, own_step callee path f s df = own_step callee' path f s df := by
    intro path df hdf s
    have hcall : ∀ held, own_call (callee df) path f s df held = own_call (callee' df) path f s df held := by
      intro held
      rw [own_call, own_call]
      split
      case isTrue hopaque => rw [hdf hopaque]
      case isFalse => rfl
    rw [own_step, own_step, hcall]
  rw [own_flow, own_flow]
  refine List.foldl_ext _ _ _ fun held part hpart => ?_
  rw [own_part, own_part]
  congr 1
  exact List.foldl_ext _ _ _ fun s df hdf => hstep part.1 df (h part hpart df (mem_sort_by.mp hdf)) s

/-! ### The ends of the calls -/

/-- The result and the arguments of a call have these names. -/
def EndsIn (names : List String) (cs : CallSite) : Prop :=
  cs.result_fqn ∈ names ∧ ∀ x, some x ∈ cs.args → x ∈ names

theorem EndsIn.mono {names names' : List String} {cs : CallSite} (h : EndsIn names cs) (hsub : names ⊆ names') :
    EndsIn names' cs :=
  ⟨hsub h.1, fun x hx => hsub (h.2 x hx)⟩

theorem EveryCall.mono {p q : String → CallSite → Prop} {fns : FnMap} (h : EveryCall p fns)
    (hpq : ∀ f cs, p f cs → q f cs) : EveryCall q fns :=
  fun f fd hfd cs hcs => hpq f cs (h f fd hfd cs hcs)

section

variable {inputs : List FileInput} {edges : List EdgeWithProvenance} {file : FileInput} {r : Replay} {s : Replay × FnMap}
  {f : String} {df : DataFlowFact}

/-- The values that are read are staged. -/
theorem live_mem_names (file : FileInput) (df : DataFlowFact) (f : String) {locals : List String} {l : String}
    (hl : l ∈ locals) (r : Replay) :
    r.live f l ∈ (locals.foldl (Replay.intern_live file df f) r).names := by
  induction locals generalizing r with
  | nil => cases hl
  | cons first rest ih =>
    rw [List.foldl_cons]
    obtain rfl | hl := List.mem_cons.mp hl
    · exact names_foldl_intern_live rest (mem_names_intern.mpr (.inr rfl))
    · exact ih hl (r.intern_live file df f first)

/-- A fact stages its own value, and an opaque one the values of its arguments. -/
theorem mem_names_replay_fact (file : FileInput) (f : String) (df : DataFlowFact) (r : Replay) :
    r.names ⊆ (replay_fact file f df r).names ∧
    derived_value f df ∈ (replay_fact file f df r).names ∧
    ( is_opaque df = true → ∀ path ∈ df.args, ∀ l, path.head? = some l → r.live f l ∈ (replay_fact file f df r).names) := by
  rw [replay_fact]
  refine ⟨fun fqn hfqn => ?_, ?_, fun hopaque path hpath l hl => ?_⟩
  · exact names_foldl_intern_live _ (names_foldl_intern_live _ (mem_names_intern.mpr (.inl hfqn)))
  · exact names_foldl_intern_live _ (names_foldl_intern_live _ (mem_names_intern.mpr (.inr rfl)))
  · have hcontains : df.cut_markers.contains .OpaqueCall = true := hopaque
    have harg : l ∈ df.args.filterMap List.head? := List.mem_filterMap.mpr ⟨path, hpath, hl⟩
    have hlive : ∀ r' : Replay, r'.current = r.current →
        r.live f l ∈ ((df.args.filterMap List.head?).foldl (Replay.intern_live file df f) r').names := by
      intro r' hcurrent
      rw [Replay.live, Replay.version, ← hcurrent]
      exact live_mem_names file df f harg r'
    simp only [hcontains, if_true]
    exact hlive _ (foldl_intern_live ..).1

/-- The summary pass reads the versions of the replay, and the ends of its calls are staged. -/
structure Tracked (r : Replay) (s : Replay × FnMap) : Prop where
  current : s.1.current = r.current
  ends : EveryCall (fun _ cs => EndsIn r.names cs) s.2

theorem Tracked.flow_fact (h : Tracked r s) (file : FileInput) (df : DataFlowFact) :
    Tracked (replay_step file r df) (flow_fact inputs edges file s df) := by
  rw [replay_step, resolve.flow_fact]
  cases enclosing_def file.facts.scopes file.facts.defs df.scope with
  | none => exact h
  | some caller =>
    obtain ⟨hnames, hderived, hargs⟩ := mem_names_replay_fact file caller.fqn df r
    refine ⟨?_, (h.ends.mono fun _ _ hends => hends.mono hnames).fact_flows fun hopaque => ⟨hderived, fun x hx => ?_⟩⟩
    · simp only [replay_fact_current, h.current]
    · obtain ⟨path, hpath, hhead⟩ := List.mem_map.mp hx
      obtain ⟨l, hl, rfl⟩ := Option.map_eq_some_iff.mp hhead
      have hlive := hargs hopaque path hpath l hl
      rw [Replay.live, Replay.version, ← h.current] at hlive
      exact hlive

theorem Tracked.flow_file (h : Tracked r s) (file : FileInput) :
    Tracked (replay_file r file) (flow_file inputs edges s file) := by
  have hfacts : ∀ (facts : List DataFlowFact) (r : Replay) (s : Replay × FnMap), Tracked r s →
      Tracked (facts.foldl (replay_step file) r) (facts.foldl (resolve.flow_fact inputs edges file) s) := by
    intro facts
    induction facts with
    | nil => exact fun _ _ h => h
    | cons df rest ih => exact fun r s h => ih _ _ (h.flow_fact file df)
  exact hfacts _ { r with current := [] } ({ s.1 with current := [] }, s.2) ⟨rfl, h.ends⟩

/-- The ends of every call are staged. -/
theorem call_ends_staged (inputs : List FileInput) (edges : List EdgeWithProvenance) :
    EveryCall (fun _ cs => EndsIn (replay_files inputs).names cs) (fn_dataflow inputs edges) := by
  have hfiles : ∀ (files : List FileInput) (r : Replay) (s : Replay × FnMap), Tracked r s →
      Tracked (files.foldl replay_file r) (files.foldl (resolve.flow_file inputs edges) s) := by
    intro files
    induction files with
    | nil => exact fun _ _ h => h
    | cons file rest ih => exact fun r s h => ih _ _ (h.flow_file file)
  have hstart : ∀ stages, Tracked ⟨stages, [], []⟩
      (⟨[], [], []⟩, (inputs.flatMap fun file => file.facts.defs).foldl def_flows .empty) :=
    fun _ => ⟨rfl, (EveryCall.empty _).formals _⟩
  exact (hfiles inputs _ _ (hstart _)).ends

/-- The ends of every call have value nodes. -/
theorem call_ends_have_nodes {opts : LinkOpts} (hon : opts.dataflow = true) {fd : FnDataflow}
    (hfd : (fn_dataflow inputs edges).get f = some fd) {cs : CallSite} (hcs : cs ∈ fd.calls) {x : String}
    (hx : x = cs.result_fqn ∨ some x ∈ cs.args) : (def_to_node (link_values inputs opts) x).isSome := by
  have hends := call_ends_staged inputs edges f fd hfd cs hcs
  have hname : x ∈ (replay_files inputs).names := by
    obtain rfl | harg := hx
    · exact hends.1
    · exact hends.2 x harg
  obtain ⟨v, _, hv, _⟩ := value_of_name opts hon hname
  rw [hv]
  rfl

end

end cgx.resolve
