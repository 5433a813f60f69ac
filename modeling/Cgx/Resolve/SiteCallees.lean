import Cgx.Resolve.Graph
import Cgx.Resolve.Ifds

open cgx.core cgx.frontend sorting

namespace cgx.resolve

/-! ### The calls that a summary may be applied at -/

/-- The calls of one callee path that a caller makes on a line. -/
structure CallKey where
  caller : NodeId
  line : UInt32
  callee : String
deriving DecidableEq

/-- The place of a call. -/
structure CallPlace where
  caller : NodeId
  line : UInt32
  col : Option UInt32
deriving DecidableEq

/-- What the calls at a place were resolved to. -/
inductive Outcome where
  | Unresolved
  | Unique (id : NodeId)
  | Conflict
deriving DecidableEq

namespace Outcome

def join : Outcome → Outcome → Outcome
  | .Unique a, .Unique b => if a = b then .Unique a else .Conflict
  | _, _ => .Conflict

/-- Take one more call edge of the place into account. -/
def observe (acc next : Outcome) : Outcome :=
  match acc with
  | .Unresolved => next
  | acc => acc.join next

end Outcome

/-- A call whose effect on its arguments the frontend could not see. -/
def is_opaque (df : DataFlowFact) : Bool :=
  df.cut_markers.contains .OpaqueCall

/-- The references that are calls. -/
def is_call_ref (raw : RawRef) : Bool :=
  raw.kind ≠ .Reference ∧ raw.kind ≠ .Instantiate

section

variable (symbols : List NodeWithProvenance)

/-- The node of the definition around a scope of the file. -/
def caller_at (file : FileInput) (scope : ScopeId) : Option NodeId :=
  (enclosing_def file.facts.scopes file.facts.defs scope).bind fun d => def_to_node symbols d.fqn

/-- The keys that the opaque calls of a file ask for. -/
def wanted (file : FileInput) : List CallKey :=
  file.facts.data_flows.filterMap fun df =>
    if is_opaque df then
      df.callee_fqn.bind fun callee =>
        (caller_at symbols file df.scope).map fun caller => ⟨caller, df.span.line, callee⟩
    else none

/-- The calls of a file on its wanted lines that some file wants, with their paths. -/
def wanted_refs (keys : List CallKey) (file : FileInput) : List (CallPlace × String) :=
  let lines := (wanted symbols file).map CallKey.line
  file.facts.refs.filterMap fun raw =>
    if is_call_ref raw ∧ raw.span.line ∈ lines then
      (caller_at symbols file raw.scope).bind fun caller =>
        if ⟨caller, raw.span.line, join_path raw.name_path⟩ ∈ keys then
          some (⟨caller, raw.span.line, raw.span.col⟩, join_path raw.name_path)
        else none
    else none

/-- A second call at a place makes it conflict, and the first one's path stays. -/
def note_call (path : String) : Option (String × Outcome) → String × Outcome
  | none => (path, .Unresolved)
  | some (first, _) => (first, .Conflict)

/-- The places of the wanted calls. -/
def call_places (inputs : List FileInput) : List (CallPlace × (String × Outcome)) :=
  (inputs.flatMap (wanted_refs symbols (inputs.flatMap (wanted symbols)))).foldl
    (fun places row => upsert row.1 (note_call row.2) places) []

/-- A call bound by scope or by import to one callable is what a summary may be applied at. -/
def edge_outcome (e : EdgeWithProvenance) : Outcome :=
  if (e.edge.rule = "scope-ref" ∨ e.edge.rule = "import-ref") ∧ e.edge.candidate_group = none ∧
      (symbols[e.edge.dst.index]?).any (fun n => n.node.kind.is_callable) then
    .Unique e.edge.dst
  else .Conflict

/-- A call edge stands at the place of its reference. -/
def stands_at (place : CallPlace) (e : EdgeWithProvenance) : Bool :=
  e.edge.kind.is_call ∧ place = ⟨e.edge.src, e.provenance.span.line, e.provenance.span.col⟩

/-- What the call edges at a place make of it. -/
def place_outcome (edges : List EdgeWithProvenance) (place : CallPlace) (start : Outcome) : Outcome :=
  ((edges.filter (stands_at place)).map (edge_outcome symbols)).foldl Outcome.observe start

/-- The outcomes at the places of a key. The source joins them in no fixed order. -/
def key_outcomes (inputs : List FileInput) (edges : List EdgeWithProvenance) (key : CallKey) : List Outcome :=
  ((call_places symbols inputs).filter fun row =>
    row.1.caller = key.caller ∧ row.1.line = key.line ∧ row.2.1 = key.callee).map fun row =>
      place_outcome symbols edges row.1 row.2.2

/-- The callee of the calls under a key. There is none unless all of them agree on it. -/
def summary_site_callees (inputs : List FileInput) (edges : List EdgeWithProvenance) (key : CallKey) :
    Option String :=
  match key_outcomes symbols inputs edges key with
  | [] => none
  | first :: rest =>
    match rest.foldl Outcome.join first with
    | .Unique id => (symbols[id.index]?).map fun n => n.node.fqn
    | _ => none

end

/-- The function whose summary applies at an opaque call: what the call itself was resolved
to, else the callable that its path is the FQN of. -/
def ground_summary_callee (table : SymbolTable) (site_callees : CallKey → Option String) (caller : Option NodeId)
    (line : UInt32) (callee_fqn : Option String) : Option String :=
  callee_fqn.bind fun name =>
    match caller.bind fun caller => site_callees ⟨caller, line, name⟩ with
    | some fqn => some fqn
    | none => ((table.def_by_fqn name).filter fun d => d.kind.is_callable).map DefEntry.fqn

/-! ### What the summary pass reads of each function -/

namespace FnMap

def empty : FnMap :=
  ⟨[], .nil⟩

/-- Change what is read of a function, of which there is nothing at first. -/
def modify (fns : FnMap) (f : String) (change : FnDataflow → FnDataflow) : FnMap where
  entries := sorted_map.insert compare f (change ((fns.get f).getD ⟨[], [], [], []⟩)) fns.entries
  ascending := sorted_map.sorted_insert fns.ascending

theorem get_modify (fns : FnMap) (f f' : String) (change : FnDataflow → FnDataflow) :
    (fns.modify f change).get f' =
      if f' = f then some (change ((fns.get f).getD ⟨[], [], [], []⟩)) else fns.get f' :=
  sorted_map.get?_insert f _ fns.entries f'

end FnMap

/-- The parameters of a definition are the formals of its function. -/
def def_flows (fns : FnMap) (d : SymbolDef) : FnMap :=
  match d.signature with
  | some sig =>
    if d.kind.is_callable then
      fns.modify d.fqn fun fd =>
        { fd with formal_ins := fd.formal_ins ++ sig.params.map fun p => value_fqn d.fqn p.name 0 }
    else fns
  | none => fns

/-- The value that a fact derives. -/
def derived_value (fn_fqn : String) (df : DataFlowFact) : String :=
  value_fqn fn_fqn (df.derived.getLast?.getD "") df.derived_version

/-- The call site of an opaque fact; its arguments are the values live before it. -/
def call_site (callee : Option String) (file : FileInput) (fn_fqn : String) (df : DataFlowFact) (r : Replay) :
    CallSite where
  result_fqn := derived_value fn_fqn df
  callee_fqn := callee
  args := df.args.map fun path => path.head?.map (r.live fn_fqn)
  condition := df.edge_condition
  span := ⟨file.path, df.span.line, df.span.col⟩

def return_flow (fn_fqn : String) (df : DataFlowFact) (fns : FnMap) : FnMap :=
  if df.derived.getLast?.getD "" = "return" then
    fns.modify fn_fqn fun fd => { fd with returns := sort_by compare (derived_value fn_fqn df :: fd.returns).dedup }
  else fns

def call_flow (callee : Option String) (file : FileInput) (fn_fqn : String) (df : DataFlowFact) (r : Replay)
    (fns : FnMap) : FnMap :=
  if is_opaque df then
    fns.modify fn_fqn fun fd => { fd with calls := fd.calls ++ [call_site callee file fn_fqn df r] }
  else fns

def source_flow (fn_fqn : String) (df : DataFlowFact) (r : Replay) (fns : FnMap) : FnMap :=
  match df.source.head? with
  | some source_local =>
    fns.modify fn_fqn fun fd =>
      { fd with
        intra := fd.intra ++
          [⟨derived_value fn_fqn df, r.live fn_fqn source_local, df.transform, df.edge_condition⟩] }
  | none => fns

/-- What one fact adds to its function: a return, a call, a derivation. -/
def fact_flows (callee : Option String) (file : FileInput) (fn_fqn : String) (df : DataFlowFact) (r : Replay)
    (fns : FnMap) : FnMap :=
  source_flow fn_fqn df r (call_flow callee file fn_fqn df r (return_flow fn_fqn df fns))

section

variable (inputs : List FileInput) (edges : List EdgeWithProvenance)

/-- The function that an opaque fact of the function `fn_fqn` is taken for a call of. -/
def summary_callee (fn_fqn : String) (df : DataFlowFact) : Option String :=
  ground_summary_callee (symbol_table inputs) (summary_site_callees (build_nodes inputs) inputs edges)
    (def_to_node (build_nodes inputs) fn_fqn) df.span.line df.callee_fqn

/-- Replay one fact, and note what the summary pass reads of it. -/
def flow_fact (file : FileInput) (s : Replay × FnMap) (df : DataFlowFact) : Replay × FnMap :=
  match enclosing_def file.facts.scopes file.facts.defs df.scope with
  | some caller =>
    (replay_fact file caller.fqn df s.1,
      fact_flows (summary_callee inputs edges caller.fqn df) file caller.fqn df s.1 s.2)
  | none => s

def flow_file (s : Replay × FnMap) (file : FileInput) : Replay × FnMap :=
  (sort_by fact_cmp file.facts.data_flows).foldl (flow_fact inputs edges file) ({ s.1 with current := [] }, s.2)

/-- What the summary pass reads of the functions of all files. -/
def fn_dataflow : FnMap :=
  let formals := (inputs.flatMap fun file => file.facts.defs).foldl def_flows .empty
  (inputs.foldl (flow_file inputs edges) (⟨[], [], []⟩, formals)).2

end

/-- The edges that the references and the declared relations leave. -/
def pass_edges (narrow : List FileInput → SymbolTable → Site → Narrowed) (inputs : List FileInput) (opts : LinkOpts) :
    List EdgeWithProvenance :=
  (link_refs ⟨narrow, fun _ _ => []⟩ inputs opts).edges ++
    inputs.flatMap fun file =>
      file.facts.impl_relations.filterMap (resolve_impl_relation (build_nodes inputs) (symbol_table inputs) file)

/-- A link whose interprocedural edges are those of the summary pass. -/
def linker (narrow : List FileInput → SymbolTable → Site → Narrowed) (opts : LinkOpts) (budget : Nat) : LinkEnv where
  narrow := narrow
  summary_edges := fun inputs value_node =>
    (run_ifds_summaries (fn_dataflow inputs (pass_edges narrow inputs opts)) value_node budget).edges

end cgx.resolve
