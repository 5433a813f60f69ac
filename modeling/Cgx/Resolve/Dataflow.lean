import Cgx.Resolve.Emit

open cgx.core cgx.frontend sorting

namespace cgx.resolve

/-- An SSA value staged before it gets a node id. -/
structure ValueNodeStage where
  fqn : String
  file : String
  line : UInt32
  span : Span
  blob_oid : String
deriving DecidableEq, Inhabited

/-- The node of a staged value, before ids are assigned. -/
def ValueNodeStage.into_node (stage : ValueNodeStage) : NodeWithProvenance where
  node :=
    { id := ⟨0⟩
      kind := .Variable
      fqn := stage.fqn
      file := stage.file
      line_start := stage.line
      line_end := stage.line
      lang := ""
      visibility := .Private
      is_abstract := false
      entrypoint_kind := none
      signature := none
      own_effects := ⟨0⟩
      transitive_effects := ⟨0⟩
      unresolved_calls := 0
      external_calls := 0
      narrowing := ⟨0, 0, 0, 0, 0, 0, 0⟩ }
  provenance := ⟨stage.span, "ssa-value", .ScopeGraph, stage.blob_oid⟩

/-- A derivation whose endpoints get their nodes after the replay. -/
structure PendingDataFlowEdge where
  derived_fqn : String
  source_fqn : String
  transform : Transform
  condition : EdgeCondition
  cut_markers : List CutMarker
  span : Span
deriving DecidableEq, Inhabited

/-- The name of an SSA value. Version 0 is the parameter or initial binding. -/
def value_fqn (fn_fqn local_name : String) (version : UInt32) : String :=
  fn_fqn ++ "::" ++ local_name ++ "#" ++ toString version.toNat

/-- Stage a value under its name; the first stage of a name is kept. -/
def intern (stage : ValueNodeStage) (stages : List ValueNodeStage) : List ValueNodeStage :=
  if stages.any fun s => s.fqn = stage.fqn then stages else stages ++ [stage]

def value_stage (fqn : String) (file : FileInput) (span : Span) : ValueNodeStage :=
  ⟨fqn, file.path, span.line, ⟨file.path, span.line, span.col⟩, file.blob_oid⟩

/-- The values of the parameters of one definition, at the definition's line. -/
def param_stages (file : FileInput) (d : SymbolDef) : List ValueNodeStage :=
  match d.signature with
  | some sig =>
    if d.kind.is_callable then
      sig.params.map fun p => value_stage (value_fqn d.fqn p.name 0) file d.span
    else []
  | none => []

/-- What the replay of a file's dataflow facts carries along: the staged values, the
derivations, and the current version of each local of each function. -/
structure Replay where
  stages : List ValueNodeStage
  pending : List PendingDataFlowEdge
  current : List ((String × String) × UInt32)
deriving DecidableEq, Inhabited

def Replay.version (r : Replay) (fn_fqn local_name : String) : UInt32 :=
  (entry_of (fn_fqn, local_name) r.current).getD 0

/-- The value a use of `local_name` reads at this point. -/
def Replay.live (r : Replay) (fn_fqn local_name : String) : String :=
  value_fqn fn_fqn local_name (r.version fn_fqn local_name)

def Replay.intern_live (file : FileInput) (df : DataFlowFact) (fn_fqn : String) (r : Replay)
    (local_name : String) : Replay :=
  { r with stages := intern (value_stage (r.live fn_fqn local_name) file df.span) r.stages }

/-- Replay one fact inside function `fn_fqn`. Its sources are read at the versions
live before the fact writes its own. -/
def replay_fact (file : FileInput) (fn_fqn : String) (df : DataFlowFact) (r : Replay) : Replay :=
  let derived_local := df.derived.getLast?.getD ""
  let derived_fqn := value_fqn fn_fqn derived_local df.derived_version
  let r := { r with stages := intern (value_stage derived_fqn file df.span) r.stages }
  let source_local := df.source.head?
  let source_fqn := source_local.map (r.live fn_fqn)
  let r := source_local.toList.foldl (Replay.intern_live file df fn_fqn) r
  let args := if df.cut_markers.contains .OpaqueCall then df.args.filterMap List.head? else []
  let r := args.foldl (Replay.intern_live file df fn_fqn) r
  { r with
    current := upsert (fn_fqn, derived_local) (fun _ => df.derived_version) r.current
    pending := r.pending ++ (source_fqn.map fun source_fqn =>
      ⟨derived_fqn, source_fqn, df.transform, df.edge_condition, df.cut_markers,
        ⟨file.path, df.span.line, df.span.col⟩⟩).toList }

/-- Program order of the facts: by span, then by what they derive. -/
def fact_cmp : DataFlowFact → DataFlowFact → Ordering :=
  compareLex (fun a b => span_cmp a.span b.span)
    (compareLex (compareOn DataFlowFact.derived) (compareOn DataFlowFact.derived_version))

/-- Replay the facts of one file in program order, from fresh versions. -/
def replay_file (r : Replay) (file : FileInput) : Replay :=
  (sort_by fact_cmp file.facts.data_flows).foldl (fun r df =>
    match enclosing_def file.facts.scopes file.facts.defs df.scope with
    | some caller => replay_fact file caller.fqn df r
    | none => r) { r with current := [] }

/-- The values and derivations of all files; the parameters come first. -/
def replay_files (inputs : List FileInput) : Replay :=
  let params := inputs.flatMap fun file => file.facts.defs.flatMap (param_stages file)
  inputs.foldl replay_file ⟨params.foldl (fun stages s => intern s stages) [], [], []⟩

/-- The value nodes, in canonical order, numbered behind the symbol nodes. -/
def value_nodes (base : Nat) (stages : List ValueNodeStage) : List NodeWithProvenance :=
  (sort_by node_order (stages.map ValueNodeStage.into_node)).mapIdx fun offset n =>
    { n with node := { n.node with id := .ofIndex (base + offset) } }

/-- A `DerivesFrom` edge, from the derived value to its source. -/
def data_flow_edge (derived source : NodeId) (pe : PendingDataFlowEdge) : EdgeWithProvenance where
  edge :=
    { id := ⟨0⟩
      src := derived
      dst := source
      kind := .DerivesFrom
      condition := pe.condition
      confidence :=
        if pe.cut_markers.contains .TruncatedAccessPath then .Possible
        else if pe.transform = .Copy ∨ pe.transform = .Projection then .Certain
        else .Probable
      tier := .ScopeGraph
      rule := "derives-from"
      site_id := none
      stmt_index := none
      cut_markers := CutMarkers.from_iter_canonical pe.cut_markers
      implicit := none
      candidate_group := none
      established_by := none
      cfg_condition := none
      macro_origin := none
      transform := some pe.transform }
  provenance := ⟨pe.span, "derives-from", .ScopeGraph, ""⟩

/-- The edges of the derivations whose endpoints have nodes. -/
def data_flow_edges (symbols values : List NodeWithProvenance) (pending : List PendingDataFlowEdge) :
    List EdgeWithProvenance :=
  pending.filterMap fun pe =>
    (def_to_node values pe.derived_fqn).bind fun derived =>
      ((def_to_node values pe.source_fqn).or (def_to_node symbols pe.source_fqn)).map fun source =>
        data_flow_edge derived source pe

end cgx.resolve
