import Cgx.Resolve.Dataflow

open cgx.core cgx.frontend sorting

namespace cgx.resolve

/-- The linked graph the resolver produces. -/
structure ResolvedGraph where
  nodes : List NodeWithProvenance
  edges : List EdgeWithProvenance
  candidates : List Candidate
  unresolved : List UnresolvedRef
deriving DecidableEq, Inhabited

/-! ### Declared type relations -/

def join_path (segments : List String) : String :=
  String.intercalate "::" segments

/-- The unique `Type` a name path names: by FQN, else by its short name. -/
def resolve_type_node (table : SymbolTable) (name_path : List String) : Option NodeId :=
  match (table.def_by_fqn (join_path name_path)).filter fun d => d.kind = .Type with
  | some d => some d.node_id
  | none =>
    name_path.getLast?.bind fun last =>
      match (table.defs_by_short last).filter fun d => d.kind = .Type with
      | [only] => some only.node_id
      | _ => none

def is_method (d : DefEntry) : Bool :=
  d.kind = .Method ∨ d.kind = .Function

/-- The unique method a `[Trait, method]` path names. -/
def resolve_trait_method (table : SymbolTable) (name_path : List String) : Option NodeId :=
  match name_path.reverse with
  | method :: trait_name :: _ =>
    match (table.def_by_fqn (trait_name ++ "::" ++ method)).filter is_method with
    | some d => some d.node_id
    | none =>
      let suffix := "::" ++ trait_name ++ "::" ++ method
      match (table.defs_by_short method).filter fun d =>
          is_method d ∧ suffix.toList.isSuffixOf d.fqn.toList with
      | [only] => some only.node_id
      | _ => none
  | _ => none

/-- A declared relation is stated in the source, so its edge is certain. -/
def structural_edge (src dst : NodeId) (kind : EdgeKind) (rule : String) (span : Span) :
    EdgeWithProvenance where
  edge :=
    { id := ⟨0⟩
      src := src
      dst := dst
      kind := kind
      condition := .Always
      confidence := .Certain
      tier := .ScopeGraph
      rule := rule
      site_id := none
      stmt_index := none
      cut_markers := []
      implicit := none
      candidate_group := none
      established_by := none
      cfg_condition := none
      macro_origin := none
      transform := none }
  provenance := ⟨span, rule, .ScopeGraph, ""⟩

/-- The edge of one declared relation, if both ends can be grounded. -/
def resolve_impl_relation (symbols : List NodeWithProvenance) (table : SymbolTable)
    (file : FileInput) (rel : ImplRelation) : Option EdgeWithProvenance :=
  let span : Span := ⟨file.path, rel.span.line, rel.span.col⟩
  match rel.kind with
  | .Implements => do
    let src ← resolve_type_node table rel.subject
    let dst ← resolve_type_node table rel.object
    some (structural_edge src dst .Implements "impl-relation" span)
  | .Inherits => do
    let src ← resolve_type_node table rel.subject
    let dst ← resolve_type_node table rel.object
    some (structural_edge src dst .Inherits "supertrait" span)
  | .Overrides => do
    let src ← def_to_node symbols (join_path rel.subject)
    let dst ← resolve_trait_method table rel.object
    if src = dst then none else some (structural_edge src dst .Overrides "trait-override" span)

/-! ### Canonical order -/

/-- The old-id to new-id map of nodes that were moved but not yet renumbered. -/
def remap_of (moved : List NodeWithProvenance) : List NodeId :=
  moved.zipIdx.foldl (fun remap n => remap.set n.1.node.id.index (.ofIndex n.2))
    (List.replicate moved.length ⟨0⟩)

def remapped (remap : List NodeId) (id : NodeId) : NodeId :=
  remap[id.index]!

def remap_edge (remap : List NodeId) (e : EdgeWithProvenance) : EdgeWithProvenance :=
  { e with edge := { e.edge with src := remapped remap e.edge.src, dst := remapped remap e.edge.dst } }

/-- Everything keyed by node ids before the final sort. -/
structure Numbered where
  nodes : List NodeWithProvenance
  edges : List EdgeWithProvenance
  candidates : List Candidate
  narrowing : List (NodeId × NarrowingCounts)
deriving DecidableEq, Inhabited

/-- Put symbol and value nodes into one canonical order, renumber them, and let the
edges, the candidates and the narrowing counters follow. -/
def sort_nodes_canonical (g : Numbered) : Numbered :=
  if is_sorted node_order g.nodes then g
  else
    let moved := sort_by node_order g.nodes
    let remap := remap_of moved
    { nodes := assign_ids moved
      edges := g.edges.map (remap_edge remap)
      candidates := g.candidates.map fun c => { c with dst := remapped remap c.dst }
      narrowing := g.narrowing.map fun row => (remapped remap row.1, row.2) }

/-- The canonical edge order, on edges with provenance. -/
def edge_order : EdgeWithProvenance → EdgeWithProvenance → Ordering :=
  fun a b => edge_cmp a.edge b.edge

/-- The groups in the order they first appear among the edges, then the groups no
edge carries in ascending order: the new number of a group is its position here. -/
def group_numbering (edges : List EdgeWithProvenance) (candidates : List Candidate) : List UInt32 :=
  let carried := (edges.filterMap fun e => e.edge.candidate_group).reverse.dedup.reverse
  let edgeless := (candidates.map Candidate.candidate_group).filter fun g => !carried.contains g
  carried ++ sort_by compare edgeless.dedup

def renumbered (numbering : List UInt32) (group : UInt32) : UInt32 :=
  UInt32.ofNat (numbering.idxOf group)

/-- Re-establish the canonical edge order, dense edge ids, dense group numbers and the
candidate order. The second sort settles ties by the new group numbers. -/
def canonicalize (g : ResolvedGraph) : ResolvedGraph :=
  let edges := sort_by edge_order g.edges
  let numbering := group_numbering edges g.candidates
  let edges := edges.map fun e =>
    { e with edge := { e.edge with candidate_group := e.edge.candidate_group.map (renumbered numbering) } }
  let candidates := g.candidates.map fun c =>
    { c with candidate_group := renumbered numbering c.candidate_group }
  { g with
    edges := (sort_by edge_order edges).mapIdx fun i e =>
      { e with edge := { e.edge with id := ⟨UInt32.ofNat i⟩ } }
    candidates := sort_by candidate_cmp candidates }

/-! ### The dangling counters -/

/-- The canonical order of the dangling references. -/
def unresolved_order : UnresolvedRef → UnresolvedRef → Ordering :=
  compareLex (compareOn UnresolvedRef.caller_fqn)
    (compareLex (compareOn UnresolvedRef.name_path)
      (compareLex (fun a b => span_cmp a.span b.span)
        (compareLex (compareOn fun r => CutMarker.ALL.idxOf r.marker)
          (compareOn fun r => r.caller.raw))))

/-- A caller's dangling references, counted by marker. -/
structure Dangling where
  unresolved : UInt32
  external : UInt32
  untyped : UInt32
deriving DecidableEq, Inhabited

def Dangling.count (d : Dangling) (r : UnresolvedRef) : Dangling :=
  match r.marker with
  | .External => { d with external := d.external + 1 }
  | .UntypedReceiver => { d with untyped := d.untyped + 1 }
  | _ => { d with unresolved := d.unresolved + 1 }

/-- The counters of the references charged to `id`, if there is any. -/
def dangling_of (unresolved : List UnresolvedRef) (id : NodeId) : Option Dangling :=
  match unresolved.filter fun r => r.caller = id with
  | [] => none
  | charged => some (charged.foldl Dangling.count ⟨0, 0, 0⟩)

/-- Stamp a node with its dangling and narrowing counters. -/
def stamp (unresolved : List UnresolvedRef) (narrowing : List (NodeId × NarrowingCounts))
    (n : NodeWithProvenance) : NodeWithProvenance :=
  let d := dangling_of unresolved n.node.id
  let counts := (entry_of n.node.id narrowing).getD n.node.narrowing
  { n with
    node :=
      { n.node with
        unresolved_calls := (d.map Dangling.unresolved).getD n.node.unresolved_calls
        external_calls := (d.map Dangling.external).getD n.node.external_calls
        narrowing := { counts with visible_dropped_out := (d.map Dangling.untyped).getD 0 } } }

/-- Sort the dangling references, stamp the counters they and the narrowing yield, and
bring the graph into canonical order. -/
def finalize (g : Numbered) (unresolved : List UnresolvedRef) : ResolvedGraph :=
  let unresolved := sort_by unresolved_order unresolved
  let nodes :=
    if unresolved ≠ [] ∨ g.narrowing ≠ [] then g.nodes.map (stamp unresolved g.narrowing)
    else g.nodes
  canonicalize ⟨nodes, g.edges, g.candidates, unresolved⟩

/-! ### The link -/

/-- The parts of the link pass that are not spelled out here: the receiver index, by
what it answers at a site, and the interprocedural summary edges, by the value nodes
they are resolved against. -/
structure LinkEnv where
  narrow : List FileInput → SymbolTable → Site → Narrowed
  summary_edges : List FileInput → (String → Option NodeId) → List EdgeWithProvenance

def symbol_table (inputs : List FileInput) : SymbolTable :=
  .build ((build_nodes inputs).map NodeWithProvenance.node)
    (inputs.map fun file => (module_segment file, file.facts))

def receivers (env : LinkEnv) (inputs : List FileInput) (opts : LinkOpts) : Option (Site → Narrowed) :=
  if opts.receiver_narrowing then some (env.narrow inputs (symbol_table inputs)) else none

/-- The outcome of the resolution passes over the references. -/
def link_refs (env : LinkEnv) (inputs : List FileInput) (opts : LinkOpts) : LinkState :=
  resolve_refs (symbol_table inputs) opts (receivers env inputs opts)
    (link_sites (build_nodes inputs) inputs)

/-- The value nodes a link adds: none unless dataflow is on. -/
def link_values (inputs : List FileInput) (opts : LinkOpts) : List NodeWithProvenance :=
  if opts.dataflow then value_nodes (build_nodes inputs).length (replay_files inputs).stages else []

/-- The dataflow edges a link adds: none unless dataflow is on. -/
def link_dataflow_edges (env : LinkEnv) (inputs : List FileInput) (opts : LinkOpts) :
    List EdgeWithProvenance :=
  if opts.dataflow then
    data_flow_edges (build_nodes inputs) (link_values inputs opts) (replay_files inputs).pending ++
      env.summary_edges inputs (def_to_node (link_values inputs opts))
  else []

/-- Link per-file facts into one resolved graph. -/
def link (env : LinkEnv) (inputs : List FileInput) (opts : LinkOpts) : ResolvedGraph :=
  let symbols := build_nodes inputs
  let table := symbol_table inputs
  let refs := link_refs env inputs opts
  let relations := inputs.flatMap fun file =>
    file.facts.impl_relations.filterMap (resolve_impl_relation symbols table file)
  finalize
    (sort_nodes_canonical
      { nodes := symbols ++ link_values inputs opts
        edges := refs.edges ++ relations ++ link_dataflow_edges env inputs opts
        candidates := refs.candidates
        narrowing := refs.ledger.finish table })
    refs.unresolved

end cgx.resolve
