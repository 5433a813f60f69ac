import Cgx.Core.Edge
import Cgx.Resolve.Renumber
import Cgx.Scip.Resolver

open cgx.core cgx.resolve sorting

namespace cgx.scip

/-- How complete the compile database behind a scip-clang index is known to be. -/
inductive CompdbCompleteness where
  | NotApplicable
  | Complete
  | Partial
deriving DecidableEq, Inhabited

def CompdbCompleteness.is_fail_closed (c : CompdbCompleteness) : Bool :=
  c = .Partial

structure ScipRelabelOpts where
  local_packages : List String
  compdb : CompdbCompleteness
deriving DecidableEq, Inhabited

/-- The counters of a pass. -/
structure ScipStats where
  upgraded_certain : Nat
  upgraded_probable : Nat
  dep_edges : Nat
  collisions : Nat
  capped_partial_compdb : Nat
deriving DecidableEq, Inhabited

/-- What the pass over the edges reads and never changes. -/
structure ScipRelabel where
  nodes : List NodeWithProvenance
  resolver : ScipResolver
  opts : ScipRelabelOpts

/-- What the pass over the edges collects. The external nodes are found by their name. -/
structure Minted where
  new_nodes : List NodeRecord
  new_edges : List EdgeWithProvenance
  stats : ScipStats
  dirty : Bool
deriving DecidableEq, Inhabited

def Minted.new : Minted := ⟨[], [], ⟨0, 0, 0, 0, 0⟩, false⟩

/-- A 1-based coordinate as a 0-based one. -/
def zero_based (coord : UInt32) : UInt32 :=
  if coord = 0 then 0 else coord - 1

/-- A 0-based line of the index as a 1-based one. -/
def one_based (line : Int32) : UInt32 :=
  if line.toUInt32 = 4294967295 then line.toUInt32 else line.toUInt32 + 1

namespace ScipRelabel

variable (pass : ScipRelabel)

/-! ### What an occurrence says -/

def node_by_fqn (fqn : String) : Option NodeId :=
  (pass.nodes.reverse.find? fun n => n.node.fqn = fqn).map fun n => n.node.id

/-- The function or method that starts on a line; of several the last one counts. -/
def node_by_loc (file : String) (line : UInt32) : Option NodeId :=
  (pass.nodes.reverse.find? fun n =>
    is_method_kind n.node.kind ∧ n.node.file = file ∧ n.node.line_start = line).map fun n => n.node.id

def fail_closed : Bool :=
  pass.opts.compdb.is_fail_closed

/-- The packages of the caller, else those that own a definition of an in-tree name. -/
def is_local_package (package : String) : Bool :=
  if pass.opts.local_packages = [] then
    pass.resolver.definitions.any fun d => d.1.package = package ∧ (pass.node_by_fqn d.1.qname).isSome
  else pass.opts.local_packages.contains package

/-- The symbol of the first reference that starts at a coordinate. -/
def find_occurrence (file : String) (line0 col0 : UInt32) : Option String :=
  ((pass.resolver.refs_in_doc file).find? fun r =>
    r.1.start_line = line0.toInt32 ∧ r.1.start_char = col0.toInt32).map Prod.snd

/-- The symbol that the occurrence at a call site resolves to. -/
def resolution (span : Span) : Option (String × MappedSymbol) := do
  let col ← span.col
  let symbol ← pass.find_occurrence span.file (zero_based span.line) (zero_based col)
  let mapped ← pass.resolver.map_symbol symbol
  some (symbol, mapped)

/-- The band of a resolution before the fail-closed cap. -/
def band (kind : EdgeKind) (symbol : String) (mapped : MappedSymbol) : Confidence :=
  let conf :=
    match pass.resolver.classify symbol with
    | .TraitMember | .VirtualMember => .Probable
    | .FreeOrInherent => if pass.resolver.def_count mapped = 1 then .Certain else .Probable
  if kind = .CallsVirtual then conf.weakest .Probable else conf

/-- A unique-looking definition of an incomplete index is never certain. -/
def target_conf (kind : EdgeKind) (symbol : String) (mapped : MappedSymbol) : Confidence :=
  if pass.fail_closed ∧ pass.band kind symbol mapped = .Certain then .Probable
  else pass.band kind symbol mapped

/-- The node at the unique definition, else the one of the signature-free name. -/
def resolve_overload_node (mapped : MappedSymbol) : Option NodeId :=
  ((pass.resolver.unique_def_loc mapped).bind fun loc =>
    pass.node_by_loc loc.relative_path (one_based loc.range.start_line)).or
      (pass.node_by_fqn mapped.qname)

/-- The node a call is redirected to: only for a single in-tree definition. -/
def redirect (mapped : MappedSymbol) (conf : Confidence) : Option NodeId :=
  if pass.resolver.def_count mapped = 1 ∧ !pass.fail_closed ∧ pass.is_local_package mapped.package then
    match pass.resolver.scheme with
    -- A virtual or capped call keeps its candidates.
    | .ScipClang => if conf = .Certain then pass.resolve_overload_node mapped else none
    | .RustAnalyzer => pass.node_by_fqn mapped.qname
  else none

/-! ### Dependency edges -/

/-- A synthetic node for a name outside the tree; its file sorts behind the tree. -/
def external_record (qname : String) : NodeRecord where
  id := ⟨0⟩
  kind := .Function
  fqn := qname
  file := "<scip-external>/" ++ qname
  line_start := 0
  line_end := 0
  lang := "rust"
  visibility := .Public
  is_abstract := false
  entrypoint_kind := none
  signature := none
  own_effects := ⟨0⟩
  transitive_effects := ⟨0⟩
  unresolved_calls := 0
  external_calls := 0
  narrowing := .zero

/-- The id of a minted node until the commit. -/
def provisional_id (idx : Nat) : NodeId :=
  ⟨UInt32.ofNat pass.nodes.length + UInt32.ofNat idx⟩

/-- Resolve or mint the node of a dependency. -/
def external_node (m : Minted) (qname : String) : NodeId × Minted :=
  match pass.node_by_fqn qname with
  | some existing => (existing, m)
  | none =>
    match m.new_nodes.findIdx? fun n => n.fqn = qname with
    | some idx => (pass.provisional_id idx, m)
    | none =>
      (pass.provisional_id m.new_nodes.length, { m with new_nodes := m.new_nodes ++ [external_record qname] })

/-- The dependency edge of a call; its coordinate rides the rule. -/
def dep_edge (e : EdgeWithProvenance) (mapped : MappedSymbol) (dst : NodeId) : EdgeWithProvenance :=
  let span := e.provenance.span
  let rule := "scip-dep:" ++ mapped.package ++ "@" ++ mapped.version
  { edge :=
      { id := ⟨0⟩
        src := e.edge.src
        dst := dst
        kind := e.edge.kind
        condition := e.edge.condition
        confidence := .Probable
        tier := .Scip
        rule := rule
        site_id := some (.derive mapped.qname span.file span.line (span.col.getD 0))
        stmt_index := e.edge.stmt_index
        cut_markers := e.edge.cut_markers
        implicit := e.edge.implicit
        candidate_group := none
        established_by := none
        cfg_condition := none
        macro_origin := none
        transform := none }
    provenance := ⟨span, rule, .Scip, ""⟩ }

def emit_dep_edge (m : Minted) (e : EdgeWithProvenance) (mapped : MappedSymbol) : Minted :=
  let (dst, m) := pass.external_node m mapped.qname
  { m with
    new_edges := m.new_edges ++ [dep_edge e mapped dst]
    stats := { m.stats with dep_edges := m.stats.dep_edges + 1 } }

/-! ### The pass -/

def SCIP_RULE : String := "scip-occurrence"

/-- The upgrade-only merge. -/
def raise (conf : Confidence) (e : EdgeWithProvenance) : EdgeWithProvenance :=
  if e.edge.confidence < conf then
    { edge := { e.edge with confidence := conf, tier := .Scip, rule := SCIP_RULE }
      provenance := { e.provenance with rule := SCIP_RULE, tier := .Scip } }
  else e

/-- The redirect: the edge is bound to the target and leaves its candidate group. -/
def bind_target (target : Option NodeId) (e : EdgeWithProvenance) : EdgeWithProvenance :=
  match target with
  | some target => { e with edge := { e.edge with dst := target, candidate_group := none } }
  | none => e

/-- What the pass makes of one edge. -/
def relabeled (e : EdgeWithProvenance) : EdgeWithProvenance :=
  if e.edge.kind.is_call then
    match pass.resolution e.provenance.span with
    | some (symbol, mapped) =>
      let conf := pass.target_conf e.edge.kind symbol mapped
      bind_target (pass.redirect mapped conf) (raise conf e)
    | none => e
  else e

/-- The counters of one resolved call. -/
def count (s : ScipStats) (e : EdgeWithProvenance) (symbol : String) (mapped : MappedSymbol) : ScipStats :=
  let conf := pass.target_conf e.edge.kind symbol mapped
  let raised := e.edge.confidence < conf
  { s with
    collisions := s.collisions + if 1 < pass.resolver.def_count mapped then 1 else 0
    capped_partial_compdb := s.capped_partial_compdb +
      if pass.fail_closed ∧ pass.band e.edge.kind symbol mapped = .Certain then 1 else 0
    upgraded_certain := s.upgraded_certain + if raised ∧ conf = .Certain then 1 else 0
    upgraded_probable := s.upgraded_probable + if raised ∧ conf = .Probable then 1 else 0 }

/-- What the pass collects at one edge. -/
def relabel_edge (m : Minted) (e : EdgeWithProvenance) : Minted :=
  if e.edge.kind.is_call then
    match pass.resolution e.provenance.span with
    | some (symbol, mapped) =>
      let m := { m with stats := pass.count m.stats e symbol mapped }
      let m := if pass.is_local_package mapped.package then m else pass.emit_dep_edge m e mapped
      let target := pass.redirect mapped (pass.target_conf e.edge.kind symbol mapped)
      let moved := target.any fun target => e.edge.dst ≠ target ∨ e.edge.candidate_group.isSome
      { m with dirty := m.dirty || moved }
    | none => m
  else m

end ScipRelabel

/-- The minted nodes under their provisional ids. -/
def provisional_nodes (pass : ScipRelabel) (m : Minted) : List NodeWithProvenance :=
  m.new_nodes.mapIdx fun idx rec =>
    ⟨{ rec with id := pass.provisional_id idx }, ⟨⟨rec.file, 0, none⟩, "scip-external", .Scip, ""⟩⟩

/-- The id of a moved node; an id that no node carries is kept. -/
def commit_remap (moved : List NodeWithProvenance) (id : NodeId) : NodeId :=
  ((moved.zipIdx.reverse.find? fun n => n.1.node.id = id).map fun n => .ofIndex n.2).getD id

def renumber_edge (apply : NodeId → NodeId) (e : EdgeWithProvenance) : EdgeWithProvenance :=
  { e with edge := { e.edge with src := apply e.edge.src, dst := apply e.edge.dst } }

/-- Append the minted nodes, re-sort all nodes, and remap every endpoint. -/
def commit_new_nodes (pass : ScipRelabel) (m : Minted) (g : ResolvedGraph) : ResolvedGraph × Minted :=
  let moved := sort_by node_order (g.nodes ++ provisional_nodes pass m)
  let apply := commit_remap moved
  ({ g with
      nodes := assign_ids moved
      edges := g.edges.map (renumber_edge apply)
      candidates := g.candidates.map fun c => { c with dst := apply c.dst } },
    { m with new_edges := m.new_edges.map (renumber_edge apply), dirty := true })

/-- Walk the edges in canonical order, then append what was minted. -/
def run (pass : ScipRelabel) (g : ResolvedGraph) : ResolvedGraph × Minted :=
  let m := g.edges.foldl pass.relabel_edge .new
  let g := { g with edges := g.edges.map pass.relabeled }
  let (g, m) := if m.new_nodes = [] then (g, m) else commit_new_nodes pass m g
  if m.new_edges = [] then (g, m)
  else ({ g with edges := g.edges ++ m.new_edges }, { m with dirty := true })

/-- Drop the rows of the groups that no edge carries. -/
def retain_carried (g : ResolvedGraph) : ResolvedGraph :=
  let carried := g.edges.filterMap fun e => e.edge.candidate_group
  { g with candidates := g.candidates.filter fun c => carried.contains c.candidate_group }

def finish (ran : ResolvedGraph × Minted) : ResolvedGraph × ScipStats :=
  (if ran.2.dirty then canonicalize (retain_carried ran.1) else ran.1, ran.2.stats)

/-- Apply the upgrade-only re-label pass to a graph. -/
def relabel (g : ResolvedGraph) (scip : ScipResolver) (opts : ScipRelabelOpts) : ResolvedGraph × ScipStats :=
  finish (run ⟨g.nodes, scip, opts⟩ g)

end cgx.scip
