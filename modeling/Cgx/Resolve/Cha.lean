import Cgx.Lib.Closure
import Cgx.Resolve.Graph

open cgx.core sorting

namespace cgx.resolve

/-- A trait-scoped group larger than this is kept, but cut-marked. -/
def CHA_SUPERNODE_CAP : Nat := 64

/-- The rule of a name-scoped virtual-dispatch edge: the sites CHA replaces. -/
def NAME_METHOD_RULE : String := "name-method"

/-- The rule of a trait-scoped candidate edge. -/
def CHA_RULE : String := "cha-trait-set"

/-! ### Names and nodes -/

/-- Split an FQN into its parent and its last segment. -/
def split_fqn (fqn : String) : Option (String × String) :=
  (rsplit_once fqn.toList).map fun parts => (String.ofList parts.1, String.ofList parts.2)

def member_fqn (parent method : String) : String :=
  parent ++ "::" ++ method

/-- Whether nodes of this kind are methods for the dispatch passes. -/
def is_method_kind : SymbolKind → Bool
  | .Method | .Function => true
  | _ => false

/-- The first node that carries the id. -/
def node_of (nodes : List NodeWithProvenance) (id : NodeId) : Option NodeWithProvenance :=
  nodes.find? fun n => n.node.id = id

def fqn_of (nodes : List NodeWithProvenance) (id : NodeId) : Option String :=
  (node_of nodes id).map fun n => n.node.fqn

def short_name_of (nodes : List NodeWithProvenance) (id : NodeId) : Option String :=
  (fqn_of nodes id).map short_name

/-! ### The trait lattice -/

/-- The FQN pairs of the edges of one kind whose ends are both nodes. -/
def fqn_edges (g : ResolvedGraph) (kind : EdgeKind) : List (String × String) :=
  g.edges.filterMap fun e =>
    if e.edge.kind = kind then
      match fqn_of g.nodes e.edge.src, fqn_of g.nodes e.edge.dst with
      | some src, some dst => some (src, dst)
      | _, _ => none
    else none

/-- What is directly above `fqn` in a list of pairs. -/
def above (pairs : List (String × String)) (fqn : String) : List String :=
  (pairs.filter fun pair => pair.1 = fqn).map Prod.snd

/-- The subtraits that reach `sup` over `Inherits`, directly or through others. -/
def transitive_subtraits (inherits : List (String × String)) (sup : String) : List String :=
  (inherits.map Prod.fst).dedup.filter fun sub =>
    sup ∈ closure.closure_of (above inherits) (inherits.map Prod.snd) (above inherits sub)

/-- The relations CHA needs to map a method's short name to its trait-scoped candidates.
The source keeps them in maps; here the maps are lookups. -/
structure Lattice where
  implementors : String → List String
  subtraits : String → List String
  trait_methods_by_name : String → List String
  node_by_fqn : String → Option NodeId
  callable_fqns : String → Bool
  has_default_body : String → Bool

namespace Lattice

def build (g : ResolvedGraph) : Lattice :=
  let implements := fqn_edges g .Implements
  let inherits := fqn_edges g .Inherits
  let is_trait (fqn : String) : Bool :=
    implements.any (fun pair => pair.2 = fqn) ||
      inherits.any fun pair => pair.1 = fqn || pair.2 = fqn
  let callables := g.nodes.filter fun n => is_method_kind n.node.kind
  { implementors := fun tr => ((implements.filter fun pair => pair.2 = tr).map Prod.fst).dedup
    subtraits := transitive_subtraits inherits
    trait_methods_by_name := fun method =>
      (callables.filterMap fun n =>
        (split_fqn n.node.fqn).bind fun parts =>
          if is_trait parts.1 ∧ parts.2 = method then some parts.1 else none).dedup
    node_by_fqn := fun fqn => (g.nodes.reverse.find? fun n => n.node.fqn = fqn).map fun n => n.node.id
    callable_fqns := fun fqn => callables.any fun n => n.node.fqn = fqn
    has_default_body := fun fqn =>
      callables.any fun n => n.node.fqn = fqn && !n.node.is_abstract &&
        ((split_fqn fqn).map Prod.fst).any is_trait }

/-- What a receiver of type `ty` runs for a method of the trait `tr`: its own override,
else the trait's default body. -/
def body_for (l : Lattice) (tr method ty : String) : Option NodeId :=
  if l.callable_fqns (member_fqn ty method) then l.node_by_fqn (member_fqn ty method)
  else if l.has_default_body (member_fqn tr method) then l.node_by_fqn (member_fqn tr method)
  else none

/-- The implementors of a trait and of the traits that inherit it. -/
def types_of (l : Lattice) (tr : String) : List String :=
  l.implementors tr ++ (l.subtraits tr).flatMap l.implementors

/-- The candidates of a virtual call to `method`; none when no trait declares it. -/
def trait_scoped_candidates (l : Lattice) (method : String) : List NodeId :=
  (l.trait_methods_by_name method).flatMap fun tr => (l.types_of tr).filterMap (l.body_for tr method)

end Lattice

/-! ### Call sites -/

/-- A call site: its caller and its content-addressed id. -/
abbrev SiteKey := NodeId × SiteId

def site_key_cmp : SiteKey → SiteKey → Ordering :=
  compareLex (compareOn fun k => k.1.raw) (compareOn fun k => k.2.raw)

def site_key (e : EdgeWithProvenance) : Option SiteKey :=
  e.edge.site_id.map fun site_id => (e.edge.src, site_id)

/-- The site of a virtual-dispatch edge that carries the given rule. -/
def virtual_site (rule : String) (e : EdgeWithProvenance) : Option SiteKey :=
  if e.edge.kind = .CallsVirtual ∧ e.edge.rule = rule then site_key e else none

/-- The edges of one site, in edge order. -/
def site_edges (rule : String) (g : ResolvedGraph) (key : SiteKey) : List EdgeWithProvenance :=
  g.edges.filter fun e => virtual_site rule e = some key

/-- The sites with an edge of the given rule, in ascending order. -/
def collect_sites (rule : String) (g : ResolvedGraph) : List SiteKey :=
  sort_by site_key_cmp (g.edges.filterMap (virtual_site rule)).dedup

/-! ### Replacement -/

/-- The band of a destination set. -/
def set_confidence (dsts : List NodeId) : Confidence :=
  if dsts.length = 1 then .Probable else .Possible

/-- Above the largest group number in use. -/
def next_group (g : ResolvedGraph) : UInt32 :=
  match (g.edges.filterMap fun e => e.edge.candidate_group).max? with
  | some group => group + 1
  | none => 0

/-- The replacement of one site: the first edge of the site, which every new edge copies,
and the destinations in canonical order. -/
structure Replacement where
  key : SiteKey
  proto : EdgeWithProvenance
  dsts : List NodeId
  group : Option UInt32
deriving DecidableEq, Inhabited

def Replacement.over_cap (r : Replacement) : Bool :=
  CHA_SUPERNODE_CAP < r.dsts.length

/-- Number the replacements that have several destinations, in order. -/
def number_groups : UInt32 → List Replacement → List Replacement
  | _, [] => []
  | next, r :: rest =>
    if 1 < r.dsts.length then { r with group := some next } :: number_groups (next + 1) rest
    else r :: number_groups next rest

/-- The candidate rows of a replacement: its destinations, ranked in order. -/
def Replacement.rows (r : Replacement) : List Candidate :=
  match r.group with
  | some g => r.dsts.mapIdx fun rank dst => ⟨g, dst, UInt32.ofNat rank⟩
  | none => []

/-- An edge that keeps the site of its prototype and gets a new target and rule. -/
def candidate_edge (rule : String) (confidence : Confidence) (r : Replacement) (dst : NodeId) :
    EdgeWithProvenance where
  edge :=
    { r.proto.edge with
      id := ⟨0⟩
      dst := dst
      confidence := confidence
      tier := .ChaRta
      rule := rule
      cut_markers :=
        if r.over_cap then CutMarkers.from_iter_canonical (.Unresolved :: r.proto.edge.cut_markers)
        else r.proto.edge.cut_markers
      candidate_group := r.group
      established_by := none
      cfg_condition := none
      macro_origin := none
      transform := none }
  provenance := ⟨r.proto.provenance.span, rule, .ChaRta, ""⟩

def build_cha_edge (r : Replacement) (dst : NodeId) : EdgeWithProvenance :=
  candidate_edge CHA_RULE (set_confidence r.dsts) r dst

/-- The trait-scoped replacement of a site; `none` when no trait declares its method. -/
def rescope (l : Lattice) (g : ResolvedGraph) (key : SiteKey) : Option Replacement := do
  let proto ← (site_edges NAME_METHOD_RULE g key).head?
  let method ← short_name_of g.nodes proto.edge.dst
  match canonicalize_candidate_dsts (l.trait_scoped_candidates method) with
  | [] => none
  | dsts => some ⟨key, proto, dsts, none⟩

structure ChaStats where
  sites_rescoped : Nat
  supernode_sites : Nat
deriving DecidableEq, Inhabited

/-- The replacements of all sites, with their groups. -/
def cha_replacements (g : ResolvedGraph) : List Replacement :=
  number_groups (next_group g)
    ((collect_sites NAME_METHOD_RULE g).filterMap (rescope (Lattice.build g) g))

/-- Put the replacements in place of the edges they replace. -/
def replace_sites (rule : String) (build : Replacement → NodeId → EdgeWithProvenance)
    (replacements : List Replacement) (g : ResolvedGraph) : ResolvedGraph :=
  let replaced (e : EdgeWithProvenance) : Bool :=
    replacements.any fun r => virtual_site rule e = some r.key
  let groups := (g.edges.filter replaced).filterMap fun e => e.edge.candidate_group
  { g with
    edges := (g.edges.filter fun e => !replaced e) ++
      replacements.flatMap fun r => r.dsts.map (build r)
    candidates := (g.candidates.filter fun c => c.candidate_group ∉ groups) ++
      replacements.flatMap Replacement.rows }

/-- Replace the candidates of the name-scoped virtual sites by the trait-scoped ones. -/
def run_cha (g : ResolvedGraph) : ResolvedGraph × ChaStats :=
  match cha_replacements g with
  | [] => (g, ⟨0, 0⟩)
  | replacements =>
    (canonicalize (replace_sites NAME_METHOD_RULE build_cha_edge replacements g),
      ⟨replacements.length, replacements.countP Replacement.over_cap⟩)

/-- The rule of an instantiation-pruned edge. -/
def RTA_RULE : String := "rta-pruned"

/-! ### What is live -/

/-- The entrypoints, or every callable of a graph without one. -/
def rta_roots (g : ResolvedGraph) : List NodeId :=
  match g.nodes.filter fun n => n.node.entrypoint_kind.isSome with
  | [] => (g.nodes.filter fun n => is_method_kind n.node.kind).map fun n => n.node.id
  | tagged => tagged.map fun n => n.node.id

def callees (g : ResolvedGraph) (id : NodeId) : List NodeId :=
  (g.edges.filter fun e => e.edge.kind.is_call && decide (e.edge.src = id)).map fun e => e.edge.dst

/-- The nodes reachable from the roots over call edges. -/
def reachable_callers (g : ResolvedGraph) : List NodeId :=
  closure.closure_of (callees g) (rta_roots g ++ g.edges.map fun e => e.edge.dst) (rta_roots g)

/-- The name of the last node that carries the id. -/
def fqn_by_id (g : ResolvedGraph) (id : NodeId) : Option String :=
  (g.nodes.reverse.find? fun n => n.node.id = id).map fun n => n.node.fqn

/-- The types that a reachable node constructs. -/
def instantiated_types (g : ResolvedGraph) (reachable : List NodeId) : List String :=
  (g.edges.filter fun e => decide (e.edge.kind = .Instantiates) && reachable.contains e.edge.src).filterMap
    fun e => fqn_by_id g e.edge.dst

/-- Markers of a call that may construct a type out of sight. -/
def hides_construction : CutMarker → Bool
  | .UnexpandedMacro | .ViaFfi | .Reflective | .Dynamic | .ViaDi => true
  | _ => false

/-- Whether a reachable construction stands behind a cut. The dangling references are not
looked at. -/
def construction_under_cut (g : ResolvedGraph) (reachable : List NodeId) : Bool :=
  (g.edges.any fun e => decide (e.edge.kind = .Instantiates) && reachable.contains e.edge.src &&
    !e.edge.cut_markers.isEmpty) ||
  g.edges.any fun e => reachable.contains e.edge.src && e.edge.cut_markers.any hides_construction

/-- The type that declares a candidate, by the candidate's name. -/
def declaring_type (fqn : String) : Option String :=
  (split_fqn fqn).map Prod.fst

/-- A candidate stays when its declaring type is instantiated, or cannot be named. -/
def keeps_candidate (g : ResolvedGraph) (instantiated : List String) (e : EdgeWithProvenance) : Bool :=
  match (fqn_by_id g e.edge.dst).bind declaring_type with
  | some ty => instantiated.contains ty
  | none => true

/-! ### The pass -/

/-- What becomes of one site. -/
inductive SiteOutcome where
  | guarded
  | whole
  | pruned
deriving DecidableEq

/-- A site is pruned unless a cut stands in the way or no candidate would be left. -/
def site_outcome (g : ResolvedGraph) (key : SiteKey) : SiteOutcome :=
  let edges := site_edges CHA_RULE g key
  let reachable := reachable_callers g
  let keep := keeps_candidate g (instantiated_types g reachable)
  if edges.any (fun e => !e.edge.cut_markers.isEmpty) || construction_under_cut g reachable then .guarded
  else if edges.all keep then .whole
  else if edges.any keep then .pruned
  else .guarded

/-- Whether the edge stands at a site that is pruned. -/
def at_pruned_site (g : ResolvedGraph) (e : EdgeWithProvenance) : Bool :=
  (virtual_site CHA_RULE e).any fun key => decide (site_outcome g key = .pruned)

def is_dropped (g : ResolvedGraph) (e : EdgeWithProvenance) : Bool :=
  at_pruned_site g e && !keeps_candidate g (instantiated_types g (reachable_callers g)) e

/-- A candidate that stays at a pruned site is upgraded. -/
def upgrade (g : ResolvedGraph) (e : EdgeWithProvenance) : EdgeWithProvenance :=
  if at_pruned_site g e then
    { edge := { e.edge with confidence := .Probable, rule := RTA_RULE }
      provenance := { e.provenance with rule := RTA_RULE } }
  else e

/-- The groups with one target left among the pruned edges. -/
def is_singleton_group (edges : List EdgeWithProvenance) (group : UInt32) : Bool :=
  ((edges.filter fun e => decide (e.edge.rule = RTA_RULE) && decide (e.edge.candidate_group = some group)).map
    fun e => e.edge.dst).dedup.length = 1

def shed_group (single : UInt32 → Bool) (e : EdgeWithProvenance) : EdgeWithProvenance :=
  { e with edge := { e.edge with candidate_group := e.edge.candidate_group.filter fun g => !single g } }

structure RtaStats where
  sites_pruned : Nat
  candidates_dropped : Nat
  sites_guarded_by_cut : Nat
deriving DecidableEq, Inhabited

def rta_stats (g : ResolvedGraph) : RtaStats :=
  ⟨(collect_sites CHA_RULE g).countP fun key => site_outcome g key = .pruned,
    g.edges.countP (is_dropped g),
    (collect_sites CHA_RULE g).countP fun key => site_outcome g key = .guarded⟩

/-- The edges and rows that pruning leaves. Rows that stay keep their ranks: the source
collects the groups it touched, but never numbers their rows again. -/
def prune_sites (g : ResolvedGraph) : ResolvedGraph :=
  let edges := (g.edges.filter fun e => !is_dropped g e).map (upgrade g)
  let candidates := g.candidates.filter fun c =>
    !g.edges.any fun e => is_dropped g e && decide (e.edge.candidate_group = some c.candidate_group) &&
      decide (e.edge.dst = c.dst)
  let single := is_singleton_group edges
  { g with
    edges := edges.map (shed_group single)
    candidates := candidates.filter fun c => !single c.candidate_group }

/-- Narrow the trait-scoped candidates to the types that live code constructs. -/
def run_rta (g : ResolvedGraph) : ResolvedGraph × RtaStats :=
  (if g.edges.any (is_dropped g) then canonicalize (prune_sites g) else g, rta_stats g)

end cgx.resolve
