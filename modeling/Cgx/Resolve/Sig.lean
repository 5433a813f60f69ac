import Cgx.Resolve.Cha

open cgx.core sorting

namespace cgx.resolve

/-- The prefix of the rules that mark a call through a function value. -/
def INDIRECT_RULE_PREFIX : String := "indirect"

/-- The rule of a candidate edge that was chosen by signature. -/
def SIG_RULE : String := "sig-compat"

/-! ### The placeholders -/

/-- The kinds of calls that go through a function value. -/
def is_indirect_kind : EdgeKind → Bool
  | .CallsClosure | .CallsCallback | .CallsIndirect => true
  | _ => false

/-- An edge that stands for a call until its candidates are known. -/
def is_placeholder (e : EdgeWithProvenance) : Bool :=
  is_indirect_kind e.edge.kind && INDIRECT_RULE_PREFIX.toList.isPrefixOf e.edge.rule.toList

def digit_value (c : Char) : Option Nat :=
  if '0' ≤ c ∧ c ≤ '9' then some (c.toNat - '0'.toNat) else none

/-- Read decimal digits. -/
def parse_digits : Nat → List Char → Option Nat
  | n, [] => some n
  | n, c :: rest => (digit_value c).bind fun d => parse_digits (10 * n + d) rest

/-- Read a word-sized number, which may have a plus sign and must have a digit. -/
def parse_usize (text : List Char) : Option Nat :=
  let digits := if text.head? = some '+' then text.tail else text
  if digits = [] then none else (parse_digits 0 digits).filter fun n => n < 2 ^ 64

/-- The arity in the rule of a placeholder. Without one every candidate is admitted. -/
def parse_arity (rule : String) : Option Nat :=
  ( strip_prefix "indirect:" rule).bind fun tail => parse_usize tail.toList

def placeholder_site (e : EdgeWithProvenance) : Option SiteKey :=
  if is_placeholder e then site_key e else none

/-- A call through a function value: the position of its placeholder among the edges, the
placeholder, and the arity of the call. -/
structure IndirectSite where
  edge_index : Nat
  key : SiteKey
  edge : EdgeWithProvenance
  arity : Option Nat
deriving DecidableEq

/-- The sites with a placeholder, in ascending order. The first placeholder of a site is
taken for its only one. -/
def collect_indirect_sites (g : ResolvedGraph) : List IndirectSite :=
  (sort_by site_key_cmp (g.edges.filterMap placeholder_site).dedup).filterMap fun key =>
    (g.edges.zipIdx.find? fun e => placeholder_site e.1 = some key).map fun e =>
      ⟨e.2, key, e.1, parse_arity e.1.edge.rule⟩

/-! ### The candidates -/

/-- A function that can be a value: a closure, or a function whose parent is no type. -/
def is_function_value (g : ResolvedGraph) (n : NodeWithProvenance) : Bool :=
  match n.node.kind with
  | .Lambda => true
  | .Function =>
    ( module_prefix n.node.fqn).all fun parent =>
      !(g.nodes.any fun t => decide (t.node.kind = .Type) && decide (t.node.fqn = parent))
  | _ => false

/-- The number of parameters of a node, if its signature was recorded. -/
def node_arity (n : NodeWithProvenance) : Option Nat :=
  n.node.signature.map fun sig => sig.params.length

/-- Whether a node can be what a call of the language and arity reaches. -/
def is_compatible (g : ResolvedGraph) (lang : String) (arity : Option Nat) (n : NodeWithProvenance) : Bool :=
  is_function_value g n && decide (n.node.lang = lang) && arity.all fun a => decide (node_arity n = some a)

/-- The nodes that a call of the language and arity may reach, in ascending order. -/
def compatible (g : ResolvedGraph) (lang : String) (arity : Option Nat) : List NodeId :=
  canonicalize_candidate_dsts ((g.nodes.filter (is_compatible g lang arity)).map fun n => n.node.id)

/-- The language of the node with an id. -/
def lang_of (g : ResolvedGraph) (id : NodeId) : String :=
  ((g.nodes.reverse.find? fun n => n.node.id = id).map fun n => n.node.lang).getD ""

/-! ### The replacement -/

/-- The candidates of a site; `none` when no function value is compatible. -/
def sig_replacement (g : ResolvedGraph) (site : IndirectSite) : Option Replacement :=
  match compatible g (lang_of g site.edge.edge.src) site.arity with
  | [] => none
  | dsts => some ⟨site.key, site.edge, dsts, none⟩

/-- The edge of a candidate. Without value flow a lone candidate is possible only. -/
def build_sig_edge (r : Replacement) (dst : NodeId) : EdgeWithProvenance :=
  candidate_edge SIG_RULE .Possible r dst

def sig_replacements (g : ResolvedGraph) : List Replacement :=
  number_groups (next_group g) ((collect_indirect_sites g).filterMap (sig_replacement g))

/-- Remove the edges at the given positions. -/
def remove_edges_at (drop : List Nat) (edges : List EdgeWithProvenance) : List EdgeWithProvenance :=
  (edges.zipIdx.filter fun e => !drop.contains e.2).map Prod.fst

structure SigStats where
  sites_resolved : Nat
  sites_unmatched : Nat
  supernode_sites : Nat
deriving DecidableEq

/-- Put the candidates in place of the placeholders. A placeholder without candidates is
removed too, and counted in the statistics only. -/
def run_sig (g : ResolvedGraph) : ResolvedGraph × SigStats :=
  match collect_indirect_sites g with
  | [] => (g, ⟨0, 0, 0⟩)
  | sites =>
    let replacements := sig_replacements g
    (canonicalize
      { g with
        edges := remove_edges_at (sites.map IndirectSite.edge_index) g.edges ++
          replacements.flatMap fun r => r.dsts.map (build_sig_edge r)
        candidates := g.candidates ++ replacements.flatMap Replacement.rows },
      ⟨replacements.length, sites.length - replacements.length, replacements.countP Replacement.over_cap⟩)

end cgx.resolve
