import Cgx.Lib.SortedMap
import Cgx.Store.Canonical

open cgx.core cgx.store Std

namespace cgx.diff

/-- The identity of an edge across graphs: its endpoints and its place in the caller,
without a line number. -/
structure EdgeIdentity where
  src_fqn : String
  dst_fqn : String
  edge_kind : EdgeKind
  file : String
  anchor_ordinal : Option UInt32
deriving DecidableEq, Inhabited

/-- An absent ordinal comes first. -/
def anchor_key : Option UInt32 → Nat
  | none => 0
  | some n => n.toNat + 1

def EdgeIdentity.cmp : EdgeIdentity → EdgeIdentity → Ordering :=
  compareLex (compareOn fun i => i.src_fqn)
    (compareLex (compareOn fun i => i.dst_fqn)
      (compareLex (compareOn fun i => i.edge_kind.discriminant)
        (compareLex (compareOn fun i => i.file) (compareOn fun i => anchor_key i.anchor_ordinal))))

/-- An edge on one side of a diff, with the line of its caller. -/
structure DiffEdge where
  identity : EdgeIdentity
  record : EdgeRecord
  line : UInt32
deriving DecidableEq

/-- Which attributes of an edge differ. -/
structure EdgeChanges where
  condition : Bool
  confidence : Bool
  tier : Bool
  candidate_group : Bool
  cfg_condition : Bool
deriving DecidableEq

def EdgeChanges.any (c : EdgeChanges) : Bool :=
  c.condition || c.confidence || c.tier || c.candidate_group || c.cfg_condition

structure ChangedEdge where
  identity : EdgeIdentity
  base : EdgeRecord
  head : EdgeRecord
  changes : EdgeChanges
deriving DecidableEq

def classify_change (base head : EdgeRecord) : EdgeChanges where
  condition := base.condition ≠ head.condition
  confidence := base.confidence ≠ head.confidence
  tier := base.tier ≠ head.tier
  candidate_group := base.candidate_group ≠ head.candidate_group
  cfg_condition := base.cfg_condition ≠ head.cfg_condition

/-- A symbol that exists on one side of a diff. -/
structure DiffNode where
  fqn : String
  record : NodeRecord
deriving DecidableEq

structure GraphDiff where
  added_edges : List DiffEdge
  removed_edges : List DiffEdge
  changed_edges : List ChangedEdge
  added_nodes : List DiffNode
  removed_nodes : List DiffNode
deriving DecidableEq

def GraphDiff.is_empty (d : GraphDiff) : Bool :=
  d.added_edges.isEmpty && d.removed_edges.isEmpty && d.changed_edges.isEmpty && d.added_nodes.isEmpty &&
    d.removed_nodes.isEmpty

/-- The identity of an edge and the line of its caller; none if an endpoint is not in the
graph. -/
def identity_of (graph : LinkedGraph) (edge : EdgeRecord) : Option (EdgeIdentity × UInt32) := do
  let src ← graph.nodes[edge.src.index]?
  let dst ← graph.nodes[edge.dst.index]?
  return (⟨src.fqn, dst.fqn, edge.kind, src.file, edge.stmt_index⟩, src.line_start)

/-- The edges by identity. Of several edges of one identity the last one stays. -/
def index_edges (graph : LinkedGraph) : List (EdgeIdentity × EdgeRecord × UInt32) :=
  sorted_map.of_list EdgeIdentity.cmp
    (graph.edges.filterMap fun edge => (identity_of graph edge).map fun i => (i.1, edge, i.2))

def index_nodes (graph : LinkedGraph) : List (String × NodeRecord) :=
  sorted_map.of_list compare (graph.nodes.map fun node => (node.fqn, node))

/-- The nodes of one side whose name the other side does not have. -/
def nodes_only (here there : List (String × NodeRecord)) : List DiffNode :=
  here.filterMap fun (fqn, node) =>
    match sorted_map.get? compare fqn there with
    | none => some ⟨fqn, node⟩
    | some _ => none

/-- The edges of one side whose identity the other side does not have. -/
def edges_only (here there : List (EdgeIdentity × EdgeRecord × UInt32)) : List DiffEdge :=
  here.filterMap fun (identity, record, line) =>
    match sorted_map.get? EdgeIdentity.cmp identity there with
    | none => some ⟨identity, record, line⟩
    | some _ => none

def diff_graphs (base head : LinkedGraph) : GraphDiff :=
  let base_edges := index_edges base
  let head_edges := index_edges head
  { added_edges := edges_only head_edges base_edges
    removed_edges := edges_only base_edges head_edges
    changed_edges := head_edges.filterMap fun (identity, h_edge, _) =>
      match sorted_map.get? EdgeIdentity.cmp identity base_edges with
      | none => none
      | some (b_edge, _) =>
        let changes := classify_change b_edge h_edge
        if changes.any then some ⟨identity, b_edge, h_edge, changes⟩ else none
    added_nodes := nodes_only (index_nodes head) (index_nodes base)
    removed_nodes := nodes_only (index_nodes base) (index_nodes head) }

/-! ### The order of identities -/

theorem kind_of_discriminant (k : EdgeKind) :
    ([.Calls, .CallsVirtual, .CallsClosure, .CallsCallback, .CallsAsync, .CallsIndirect, .Spawns, .Contains,
      .Imports, .DerivesFrom, .Overrides, .Implements, .Inherits, .References, .Instantiates, .Throws, .Catches,
      .ReadsField, .WritesField] : List EdgeKind)[k.discriminant]? = some k := by
  cases k <;> rfl

theorem anchor_key_inj {a b : Option UInt32} (h : anchor_key a = anchor_key b) : a = b := by
  cases a with
  | none =>
    cases b with
    | none => rfl
    | some n => simp [anchor_key] at h
  | some m =>
    cases b with
    | none => simp [anchor_key] at h
    | some n => rw [UInt32.toNat_inj.mp (Nat.succ_injective h)]

theorem key_eq {α β : Type} [Ord β] [LawfulEqOrd β] {f : α → β} {a b : α} (h : compareOn f a b = .eq) :
    f a = f b :=
  compare_eq_iff_eq.mp h

instance : TransCmp EdgeIdentity.cmp :=
  inferInstanceAs (TransCmp (compareLex _ _))

instance : LawfulEqCmp EdgeIdentity.cmp where
  eq_of_compare := by
    intro a b h
    simp only [EdgeIdentity.cmp, compareLex_eq_eq] at h
    obtain ⟨hsrc, hdst, hkind, hfile, hanchor⟩ := h
    have hkinds := kind_of_discriminant a.edge_kind
    rw [key_eq hkind, kind_of_discriminant] at hkinds
    injection hkinds with hkinds
    have hsrc := key_eq hsrc
    have hdst := key_eq hdst
    have hfile := key_eq hfile
    have hanchor := anchor_key_inj (key_eq hanchor)
    obtain ⟨_, _, _, _, _⟩ := a
    obtain ⟨_, _, _, _, _⟩ := b
    dsimp only at hsrc hdst hkinds hfile hanchor
    rw [hsrc, hdst, hkinds, hfile, hanchor]

end cgx.diff
