import Cgx.Core.Site
import Cgx.Lib.Buckets

open cgx.core sorting buckets Std

namespace cgx.store

/-- A linked graph as the store takes and returns it. -/
structure LinkedGraph where
  nodes : List NodeRecord
  edges : List EdgeRecord
  candidates : List Candidate
deriving DecidableEq, Inhabited

def LinkedGraph.empty : LinkedGraph := ⟨[], [], []⟩

/-- What can go wrong in the store. `Panic` stands for an abort of the program. -/
inductive StoreError where
  | StoreFormat (found expected : UInt32)
  | Corrupt (oid : String)
  | StableKeyCollision (first second : String)
  | NonCanonical (reason : String)
  | LockTimeout
  | Io
  | Panic
deriving DecidableEq, Inhabited

/-- A node record without its id. -/
structure StoredNode where
  kind : SymbolKind
  fqn : String
  file : String
  line_start : UInt32
  line_end : UInt32
  lang : String
  visibility : Visibility
  is_abstract : Bool
  entrypoint_kind : Option EntrypointKind
  signature : Option Signature
  own_effects : EffectSet
  transitive_effects : EffectSet
  unresolved_calls : UInt32
  external_calls : UInt32
  narrowing : NarrowingCounts
deriving DecidableEq, Inhabited

/-- An edge record without its id: `src` is a place in the shard, `dst` a stable key,
and the group is numbered within the shard. -/
structure StoredEdge where
  src : UInt32
  dst : UInt64
  kind : EdgeKind
  condition : EdgeCondition
  confidence : Confidence
  tier : Tier
  rule : String
  site_id : Option SiteId
  stmt_index : Option UInt32
  cut_markers : List CutMarker
  implicit : Option ImplicitKind
  candidate_group : Option UInt32
  established_by : Option EstablishedBy
  cfg_condition : Option String
  macro_origin : Option String
  transform : Option Transform
deriving DecidableEq, Inhabited

/-- A candidate row: shard-local group, stable-key destination, rank. -/
structure StoredCandidate where
  group : UInt32
  dst : UInt64
  rank : UInt32
deriving DecidableEq, Inhabited

/-- The nodes and edges owned by one function, with the rows of its groups. It holds no
dense id, so unrelated edits do not change it. -/
structure Shard where
  nodes : List StoredNode
  edges : List StoredEdge
  candidates : List StoredCandidate
deriving DecidableEq, Inhabited

def StoredNode.of (n : NodeRecord) : StoredNode where
  kind := n.kind
  fqn := n.fqn
  file := n.file
  line_start := n.line_start
  line_end := n.line_end
  lang := n.lang
  visibility := n.visibility
  is_abstract := n.is_abstract
  entrypoint_kind := n.entrypoint_kind
  signature := n.signature
  own_effects := n.own_effects
  transitive_effects := n.transitive_effects
  unresolved_calls := n.unresolved_calls
  external_calls := n.external_calls
  narrowing := n.narrowing

def StoredNode.into_record (n : StoredNode) (id : NodeId) : NodeRecord where
  id := id
  kind := n.kind
  fqn := n.fqn
  file := n.file
  line_start := n.line_start
  line_end := n.line_end
  lang := n.lang
  visibility := n.visibility
  is_abstract := n.is_abstract
  entrypoint_kind := n.entrypoint_kind
  signature := n.signature
  own_effects := n.own_effects
  transitive_effects := n.transitive_effects
  unresolved_calls := n.unresolved_calls
  external_calls := n.external_calls
  narrowing := n.narrowing

def StoredEdge.of (e : EdgeRecord) (src : UInt32) (dst : UInt64) (group : Option UInt32) :
    StoredEdge where
  src := src
  dst := dst
  kind := e.kind
  condition := e.condition
  confidence := e.confidence
  tier := e.tier
  rule := e.rule
  site_id := e.site_id
  stmt_index := e.stmt_index
  cut_markers := e.cut_markers
  implicit := e.implicit
  candidate_group := group
  established_by := e.established_by
  cfg_condition := e.cfg_condition
  macro_origin := e.macro_origin
  transform := e.transform

def StoredEdge.into_record (e : StoredEdge) (src dst : NodeId) : EdgeRecord where
  id := ⟨0⟩
  src := src
  dst := dst
  kind := e.kind
  condition := e.condition
  confidence := e.confidence
  tier := e.tier
  rule := e.rule
  site_id := e.site_id
  stmt_index := e.stmt_index
  cut_markers := e.cut_markers
  implicit := e.implicit
  candidate_group := none
  established_by := e.established_by
  cfg_condition := e.cfg_condition
  macro_origin := e.macro_origin
  transform := e.transform

@[simp] theorem StoredNode.into_record_of (n : NodeRecord) :
    (StoredNode.of n).into_record n.id = n := rfl

/-! ### Stable keys -/

/-- The keys of the nodes seen so far, extended node by node. A node's key is hashed
from its FQN and its rank among the nodes of that FQN. -/
def stable_keys_from (hasher : String → UInt32 → UInt64) (seen : List (String × UInt64)) :
    List String → Except StoreError (List (String × UInt64))
  | [] => .ok seen
  | fqn :: rest =>
    let sk := hasher fqn (UInt32.ofNat ((seen.map Prod.fst).count fqn))
    match seen.find? fun prev => prev.2 = sk with
    | some prev => .error (.StableKeyCollision prev.1 fqn)
    | none => stable_keys_from hasher (seen ++ [(fqn, sk)]) rest

/-- The stable key of every node, in canonical order. A collision fails, naming both FQNs. -/
def stable_keys (hasher : String → UInt32 → UInt64) (fqns : List String) :
    Except StoreError (List UInt64) :=
  (stable_keys_from hasher [] fqns).map fun seen => seen.map Prod.snd

/-! ### The canonical form -/

def check_node_ids : Nat → List NodeRecord → Except StoreError Unit
  | _, [] => .ok ()
  | i, n :: rest =>
    if n.id.index ≠ i then
      .error (.NonCanonical ("node `" ++ n.fqn ++ "` has id " ++ toString n.id.index ++
        " at position " ++ toString i))
    else check_node_ids (i + 1) rest

def check_node_order : List NodeRecord → Except StoreError Unit
  | a :: b :: rest =>
    if node_cmp a b = .gt then
      .error (.NonCanonical ("node `" ++ a.fqn ++ "` sorts after `" ++ b.fqn ++ "`"))
    else check_node_order (b :: rest)
  | _ => .ok ()

/-- One edge's group against the groups seen so far, each with its source. -/
def check_group (group_src : List NodeId) (e : EdgeRecord) : Except StoreError (List NodeId) :=
  match e.candidate_group with
  | none => .ok group_src
  | some gr =>
    if gr.toNat < group_src.length then
      if group_src[gr.toNat]? = some e.src then .ok group_src
      else .error (.NonCanonical ("candidate group " ++ toString gr.toNat ++ " spans more than one src"))
    else if gr.toNat = group_src.length then .ok (group_src ++ [e.src])
    else .error (.NonCanonical ("candidate group " ++ toString gr.toNat ++
      " is not numbered by first appearance"))

/-- The edges from position `i` on, behind `prev`; returns the source of every group. -/
def check_edges (n : Nat) : Nat → Option EdgeRecord → List NodeId → List EdgeRecord →
    Except StoreError (List NodeId)
  | _, _, group_src, [] => .ok group_src
  | i, prev, group_src, e :: rest =>
    if e.id.index ≠ i then
      .error (.NonCanonical ("edge has id " ++ toString e.id.index ++ " at position " ++ toString i))
    else if n ≤ e.src.index ∨ n ≤ e.dst.index then
      .error (.NonCanonical ("edge " ++ toString i ++ " names a node outside the graph"))
    else if prev.any fun p => edge_cmp p e = .gt then
      .error (.NonCanonical ("edge " ++ toString i ++ " is out of canonical order"))
    else
      match check_group group_src e with
      | .error err => .error err
      | .ok group_src => check_edges n (i + 1) (some e) group_src rest

def check_candidates (n groups : Nat) : Option Candidate → List Candidate → Except StoreError Unit
  | _, [] => .ok ()
  | prev, c :: rest =>
    if groups ≤ c.candidate_group.toNat then
      .error (.NonCanonical ("candidate group " ++ toString c.candidate_group.toNat ++ " has no edge"))
    else if n ≤ c.dst.index then
      .error (.NonCanonical "candidate row names a node outside the graph")
    else if prev.any fun p => candidate_cmp p c = .gt then
      .error (.NonCanonical "candidate rows are out of (group, rank, dst) order")
    else check_candidates n groups (some c) rest

/-- Whether `g` is in the form that lets a reader rebuild every dense id. -/
def check_canonical (g : LinkedGraph) : Except StoreError Unit := do
  check_node_ids 0 g.nodes
  check_node_order g.nodes
  let group_src ← check_edges g.nodes.length 0 none [] g.edges
  check_candidates g.nodes.length group_src.length none g.candidates

/-! ### Cutting a graph into shards -/

def owning_key_from (callables : List String) (fqn : String) : Nat → String → String
  | 0, _ => fqn
  | fuel + 1, s =>
    if s ∈ callables then s
    else
      match rsplit_once s.toList with
      | some (parent, _) => owning_key_from callables fqn fuel (String.ofList parent)
      | none => fqn

/-- The longest `::`-prefix of `fqn` that is the FQN of a callable, else `fqn`. Every
step drops a segment, so the fuel is enough. -/
def owning_key (fqn : String) (callables : List String) : String :=
  owning_key_from callables fqn (fqn.length + 1) fqn

namespace LinkedGraph

def callables (g : LinkedGraph) : List String :=
  (g.nodes.filter fun n => n.kind.is_callable).map NodeRecord.fqn

/-- The key of the shard a node goes to. -/
def node_key (g : LinkedGraph) (n : NodeRecord) : String :=
  owning_key n.fqn g.callables

/-- The shard keys of the nodes, in node order. -/
def keys (g : LinkedGraph) : List String :=
  g.nodes.map g.node_key

/-- The shard keys, ascending. -/
def shard_keys (g : LinkedGraph) : List String :=
  sort_by compare g.keys.dedup

/-- The shard key of the node behind an id. -/
def key_at (g : LinkedGraph) (id : NodeId) : String :=
  g.keys[id.index]!

end LinkedGraph

/-- Note the source of a group on its first edge. -/
def push_group (group_src : List NodeId) (e : EdgeRecord) : List NodeId :=
  match e.candidate_group with
  | some gr => if gr.toNat = group_src.length then group_src ++ [e.src] else group_src
  | none => group_src

namespace LinkedGraph

/-- The source of every candidate group. -/
def group_sources (g : LinkedGraph) : List NodeId :=
  g.edges.foldl push_group []

/-- The shard key of every candidate group. -/
def group_keys (g : LinkedGraph) : List String :=
  g.group_sources.map g.key_at

/-- The number of a group within its shard: groups are counted as they first appear. -/
def local_group (g : LinkedGraph) (gr : UInt32) : UInt32 :=
  UInt32.ofNat (ordinal g.group_keys gr.toNat)

/-- The place of a node within its shard. -/
def local_index (g : LinkedGraph) (id : NodeId) : UInt32 :=
  UInt32.ofNat (ordinal g.keys id.index)

def stored_edge (g : LinkedGraph) (sk : List UInt64) (e : EdgeRecord) : StoredEdge :=
  .of e (g.local_index e.src) sk[e.dst.index]! (e.candidate_group.map g.local_group)

def stored_candidate (g : LinkedGraph) (sk : List UInt64) (c : Candidate) : StoredCandidate :=
  ⟨g.local_group c.candidate_group, sk[c.dst.index]!, c.rank⟩

end LinkedGraph

def stored_candidate_cmp : StoredCandidate → StoredCandidate → Ordering :=
  compareLex (compareOn StoredCandidate.group)
    (compareLex (compareOn StoredCandidate.rank) (compareOn StoredCandidate.dst))

namespace LinkedGraph

/-- The shard of one key: its nodes and their edges in canonical order, and the rows
of its groups. The source fills all shards in one pass over the graph. -/
def shard (g : LinkedGraph) (sk : List UInt64) (key : String) : Shard where
  nodes := (g.nodes.filter fun n => g.node_key n = key).map .of
  edges := (g.edges.filter fun e => g.key_at e.src = key).map (g.stored_edge sk)
  candidates := sort_by stored_candidate_cmp
    ((g.candidates.filter fun c => g.group_keys[c.candidate_group.toNat]! = key).map
      (g.stored_candidate sk))

/-- All shards, by key. -/
def shards (g : LinkedGraph) (sk : List UInt64) : List (String × Shard) :=
  g.shard_keys.map fun key => (key, g.shard sk key)

end LinkedGraph

/-! ### Rebuilding a graph from its shards -/

/-- The canonical node order, on stored nodes. -/
def stored_cmp : StoredNode → StoredNode → Ordering :=
  compareLex (compareOn StoredNode.file)
    (compareLex (compareOn StoredNode.line_start) (compareOn StoredNode.fqn))

instance : TransCmp stored_cmp :=
  inferInstanceAs (TransCmp (compareLex _ (compareLex _ _)))

/-- A shard's nodes are in canonical order. -/
def Shard.is_sorted (sh : Shard) : Bool :=
  sorting.is_sorted stored_cmp sh.nodes

/-- Where a node or a group stands: the shard and the place or number in it. -/
abbrev Place := Nat × Nat

/-- The nodes of all shards in manifest order, with their places. -/
def shard_places (shards : List (String × Shard)) : List (Place × StoredNode) :=
  (shards.mapIdx fun si sh => sh.2.nodes.mapIdx fun li n => ((si, li), n)).flatten

/-- The nodes in canonical order, with their places. -/
def node_order (shards : List (String × Shard)) : List (Place × StoredNode) :=
  sort_by (fun a b => stored_cmp a.2 b.2) (shard_places shards)

/-- The dense id of the node at a place. -/
def dense (order : List (Place × StoredNode)) (place : Place) : Option NodeId :=
  (order.findIdx? fun t => t.1 = place).map .ofIndex

/-- The node with a stable key. -/
def resolve (keys : List UInt64) (sk : UInt64) : Option NodeId :=
  (keys.findIdx? (· = sk)).map .ofIndex

/-- An edge with dense endpoints, its group still local to the shard. -/
def read_edge (order : List (Place × StoredNode)) (keys : List UInt64) (si : Nat) (oid : String)
    (e : StoredEdge) : Except StoreError (Option Place × EdgeRecord) :=
  match dense order (si, e.src.toNat), resolve keys e.dst with
  | some src, some dst => .ok (e.candidate_group.map fun gr => (si, gr.toNat), e.into_record src dst)
  | _, _ => .error (.Corrupt oid)

def read_candidate (keys : List UInt64) (si : Nat) (oid : String) (c : StoredCandidate) :
    Except StoreError (Place × NodeId × UInt32) :=
  match resolve keys c.dst with
  | some dst => .ok ((si, c.group.toNat), dst, c.rank)
  | none => .error (.Corrupt oid)

/-- The edges of one shard, then its candidate rows. -/
def read_shard (order : List (Place × StoredNode)) (keys : List UInt64) (si : Nat)
    (sh : String × Shard) :
    Except StoreError (List (Option Place × EdgeRecord) × List (Place × NodeId × UInt32)) := do
  let edges ← sh.2.edges.mapM (read_edge order keys si sh.1)
  let cands ← sh.2.candidates.mapM (read_candidate keys si sh.1)
  return (edges, cands)

/-- The order of places; an absent group sorts last. -/
def group_cmp : Option Place → Option Place → Ordering :=
  compareLex (compareOn fun g => (g.getD (4294967295, 4294967295)).1)
    (compareOn fun g => (g.getD (4294967295, 4294967295)).2)

/-- The canonical order of the edges' endpoints, kinds and statements. -/
def edge_stem_cmp : EdgeRecord → EdgeRecord → Ordering :=
  compareLex (compareOn fun e => e.src.raw)
    (compareLex (compareOn fun e => e.dst.raw)
      (compareLex (compareOn fun e => e.kind.discriminant)
        (compareOn fun e => e.stmt_index.getD 4294967295)))

/-- The canonical edge order, with places standing in for group numbers. -/
def placed_edge_cmp : Option Place × EdgeRecord → Option Place × EdgeRecord → Ordering :=
  compareLex (fun a b => edge_stem_cmp a.2 b.2) (fun a b => group_cmp a.1 b.1)

/-- Number the groups by first appearance and give every edge its position as id. -/
def number_edges : Nat → List Place → List (Option Place × EdgeRecord) → List EdgeRecord × List Place
  | _, groups, [] => ([], groups)
  | i, groups, (g, e) :: rest =>
    let groups := match g with
      | some place => if place ∈ groups then groups else groups ++ [place]
      | none => groups
    let (edges, final) := number_edges (i + 1) groups rest
    ({ e with
        id := ⟨UInt32.ofNat i⟩
        candidate_group := g.map fun place => UInt32.ofNat (groups.idxOf place) } :: edges, final)

/-- A candidate row with its group's number. -/
def number_candidate (shards : List (String × Shard)) (groups : List Place)
    (c : Place × NodeId × UInt32) : Except StoreError Candidate :=
  if c.1 ∈ groups then .ok ⟨UInt32.ofNat (groups.idxOf c.1), c.2.1, c.2.2⟩
  else .error (.Corrupt ((shards.map Prod.fst)[c.1.1]!))

/-- Rebuild the graph from its shards, each with the oid it was read under. -/
def graph_of_shards (hasher : String → UInt32 → UInt64) (shards : List (String × Shard)) :
    Except StoreError LinkedGraph := do
  let order := node_order shards
  let keys ← stable_keys hasher (order.map fun t => t.2.fqn)
  let parts ← (shards.zipIdx).mapM fun sh => read_shard order keys sh.2 sh.1
  let (edges, groups) := number_edges 0 [] (sort_by placed_edge_cmp (parts.flatMap Prod.fst))
  let candidates ← (parts.flatMap Prod.snd).mapM (number_candidate shards groups)
  return {
    nodes := order.mapIdx fun i t => t.2.into_record (.ofIndex i)
    edges := edges
    candidates := sort_by candidate_cmp candidates }

end cgx.store
