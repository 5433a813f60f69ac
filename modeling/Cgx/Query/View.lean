import Mathlib.Data.Finset.Card
import Cgx.Core.Edge
import Cgx.Core.Glob

open cgx.core

namespace cgx.query

/-- Which way a walk moves along edges. -/
inductive Direction where
  | Forward
  | Backward
deriving DecidableEq, Inhabited

/-- The opposite direction. -/
def Direction.reverse : Direction → Direction
  | .Forward => .Backward
  | .Backward => .Forward

/-- The end of an edge a walk in this direction leaves from. -/
def Direction.origin (dir : Direction) (edge : EdgeRecord) : NodeId :=
  match dir with
  | .Forward => edge.src
  | .Backward => edge.dst

/-- The end of an edge a walk in this direction arrives at. -/
def Direction.peer (dir : Direction) (edge : EdgeRecord) : NodeId :=
  match dir with
  | .Forward => edge.dst
  | .Backward => edge.src

/-- How an edge filter restricts edge conditions. -/
inductive ConditionFilter where
  | Any
  | Only (c : EdgeCondition)
  | Exclude (c : EdgeCondition)
deriving DecidableEq, Inhabited

/-- The static per-edge admission predicate. The `max_candidates` clause is a
property of the candidate group and is enforced by `GraphView.neighbors`. -/
structure EdgeFilter where
  min_confidence : Confidence
  condition : ConditionFilter
  kinds : Option (List EdgeKind)
  max_candidates : Option UInt32
deriving DecidableEq

/-- Every call-family edge at any confidence. -/
def EdgeFilter.calls : EdgeFilter :=
  ⟨.Possible, .Any, none, none⟩

instance : Inhabited EdgeFilter := ⟨EdgeFilter.calls⟩

/-- The kind clause: the explicit kinds, or the call family by default. -/
def EdgeFilter.admits_kind (filter : EdgeFilter) (kind : EdgeKind) : Bool :=
  match filter.kinds with
  | some kinds => kinds.contains kind
  | none => kind.is_call

/-- The condition clause. -/
def ConditionFilter.admits (condition : ConditionFilter) (c : EdgeCondition) : Bool :=
  match condition with
  | .Any => true
  | .Only only => c = only
  | .Exclude excluded => c ≠ excluded

/-- Whether `edge` passes every per-edge clause of this filter. -/
def EdgeFilter.admits (filter : EdgeFilter) (edge : EdgeRecord) : Bool :=
  if !filter.admits_kind edge.kind then false
  else if edge.confidence < filter.min_confidence then false
  else filter.condition.admits edge.condition

theorem EdgeFilter.admits_iff {filter : EdgeFilter} {edge : EdgeRecord} :
    filter.admits edge = true ↔ filter.admits_kind edge.kind = true ∧
      ¬ edge.confidence < filter.min_confidence ∧ filter.condition.admits edge.condition = true := by
  unfold EdgeFilter.admits
  cases filter.admits_kind edge.kind <;> by_cases edge.confidence < filter.min_confidence <;> simp [*]

/-- Every condition clause admits some condition. -/
theorem ConditionFilter.exists_admits (condition : ConditionFilter) :
    ∃ c, condition.admits c = true := by
  cases condition with
  | Any => exact ⟨.Always, rfl⟩
  | Only c => exact ⟨c, by simp [ConditionFilter.admits]⟩
  | Exclude c =>
    cases c with
    | Always => exact ⟨.Loop, rfl⟩
    | Conditional | Loop | Exception | Panic => exact ⟨.Always, rfl⟩

/-- A linked graph prepared for traversal. Node identity is the dense position in
the node list. The adjacency lists and group sizes that the source precomputes
are functions of these fields. -/
structure GraphView where
  nodes : List NodeRecord
  edges : List EdgeRecord
  candidates : List Candidate
  ids_dense : ∀ i (h : i < nodes.length), (nodes[i]).id.index = i

/-- One edge and the node reached by traversing it in the walk's direction. -/
structure EdgeRef where
  edge : EdgeRecord
  peer : NodeId
deriving DecidableEq, Inhabited

namespace GraphView

def node_count (view : GraphView) : Nat :=
  view.nodes.length

/-- The edges leaving `n`, in canonical edge order. -/
def out_edges (view : GraphView) (n : NodeId) : List EdgeRecord :=
  if n.index < view.node_count then view.edges.filter fun edge => edge.src = n else []

/-- The edges entering `n`, in canonical edge order. -/
def in_edges (view : GraphView) (n : NodeId) : List EdgeRecord :=
  if n.index < view.node_count then view.edges.filter fun edge => edge.dst = n else []

/-- The number of parallel target edges that share a candidate group. -/
def candidate_group_size (view : GraphView) (group : UInt32) : Nat :=
  (view.candidates.filter fun c => c.candidate_group = group).length

/-- The record for a node id; like the source's indexing, only for ids in range. -/
def node (view : GraphView) (n : NodeId) : NodeRecord :=
  view.nodes[n.index]!

def try_node (view : GraphView) (n : NodeId) : Option NodeRecord :=
  view.nodes[n.index]?

/-- The ids of the nodes matching a pattern, in ascending order. -/
def resolve_symbol (view : GraphView) (pat : SymbolPattern) : List NodeId :=
  (view.nodes.filter pat.matches_node).map NodeRecord.id

/-- The ids of the nodes of the given kinds, in ascending order. -/
def nodes_of_kind (view : GraphView) (kinds : List SymbolKind) : List NodeId :=
  (view.nodes.filter fun node => kinds.contains node.kind).map NodeRecord.id

/-- Whether the fan-out cap of `filter` drops `edge`: its candidate group has more
members than the cap. An edge without a group is never dropped. -/
def over_cap (view : GraphView) (filter : EdgeFilter) (edge : EdgeRecord) : Bool :=
  match filter.max_candidates, edge.candidate_group with
  | some max, some group => max.toNat < view.candidate_group_size group
  | _, _ => false

/-- The neighbors of `n` whose edge passes `filter`, in canonical edge order: the
one adjacency primitive every walk consults. -/
def neighbors (view : GraphView) (n : NodeId) (dir : Direction) (filter : EdgeFilter) : List EdgeRef :=
  let bucket := match dir with
    | .Forward => view.out_edges n
    | .Backward => view.in_edges n
  bucket.filterMap fun edge =>
    if !filter.admits edge then none
    else if view.over_cap filter edge then none
    else some ⟨edge, dir.peer edge⟩

theorem mem_neighbors {view : GraphView} {n : NodeId} {dir : Direction} {filter : EdgeFilter}
    {er : EdgeRef} :
    er ∈ view.neighbors n dir filter ↔ er.edge ∈ view.edges ∧ dir.origin er.edge = n ∧
      er.peer = dir.peer er.edge ∧ n.index < view.node_count ∧ filter.admits er.edge = true ∧
      view.over_cap filter er.edge = false := by
  have hbucket : ∀ edge, edge ∈ (match dir with
      | .Forward => view.out_edges n
      | .Backward => view.in_edges n) ↔
      edge ∈ view.edges ∧ dir.origin edge = n ∧ n.index < view.node_count := by
    intro edge
    cases dir <;> simp only [out_edges, in_edges, Direction.origin] <;> split <;>
      simp_all [and_comm]
  unfold neighbors
  simp only [List.mem_filterMap]
  constructor
  · rintro ⟨edge, hedge, hsome⟩
    obtain ⟨hmem, horigin, hrange⟩ := (hbucket edge).mp hedge
    by_cases hadmits : filter.admits edge = true <;>
      by_cases hcap : view.over_cap filter edge = true <;> simp [hadmits, hcap] at hsome
    subst hsome
    exact ⟨hmem, horigin, rfl, hrange, hadmits, by simpa using hcap⟩
  · rintro ⟨hmem, horigin, hpeer, hrange, hadmits, hcap⟩
    refine ⟨er.edge, (hbucket er.edge).mpr ⟨hmem, horigin, hrange⟩, ?_⟩
    simp [hadmits, hcap, ← hpeer]

/-- The record of an id in range carries that id. -/
theorem node_id {view : GraphView} {n : NodeId} (h : n.index < view.node_count) :
    (view.node n).id = n := by
  have hdense := view.ids_dense n.index h
  unfold node
  rw [getElem!_pos view.nodes n.index h]
  exact NodeId.ext_index hdense

theorem node_mem {view : GraphView} {n : NodeId} (h : n.index < view.node_count) :
    view.node n ∈ view.nodes := by
  unfold node
  rw [getElem!_pos view.nodes n.index h]
  exact List.getElem_mem h

/-- A record of the view is the record of its own id. -/
theorem node_of_mem {view : GraphView} {record : NodeRecord} (h : record ∈ view.nodes) :
    record.id.index < view.node_count ∧ view.node record.id = record := by
  obtain ⟨i, hi, rfl⟩ := List.mem_iff_getElem.mp h
  have hdense := view.ids_dense i hi
  constructor
  · rw [hdense]
    exact hi
  · unfold node
    rw [hdense, getElem!_pos view.nodes i hi]

/-- The records of a view differ: each has its own id. -/
theorem nodes_nodup (view : GraphView) : view.nodes.Nodup := by
  refine List.nodup_iff_getElem?_ne_getElem?.mpr fun i j hij hj heq => ?_
  have hi : i < view.nodes.length := by omega
  have hidi := view.ids_dense i hi
  have hidj := view.ids_dense j hj
  rw [List.getElem?_eq_getElem hi, List.getElem?_eq_getElem hj, Option.some.injEq] at heq
  rw [heq, hidj] at hidi
  omega

/-- The ids of a view differ. -/
theorem node_ids_nodup (view : GraphView) : (view.nodes.map NodeRecord.id).Nodup := by
  refine List.Nodup.map_on (fun a ha b hb hid => ?_) view.nodes_nodup
  rw [← (node_of_mem ha).2, hid, (node_of_mem hb).2]

theorem mem_node_ids {view : GraphView} {n : NodeId} :
    n ∈ view.nodes.map NodeRecord.id ↔ n.index < view.node_count := by
  constructor
  · intro hn
    obtain ⟨record, hmem, hid⟩ := List.mem_map.mp hn
    subst hid
    exact (node_of_mem hmem).1
  · intro hrange
    rw [← node_id hrange]
    exact List.mem_map_of_mem (node_mem hrange)

theorem mem_resolve_symbol {view : GraphView} {pat : SymbolPattern} {n : NodeId} :
    n ∈ view.resolve_symbol pat ↔
      n.index < view.node_count ∧ pat.matches_node (view.node n) = true := by
  unfold resolve_symbol
  simp only [List.mem_map, List.mem_filter]
  constructor
  · rintro ⟨record, ⟨hmem, hmatch⟩, rfl⟩
    obtain ⟨hrange, hnode⟩ := node_of_mem hmem
    exact ⟨hrange, by rwa [hnode]⟩
  · rintro ⟨hrange, hmatch⟩
    exact ⟨view.node n, ⟨node_mem hrange, hmatch⟩, node_id hrange⟩

theorem mem_nodes_of_kind {view : GraphView} {kinds : List SymbolKind} {n : NodeId} :
    n ∈ view.nodes_of_kind kinds ↔
      n.index < view.node_count ∧ (view.node n).kind ∈ kinds := by
  unfold nodes_of_kind
  simp only [List.mem_map, List.mem_filter, List.contains_iff_mem]
  constructor
  · rintro ⟨record, ⟨hmem, hkind⟩, rfl⟩
    obtain ⟨hrange, hnode⟩ := node_of_mem hmem
    exact ⟨hrange, by rwa [hnode]⟩
  · rintro ⟨hrange, hkind⟩
    exact ⟨view.node n, ⟨node_mem hrange, hkind⟩, node_id hrange⟩

/-- Mark an id as seen: append it unless it is out of range or marked already. -/
def mark (view : GraphView) (marked : List NodeId) (n : NodeId) : List NodeId :=
  if n.index < view.node_count ∧ n ∉ marked then marked ++ [n] else marked

theorem mem_foldl_mark {view : GraphView} {nodes acc : List NodeId} {n : NodeId} :
    n ∈ nodes.foldl view.mark acc ↔ n ∈ acc ∨ n ∈ nodes ∧ n.index < view.node_count := by
  induction nodes generalizing acc with
  | nil => simp
  | cons head rest ih =>
    rw [List.foldl_cons, ih]
    unfold mark
    split
    · rename_i hhead
      simp only [List.mem_append, List.mem_cons, List.not_mem_nil, or_false]
      constructor
      · rintro ((h | rfl) | ⟨h, hrange⟩)
        · exact .inl h
        · exact .inr ⟨.inl rfl, hhead.1⟩
        · exact .inr ⟨.inr h, hrange⟩
      · rintro (h | ⟨rfl | h, hrange⟩)
        · exact .inl (.inl h)
        · exact .inl (.inr rfl)
        · exact .inr ⟨h, hrange⟩
    · rename_i hhead
      simp only [List.mem_cons]
      constructor
      · rintro (h | ⟨h, hrange⟩)
        · exact .inl h
        · exact .inr ⟨.inr h, hrange⟩
      · rintro (h | ⟨rfl | h, hrange⟩)
        · exact .inl h
        · exact .inl (by_contra fun hnot => hhead ⟨hrange, hnot⟩)
        · exact .inr ⟨h, hrange⟩

/-- The set of all node ids of the view. -/
def ids (view : GraphView) : Finset NodeId :=
  ((List.range view.node_count).map NodeId.ofIndex).toFinset

theorem mem_ids {view : GraphView} {n : NodeId} (h : n.index < view.node_count) : n ∈ view.ids := by
  unfold ids
  rw [List.mem_toFinset, List.mem_map]
  refine ⟨n.index, List.mem_range.mpr h, ?_⟩
  exact NodeId.ext_index (NodeId.index_ofIndex n.index_lt)

theorem card_ids_le (view : GraphView) : view.ids.card ≤ view.node_count := by
  unfold ids
  refine (List.toFinset_card_le _).trans ?_
  simp

end GraphView

end cgx.query
