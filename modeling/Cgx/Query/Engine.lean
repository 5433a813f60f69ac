import Mathlib.Data.String.Basic
import Cgx.Query.Walk

open cgx.core walks sorting

namespace cgx.query

/-- One row of a `callers`/`callees` answer. -/
structure NeighborResult where
  node : NodeRecord
  depth : Nat
  via : EdgeRecord
  condition : EdgeCondition
  confidence : Confidence
  min_confidence_on_path : Confidence
  exception_transient : Bool
deriving DecidableEq

/-- One node on a path, with the edge taken to enter it. -/
structure PathStep where
  node : NodeRecord
  via : Option EdgeRecord
  exception_transient : Bool
deriving DecidableEq

/-- A witnessing path. -/
structure PathResult where
  steps : List PathStep
  min_confidence : Confidence
  crosses_exceptional : Bool
deriving DecidableEq

/-- Whether one symbol can reach another, with a shortest witness when it can. -/
structure ReachResult where
  source : NodeId
  target : NodeId
  reachable : Bool
  witness : Option PathResult
deriving DecidableEq

/-- The default result order: file, line, fully-qualified name. -/
def result_cmp : NodeRecord → NodeRecord → Ordering :=
  compareLex (compareOn NodeRecord.file) (compareLex (compareOn NodeRecord.line_start)
    (compareOn NodeRecord.fqn))

/-- For every reached node, the weakest edge confidence along a shortest path. -/
def weakest_confidence_to (view : GraphView) (anchor : NodeId) (walker : PathWalker)
    (dir : Direction) (n : NodeId) : Option Confidence :=
  ((walker.frontier_search view anchor dir (fun carried edge => carried.weakest edge.confidence)
    .Certain).find? fun f => f.node = n).map Found.carry

def neighbor_walk (view : GraphView) (anchor : NodeId) (walker : PathWalker) (dir : Direction) :
    List NeighborResult :=
  sort_by (fun a b => result_cmp a.node b.node) <|
    (walker.bfs view anchor dir).map fun d =>
      { node := view.node d.node
        depth := d.depth
        via := d.via
        condition := d.via.condition
        confidence := d.via.confidence
        min_confidence_on_path :=
          (weakest_confidence_to view anchor walker dir d.node).getD d.via.confidence
        exception_transient := d.exception_transient }

/-- The symbols that transitively call `target`. -/
def callers (view : GraphView) (target : NodeId) (walker : PathWalker) : List NeighborResult :=
  neighbor_walk view target walker .Backward

/-- The symbols that `source` transitively calls. -/
def callees (view : GraphView) (source : NodeId) (walker : PathWalker) : List NeighborResult :=
  neighbor_walk view source walker .Forward

/-- Recompute the exceptional flag along a linear path. -/
def seq_to_walksteps (view : GraphView) :
    Bool → List (NodeId × Option EdgeRecord) → List PathStep
  | _, [] => []
  | exc, (node, via) :: rest =>
    let exc' := match via with
      | none => exc
      | some edge =>
        if edge.kind = .Spawns then false
        else if edge.condition.is_exceptional then true
        else exc
    ⟨view.node node, via, exc'⟩ :: seq_to_walksteps view exc' rest

/-- Assemble a path, surfacing its weakest confidence and its transience. -/
def build_path_result (steps : List PathStep) : PathResult where
  steps := steps
  min_confidence := steps.foldl (fun weakest step =>
    match step.via with
    | some edge => weakest.weakest edge.confidence
    | none => weakest) .Certain
  crosses_exceptional := steps.any PathStep.exception_transient

/-- Whether `source` reaches `target`, with a shortest witness when it does. -/
def reaches (view : GraphView) (source target : NodeId) (walker : PathWalker) : ReachResult :=
  match walker.shortest_path view source target .Forward with
  | some seq => ⟨source, target, true, some (build_path_result (seq_to_walksteps view false seq))⟩
  | none => ⟨source, target, false, none⟩

/-- The entrypoint root set: the explicit entrypoints, or by default every node
tagged with an entrypoint kind. -/
def entrypoint_roots (view : GraphView) (entrypoints : List NodeId) : List NodeId :=
  if entrypoints.isEmpty then
    (view.nodes.filter fun node => node.entrypoint_kind.isSome).map NodeRecord.id
  else entrypoints

/-- Whether a node is a root or discovered from one. -/
def used (view : GraphView) (roots : List NodeId) (walker : PathWalker) (n : NodeId) : Bool :=
  roots.any fun root => root = n || (walker.bfs view root .Forward).any fun d => d.node = n

/-- The symbols of the requested kinds that no root reaches. -/
def unused (view : GraphView) (entrypoints : List NodeId) (kinds : List SymbolKind)
    (walker : PathWalker) : List NodeRecord :=
  let roots := entrypoint_roots view entrypoints
  sort_by result_cmp <|
    (view.nodes.filter fun node => !used view roots walker node.id).filter fun node =>
      kinds.isEmpty || kinds.contains node.kind

/-- The ids in a neighbor answer are the other nodes reached within the limit. -/
theorem mem_neighbor_walk_iff {view : GraphView} {anchor : NodeId} {walker : PathWalker}
    {dir : Direction} {n : NodeId} :
    n ∈ (neighbor_walk view anchor walker dir).map (fun r => r.node.id) ↔
      n ≠ anchor ∧ ReachedWithin (walker.Follows view dir) walker.limit anchor n := by
  rw [← PathWalker.mem_bfs_iff]
  unfold neighbor_walk
  simp only [List.mem_map, mem_sort_by]
  constructor
  · rintro ⟨r, ⟨d, hd, rfl⟩, rfl⟩
    exact ⟨d, hd, (GraphView.node_id (PathWalker.bfs_sound hd).2.2.2).symm⟩
  · rintro ⟨d, hd, rfl⟩
    exact ⟨_, ⟨d, hd, rfl⟩, GraphView.node_id (PathWalker.bfs_sound hd).2.2.2⟩

theorem neighbor_walk_eq_nil_iff {view : GraphView} {anchor : NodeId} {walker : PathWalker}
    {dir : Direction} :
    neighbor_walk view anchor walker dir = [] ↔
      ∀ n, ReachedWithin (walker.Follows view dir) walker.limit anchor n → n = anchor := by
  constructor
  · intro hnil n hreached
    by_contra hne
    have hmem := mem_neighbor_walk_iff.mpr ⟨hne, hreached⟩
    simp [hnil] at hmem
  · intro hnone
    rw [List.eq_nil_iff_forall_not_mem]
    intro r hr
    obtain ⟨hne, hreached⟩ := mem_neighbor_walk_iff.mp
      (List.mem_map_of_mem (f := fun r : NeighborResult => r.node.id) hr)
    exact hne (hnone _ hreached)

theorem reaches_reachable_iff {view : GraphView} {source target : NodeId} {walker : PathWalker} :
    (reaches view source target walker).reachable = true ↔
      ReachedWithin (walker.Follows view .Forward) walker.limit source target := by
  rw [← PathWalker.shortest_path_isSome]
  unfold reaches
  cases walker.shortest_path view source target .Forward <;> simp

theorem reaches_witness_isSome (view : GraphView) (source target : NodeId) (walker : PathWalker) :
    (reaches view source target walker).witness.isSome =
      (reaches view source target walker).reachable := by
  unfold reaches
  cases walker.shortest_path view source target .Forward <;> rfl

theorem used_iff {view : GraphView} {roots : List NodeId} {walker : PathWalker} {n : NodeId} :
    used view roots walker n = true ↔
      ∃ root ∈ roots, ReachedWithin (walker.Follows view .Forward) walker.limit root n := by
  unfold used
  simp only [List.any_eq_true, Bool.or_eq_true, decide_eq_true_eq]
  have hiff : ∀ root, (root = n ∨ ∃ d ∈ walker.bfs view root .Forward, d.node = n) ↔
      ReachedWithin (walker.Follows view .Forward) walker.limit root n := by
    intro root
    rw [PathWalker.mem_bfs_iff]
    by_cases hroot : root = n
    · subst hroot
      have hzero : within walker.limit 0 = true := by cases walker.limit <;> simp
      exact ⟨fun _ => ⟨0, hzero, .refl root⟩, fun _ => .inl rfl⟩
    · exact ⟨fun h => h.elim (absurd · hroot) fun h => h.2, fun h => .inr ⟨Ne.symm hroot, h⟩⟩
  simp only [hiff]

/-- Two walks that use the same nodes report the same unused list. -/
theorem unused_congr {view view' : GraphView} {walker walker' : PathWalker} {entrypoints : List NodeId}
    (hnodes : view'.nodes = view.nodes)
    (hused : ∀ n, n.index < view.node_count →
      used view' (entrypoint_roots view entrypoints) walker' n =
        used view (entrypoint_roots view entrypoints) walker n)
    (kinds : List SymbolKind) :
    unused view' entrypoints kinds walker' = unused view entrypoints kinds walker := by
  have hroots : entrypoint_roots view' entrypoints = entrypoint_roots view entrypoints := by
    simp only [entrypoint_roots, hnodes]
  have hfilter : (view.nodes.filter fun node =>
        !used view' (entrypoint_roots view entrypoints) walker' node.id) =
      view.nodes.filter fun node =>
        !used view (entrypoint_roots view entrypoints) walker node.id := by
    apply List.filter_congr
    intro node hnode
    rw [hused node.id (GraphView.node_of_mem hnode).1]
  simp only [unused, hroots, hnodes, hfilter]

end cgx.query
