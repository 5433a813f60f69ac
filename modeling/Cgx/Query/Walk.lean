import Cgx.Lib.Frontier
import Cgx.Lib.SortBy
import Cgx.Query.View

open cgx.core walks sorting

namespace cgx.query

/-- Default cap on enumerated paths. -/
def DEFAULT_MAX_PATHS : Nat := 1024

/-- Default cap on the node visits of a path enumeration. -/
def DEFAULT_MAX_STEPS : Nat := 2000000

/-- Configuration shared by every traversal a walk performs. -/
structure PathWalker where
  filter : EdgeFilter
  max_depth : Option UInt32
  max_paths : Option Nat
  max_steps : Option Nat
deriving DecidableEq, Inhabited

/-- Whether the exceptional flag holds after crossing `edge`, given its value
before. A spawn enters a detached error domain. -/
def advance_exceptional (before : Bool) (edge : EdgeRecord) : Bool :=
  if edge.kind = .Spawns then false else before || edge.condition.is_exceptional

/-- A node discovered by `PathWalker.bfs`. -/
structure Discovered where
  node : NodeId
  depth : Nat
  via : EdgeRecord
  exception_transient : Bool
deriving DecidableEq

/-- Neighbors are expanded by ascending peer id, then edge id. -/
def nbr_cmp : NodeId × EdgeRecord → NodeId × EdgeRecord → Ordering :=
  compareLex (compareOn fun nbr => nbr.1.raw) (compareOn fun nbr => nbr.2.id.raw)

namespace PathWalker

def path_cap (walker : PathWalker) : Nat :=
  walker.max_paths.getD DEFAULT_MAX_PATHS

def step_budget (walker : PathWalker) : Nat :=
  walker.max_steps.getD DEFAULT_MAX_STEPS

/-- The depth limit in hops. -/
def limit (walker : PathWalker) : Option Nat :=
  walker.max_depth.map UInt32.toNat

/-- The admitted neighbors of a node in expansion order. A peer outside the node
list is passed over by every walk. -/
def nbrs (walker : PathWalker) (view : GraphView) (dir : Direction) (node : NodeId) :
    List (NodeId × EdgeRecord) :=
  (sort_by nbr_cmp ((view.neighbors node dir walker.filter).map fun er => (er.peer, er.edge))).filter
    fun nbr => nbr.1.index < view.node_count

/-- The frontier search all breadth-first walks run; each node is enqueued once, so
one more round than there are nodes empties the frontier. -/
def frontier_search {σ : Type} (walker : PathWalker) (view : GraphView) (start : NodeId)
    (dir : Direction) (advance : σ → EdgeRecord → σ) (carry : σ) : List (Found NodeId EdgeRecord σ) :=
  search (walker.nbrs view dir) advance walker.limit (view.node_count + 1) [start] [⟨start, 0, carry⟩]

def discovered_cmp : Discovered → Discovered → Ordering :=
  compareLex (compareOn Discovered.depth) (compareOn fun d => d.node.raw)

/-- Breadth-first walk from `start`: each other reachable node once, at its shortest
depth, with its discovery edge and the exceptional flag on that path. -/
def bfs (walker : PathWalker) (view : GraphView) (start : NodeId) (dir : Direction) :
    List Discovered :=
  sort_by discovered_cmp <|
    (walker.frontier_search view start dir advance_exceptional false).map fun f =>
      ⟨f.node, f.depth, f.via, f.carry⟩

/-- Follow the predecessors back from `cur`, building the path in source to sink
order with each node's entering edge. -/
def reconstruct (pred : NodeId → Option (NodeId × EdgeRecord)) :
    Nat → NodeId → List (NodeId × Option EdgeRecord) → List (NodeId × Option EdgeRecord)
  | 0, cur, path => (cur, none) :: path
  | fuel + 1, cur, path =>
    match pred cur with
    | some (prev, edge) => reconstruct pred fuel prev ((cur, some edge) :: path)
    | none => (cur, none) :: path

/-- A shortest witnessing path from `start` to `goal`, or `none` when `goal` is not
reached within the depth limit. The source stops searching at the goal; what it
would discover later is no predecessor of it. -/
def shortest_path (walker : PathWalker) (view : GraphView) (start goal : NodeId) (dir : Direction) :
    Option (List (NodeId × Option EdgeRecord)) :=
  if start = goal then some [(start, none)]
  else
    let found := walker.frontier_search view start dir (fun _ _ => ()) ()
    if found.any fun f => f.node = goal then
      some (reconstruct (fun n => (found.find? fun f => f.node = n).map fun f => (f.prev, f.via))
        view.node_count goal [])
    else none

/-- The relation a walk follows: an admitted edge leads from `x` to the node `y`. -/
def Follows (walker : PathWalker) (view : GraphView) (dir : Direction) (x y : NodeId) : Prop :=
  ∃ er ∈ view.neighbors x dir walker.filter, er.peer = y ∧ y.index < view.node_count

theorem mem_nbrs {walker : PathWalker} {view : GraphView} {dir : Direction} {x y : NodeId}
    {edge : EdgeRecord} :
    (y, edge) ∈ walker.nbrs view dir x ↔
      ⟨edge, y⟩ ∈ view.neighbors x dir walker.filter ∧ y.index < view.node_count := by
  unfold nbrs
  simp only [List.mem_filter, mem_sort_by, List.mem_map, Prod.mk.injEq, decide_eq_true_eq]
  constructor
  · rintro ⟨⟨er, her, rfl, rfl⟩, hrange⟩
    exact ⟨her, hrange⟩
  · rintro ⟨her, hrange⟩
    exact ⟨⟨_, her, rfl, rfl⟩, hrange⟩

theorem adjacent_nbrs {walker : PathWalker} {view : GraphView} {dir : Direction} :
    Adjacent (walker.nbrs view dir) = walker.Follows view dir := by
  funext x y
  apply propext
  unfold Adjacent Follows
  constructor
  · rintro ⟨edge, hedge⟩
    obtain ⟨her, hrange⟩ := mem_nbrs.mp hedge
    exact ⟨⟨edge, y⟩, her, rfl, hrange⟩
  · rintro ⟨er, her, rfl, hrange⟩
    exact ⟨er.edge, mem_nbrs.mpr ⟨her, hrange⟩⟩

section frontier_search

variable {σ : Type} {walker : PathWalker} {view : GraphView} {start : NodeId} {dir : Direction}
  {advance : σ → EdgeRecord → σ} {carry : σ}

theorem frontier_search_sound {f : Found NodeId EdgeRecord σ}
    (hf : f ∈ walker.frontier_search view start dir advance carry) :
    Walk (walker.Follows view dir) f.depth start f.node ∧ within walker.limit f.depth = true ∧
      f.node ≠ start ∧ f.node.index < view.node_count := by
  obtain ⟨hwalk, hwithin, hne, _, hrow⟩ := search_sound hf
  rw [adjacent_nbrs] at hwalk
  exact ⟨hwalk, hwithin, hne, (mem_nbrs.mp hrow).2⟩

theorem mem_frontier_search_iff (walker : PathWalker) (view : GraphView) (start : NodeId)
    (dir : Direction) (advance : σ → EdgeRecord → σ) (carry : σ) {y : NodeId} :
    (∃ f ∈ walker.frontier_search view start dir advance carry, f.node = y) ↔
      y ≠ start ∧ ReachedWithin (walker.Follows view dir) walker.limit start y := by
  have huniverse : ∀ x y via, (y, via) ∈ walker.nbrs view dir x → y ∈ view.ids := by
    intro x y via hrow
    exact GraphView.mem_ids (mem_nbrs.mp hrow).2
  have hfuel : view.ids.card + 1 ≤ view.node_count + 1 := Nat.succ_le_succ view.card_ids_le
  rw [← adjacent_nbrs]
  exact mem_search_iff huniverse hfuel

end frontier_search

theorem bfs_sound {walker : PathWalker} {view : GraphView} {start : NodeId} {dir : Direction}
    {d : Discovered} (hd : d ∈ walker.bfs view start dir) :
    Walk (walker.Follows view dir) d.depth start d.node ∧ within walker.limit d.depth = true ∧
      d.node ≠ start ∧ d.node.index < view.node_count := by
  unfold bfs at hd
  rw [mem_sort_by, List.mem_map] at hd
  obtain ⟨f, hf, rfl⟩ := hd
  exact frontier_search_sound hf

/-- What the breadth-first walk discovers. -/
theorem mem_bfs_iff {walker : PathWalker} {view : GraphView} {start y : NodeId} {dir : Direction} :
    (∃ d ∈ walker.bfs view start dir, d.node = y) ↔
      y ≠ start ∧ ReachedWithin (walker.Follows view dir) walker.limit start y := by
  rw [← mem_frontier_search_iff walker view start dir advance_exceptional false]
  unfold bfs
  constructor
  · rintro ⟨d, hd, rfl⟩
    rw [mem_sort_by, List.mem_map] at hd
    obtain ⟨f, hf, rfl⟩ := hd
    exact ⟨f, hf, rfl⟩
  · rintro ⟨f, hf, rfl⟩
    refine ⟨⟨f.node, f.depth, f.via, f.carry⟩, ?_, rfl⟩
    rw [mem_sort_by, List.mem_map]
    exact ⟨f, hf, rfl⟩

/-- The breadth-first walk discovers a node at the hop count of its shortest walks. -/
theorem bfs_shortest {walker : PathWalker} {view : GraphView} {start : NodeId} {dir : Direction}
    {d : Discovered} (hd : d ∈ walker.bfs view start dir) :
    Shortest (walker.Follows view dir) d.depth start d.node := by
  have huniverse : ∀ x y via, (y, via) ∈ walker.nbrs view dir x → y ∈ view.ids := by
    intro x y via hrow
    exact GraphView.mem_ids (mem_nbrs.mp hrow).2
  have hfuel : view.ids.card + 1 ≤ view.node_count + 1 := Nat.succ_le_succ view.card_ids_le
  rw [bfs, mem_sort_by, List.mem_map] at hd
  obtain ⟨f, hf, hd⟩ := hd
  subst hd
  rw [← adjacent_nbrs]
  exact search_shortest huniverse hfuel hf

/-- What is discovered at a minimum depth. -/
theorem mem_bfs_depth_iff {walker : PathWalker} {view : GraphView} {start y : NodeId} {dir : Direction}
    {min : Nat} :
    (∃ d ∈ walker.bfs view start dir, d.node = y ∧ min ≤ d.depth) ↔
      y ≠ start ∧ ∃ k, Shortest (walker.Follows view dir) k start y ∧ within walker.limit k = true ∧
        min ≤ k := by
  constructor
  · rintro ⟨d, hd, hnode, hmin⟩
    subst hnode
    obtain ⟨_, hwithin, hne, _⟩ := bfs_sound hd
    exact ⟨hne, d.depth, bfs_shortest hd, hwithin, hmin⟩
  · rintro ⟨hne, k, hshortest, hwithin, hmin⟩
    obtain ⟨d, hd, hnode⟩ := mem_bfs_iff.mpr ⟨hne, k, hwithin, hshortest.1⟩
    refine ⟨d, hd, hnode, hmin.trans (hshortest.2 d.depth ?_)⟩
    rw [← hnode]
    exact (bfs_sound hd).1

/-- A witness is found exactly when the goal is reached within the limit. -/
theorem shortest_path_isSome {walker : PathWalker} {view : GraphView} {start goal : NodeId}
    {dir : Direction} :
    (walker.shortest_path view start goal dir).isSome = true ↔
      ReachedWithin (walker.Follows view dir) walker.limit start goal := by
  unfold shortest_path
  by_cases hgoal : start = goal
  · subst hgoal
    rw [if_pos rfl]
    have hzero : within walker.limit 0 = true := by cases walker.limit <;> simp
    exact ⟨fun _ => ⟨0, hzero, .refl start⟩, fun _ => rfl⟩
  · rw [if_neg hgoal]
    have hiff := mem_frontier_search_iff walker view start dir (fun (_ : Unit) _ => ()) () (y := goal)
    have hany : ((walker.frontier_search view start dir (fun _ _ => ()) ()).any
        fun f => f.node = goal) = true ↔
        ReachedWithin (walker.Follows view dir) walker.limit start goal := by
      rw [List.any_eq_true]
      simp only [decide_eq_true_eq]
      rw [hiff]
      exact ⟨fun h => h.2, fun h => ⟨Ne.symm hgoal, h⟩⟩
    rw [← hany]
    dsimp only
    split <;> simp_all

end PathWalker

end cgx.query
