import Mathlib.Data.List.Chain
import Mathlib.Data.List.ProdSigma
import Cgx.Core.Edge
import Cgx.Query.Rows
import Cgx.Store.Shard

open cgx.core cgx.query cgx.store walks sorting Std

namespace cgx.diff

/-- A source to sink path that is new at head, with the names along a shortest one. -/
structure AddedPath where
  from_fqn : String
  to_fqn : String
  via : List String
deriving DecidableEq

/-- The new paths, and how many head nodes each anchor matches. -/
structure PathDiff where
  added_paths : List AddedPath
  from_matched : Nat
  to_matched : Nat
deriving DecidableEq

def PathDiff.has_new_path (d : PathDiff) : Bool :=
  !d.added_paths.isEmpty

/-- The names a path leads between. -/
def AddedPath.pair (p : AddedPath) : String × String :=
  (p.from_fqn, p.to_fqn)

def AddedPath.cmp : AddedPath → AddedPath → Ordering :=
  compareLex (compareOn AddedPath.from_fqn) (compareOn AddedPath.to_fqn)

/-- Node ids are positions. -/
def DenseIds (graph : LinkedGraph) : Prop :=
  ∀ i (h : i < graph.nodes.length), (graph.nodes[i]).id.index = i

instance (graph : LinkedGraph) : Decidable (DenseIds graph) :=
  inferInstanceAs (Decidable (∀ i (_ : i < graph.nodes.length), _))

def view_of (graph : LinkedGraph) (dense : DenseIds graph) : GraphView :=
  ⟨graph.nodes, graph.edges, graph.candidates, dense⟩

/-- The call family and the dataflow edge, at any confidence. -/
def reachability_filter : EdgeFilter :=
  { EdgeFilter.calls with
    kinds := some [.Calls, .CallsVirtual, .CallsClosure, .CallsCallback, .CallsAsync, .CallsIndirect, .Spawns,
      .DerivesFrom] }

def matched_node_ids (view : GraphView) (pattern : SymbolPattern) : List NodeId :=
  (view.nodes.filter pattern.matches_node).map NodeRecord.id

/-- The walker of the gate. A step budget bounds no breadth-first search. -/
def reachability_walker (max_steps : Nat) : PathWalker :=
  ⟨reachability_filter, none, none, some max_steps⟩

/-- The reachable pairs of a matching source and another matching sink, each with a
witness. -/
def reachable_pairs (view : GraphView) (from_pat to_pat : SymbolPattern) (max_steps : Nat) : List AddedPath :=
  (matched_node_ids view from_pat).flatMap fun src =>
    (matched_node_ids view to_pat).filterMap fun dst =>
      if src = dst then none
      else
        let result := reaches view src dst (reachability_walker max_steps)
        if result.reachable then
          some ⟨(view.node src).fqn, (view.node dst).fqn,
            (result.witness.map fun w => w.steps.map fun s => s.node.fqn).getD []⟩
        else none

def path_diff_graphs_bounded (base head : LinkedGraph) (hbase : DenseIds base) (hhead : DenseIds head)
    (from_pat to_pat : SymbolPattern) (max_steps : Nat) : PathDiff :=
  let base_view := view_of base hbase
  let head_view := view_of head hhead
  let base_pairs := (reachable_pairs base_view from_pat to_pat max_steps).map AddedPath.pair
  { added_paths := sort_by AddedPath.cmp <|
      (reachable_pairs head_view from_pat to_pat max_steps).filter fun p => !base_pairs.contains p.pair
    from_matched := (matched_node_ids head_view from_pat).length
    to_matched := (matched_node_ids head_view to_pat).length }

def path_diff_graphs (base head : LinkedGraph) (hbase : DenseIds base) (hhead : DenseIds head)
    (from_pat to_pat : SymbolPattern) : PathDiff :=
  path_diff_graphs_bounded base head hbase hhead from_pat to_pat DEFAULT_MAX_STEPS

/-! ### Routes -/

/-- A call-family or dataflow edge leads from one node of the graph to another. -/
def Carries (view : GraphView) (x y : NodeId) : Prop :=
  ∃ edge ∈ view.edges, (edge.kind.is_call = true ∨ edge.kind = .DerivesFrom) ∧ edge.src = x ∧ edge.dst = y ∧
    x.index < view.node_count ∧ y.index < view.node_count

/-- The nodes of a walk along such edges. -/
structure Route (view : GraphView) (x y : NodeId) (nodes : List NodeId) : Prop where
  steps : nodes.IsChain (Carries view)
  starts : nodes.head? = some x
  ends : nodes.getLast? = some y

/-- Two different nodes of the graph that match the anchors and have these names. -/
structure Anchored (view : GraphView) (from_pat to_pat : SymbolPattern) (f t : String) (x y : NodeId) : Prop where
  distinct : x ≠ y
  source : x.index < view.node_count ∧ from_pat.matches_node (view.node x) = true ∧ (view.node x).fqn = f
  sink : y.index < view.node_count ∧ to_pat.matches_node (view.node y) = true ∧ (view.node y).fqn = t

/-- Nodes of these names match the anchors and are connected. -/
def Connected (view : GraphView) (from_pat to_pat : SymbolPattern) (f t : String) (x y : NodeId) : Prop :=
  Anchored view from_pat to_pat f t x y ∧ ∃ nodes, Route view x y nodes

/-- What the gate is for: the pairs of names connected at head and not at base, each
once and in order, with the names of a walk at head. -/
structure ExactGate (base head : GraphView) (from_pat to_pat : SymbolPattern) (added : List AddedPath) : Prop where
  listed : ∀ f t, (f, t) ∈ added.map AddedPath.pair ↔
    (∃ x y, Connected head from_pat to_pat f t x y) ∧ ¬ ∃ x y, Connected base from_pat to_pat f t x y
  ordered : added.Pairwise fun p q => p.cmp q = .lt
  via : ∀ p ∈ added, ∃ x y nodes, Anchored head from_pat to_pat p.from_fqn p.to_fqn x y ∧ Route head x y nodes ∧
    p.via = nodes.map fun n => (head.node n).fqn

/-- No two new connected pairs of head nodes have the same names. -/
def NamesTellPairs (base head : GraphView) (from_pat to_pat : SymbolPattern) : Prop :=
  ∀ f t x y x' y', Connected head from_pat to_pat f t x y → Connected head from_pat to_pat f t x' y' →
    (¬ ∃ x₀ y₀, Connected base from_pat to_pat f t x₀ y₀) → x = x' ∧ y = y'

section routes

variable {view : GraphView} {max_steps : Nat}

theorem reachability_filter_admits {edge : EdgeRecord} :
    reachability_filter.admits edge = true ↔ edge.kind.is_call = true ∨ edge.kind = .DerivesFrom := by
  rw [EdgeFilter.admits_iff]
  have hcondition : reachability_filter.condition.admits edge.condition = true := rfl
  have hconfidence : ¬ edge.confidence < reachability_filter.min_confidence :=
    Confidence.not_lt_Possible edge.confidence
  simp only [hcondition, hconfidence, not_false_eq_true, and_true]
  cases hkind : edge.kind <;> decide

theorem follows_iff_carries {x y : NodeId} :
    (reachability_walker max_steps).Follows view .Forward x y ↔ Carries view x y := by
  constructor
  · rintro ⟨er, her, hpeer, hrange⟩
    obtain ⟨hedge, horigin, hdst, hx, hadmits, _⟩ := GraphView.mem_neighbors.mp her
    exact ⟨er.edge, hedge, reachability_filter_admits.mp hadmits, horigin, hdst.symm.trans hpeer, hx, hrange⟩
  · rintro ⟨edge, hedge, hkind, hsrc, hdst, hx, hy⟩
    refine ⟨⟨edge, y⟩, GraphView.mem_neighbors.mpr ?_, rfl, hy⟩
    exact ⟨hedge, hsrc, hdst.symm, hx, reachability_filter_admits.mpr hkind, rfl⟩

theorem route_of_hops {x : NodeId} {hops : List EdgeRef}
    (h : (reachability_walker max_steps).Hops view .Forward x hops) :
    Route view x (PathWalker.arrives x hops) (x :: hops.map EdgeRef.peer) := by
  induction hops generalizing x with
  | nil => exact ⟨List.isChain_singleton x, rfl, rfl⟩
  | cons er rest ih =>
    obtain ⟨her, hrange, hrest⟩ := h
    obtain ⟨hsteps, _, hends⟩ := ih hrest
    refine ⟨List.isChain_cons_cons.mpr ⟨follows_iff_carries.mp ⟨er, her, rfl, hrange⟩, hsteps⟩, rfl, ?_⟩
    rw [List.map_cons, List.getLast?_cons_cons]
    exact hends

theorem walk_of_route {x y : NodeId} {nodes : List NodeId} (h : Route view x y nodes) :
    ∃ k, Walk (Carries view) k x y := by
  induction nodes generalizing x with
  | nil => cases h.starts
  | cons n rest ih =>
    obtain ⟨hsteps, hstarts, hends⟩ := h
    cases Option.some.inj hstarts
    cases rest with
    | nil =>
      cases Option.some.inj hends
      exact ⟨0, .refl n⟩
    | cons m rest =>
      obtain ⟨hstep, hrest⟩ := List.isChain_cons_cons.mp hsteps
      rw [List.getLast?_cons_cons] at hends
      obtain ⟨k, hwalk⟩ := ih ⟨hrest, rfl, hends⟩
      exact ⟨k + 1, .cons hstep hwalk⟩

/-- The walk the gate probes finds a pair exactly when some route connects it. -/
theorem reaches_iff_route {x y : NodeId} :
    (reaches view x y (reachability_walker max_steps)).reachable = true ↔ ∃ nodes, Route view x y nodes := by
  rw [reaches_reachable_iff]
  constructor
  · rintro ⟨k, _, hwalk⟩
    obtain ⟨hops, hhops, _, harrives⟩ := PathWalker.walk_iff_hops.mp hwalk
    exact ⟨_, harrives ▸ route_of_hops hhops⟩
  · rintro ⟨nodes, hroute⟩
    obtain ⟨k, hwalk⟩ := walk_of_route hroute
    exact ⟨k, rfl, hwalk.mono fun _ _ => follows_iff_carries.mpr⟩

theorem seq_to_walksteps_fqns (exc : Bool) (seq : List (NodeId × Option EdgeRecord)) :
    (seq_to_walksteps view exc seq).map (fun s => s.node.fqn) = seq.map fun p => (view.node p.1).fqn := by
  induction seq generalizing exc with
  | nil => rfl
  | cons p rest ih =>
    obtain ⟨node, via⟩ := p
    simp only [seq_to_walksteps, List.map_cons, ih]

/-- The names of a witness are those of a route. -/
theorem reaches_witness_route {x y : NodeId}
    (h : (reaches view x y (reachability_walker max_steps)).reachable = true) :
    ∃ nodes, Route view x y nodes ∧
      ((reaches view x y (reachability_walker max_steps)).witness.map fun w => w.steps.map fun s => s.node.fqn).getD []
        = nodes.map fun n => (view.node n).fqn := by
  have hspec : PathWalker.IsShortestPath (reachability_walker max_steps) view x y .Forward _ :=
    PathWalker.shortest_path_spec x y
  unfold reaches at h ⊢
  cases hpath : (reachability_walker max_steps).shortest_path view x y .Forward with
  | none => rw [hpath] at h; cases h
  | some path =>
    rw [hpath] at hspec
    obtain ⟨hops, hsequence, hhops, harrives, _⟩ := hspec
    refine ⟨_, harrives ▸ route_of_hops hhops, ?_⟩
    simp only [Option.map_some, Option.getD_some, build_path_result, seq_to_walksteps_fqns]
    rw [hsequence, PathWalker.sequence_of, List.map_cons, List.map_map, List.map_cons, List.map_map]
    rfl

end routes

section pairs

variable {view : GraphView} {from_pat to_pat : SymbolPattern} {max_steps : Nat}

/-- The pairs of nodes that are probed with success. -/
def node_pairs (view : GraphView) (from_pat to_pat : SymbolPattern) (max_steps : Nat) : List (NodeId × NodeId) :=
  ((matched_node_ids view from_pat).product (matched_node_ids view to_pat)).filter fun p =>
    p.1 ≠ p.2 && (reaches view p.1 p.2 (reachability_walker max_steps)).reachable

def row_of_pair (view : GraphView) (max_steps : Nat) (p : NodeId × NodeId) : AddedPath :=
  ⟨(view.node p.1).fqn, (view.node p.2).fqn,
    ((reaches view p.1 p.2 (reachability_walker max_steps)).witness.map fun w =>
      w.steps.map fun s => s.node.fqn).getD []⟩

theorem reachable_pairs_eq_map :
    reachable_pairs view from_pat to_pat max_steps =
      (node_pairs view from_pat to_pat max_steps).map (row_of_pair view max_steps) := by
  have hrow : ∀ (src : NodeId) (sinks : List NodeId), (sinks.filterMap fun dst =>
      if src = dst then none
      else
        let result := reaches view src dst (reachability_walker max_steps)
        if result.reachable then
          some (⟨(view.node src).fqn, (view.node dst).fqn,
            (result.witness.map fun w => w.steps.map fun s => s.node.fqn).getD []⟩ : AddedPath)
        else none) = ((sinks.map (Prod.mk src)).filter fun p =>
          p.1 ≠ p.2 && (reaches view p.1 p.2 (reachability_walker max_steps)).reachable).map
            (row_of_pair view max_steps) := by
    intro src sinks
    induction sinks with
    | nil => rfl
    | cons dst rest ih =>
      rw [List.filterMap_cons, ih, List.map_cons, List.filter_cons]
      by_cases heq : src = dst
      · simp [heq]
      · by_cases hreach : (reaches view src dst (reachability_walker max_steps)).reachable = true
        · simp [heq, hreach, row_of_pair]
        · simp [heq, hreach]
  unfold reachable_pairs node_pairs List.product
  simp only [hrow]
  rw [List.filter_flatMap, List.map_flatMap]

theorem mem_matched_node_ids {pat : SymbolPattern} {n : NodeId} :
    n ∈ matched_node_ids view pat ↔ n.index < view.node_count ∧ pat.matches_node (view.node n) = true :=
  GraphView.mem_resolve_symbol

theorem mem_node_pairs (max_steps : Nat) {p : NodeId × NodeId} {f t : String} :
    (p ∈ node_pairs view from_pat to_pat max_steps ∧ (row_of_pair view max_steps p).pair = (f, t)) ↔
      Connected view from_pat to_pat f t p.1 p.2 := by
  obtain ⟨x, y⟩ := p
  unfold node_pairs
  rw [List.mem_filter, List.pair_mem_product, mem_matched_node_ids, mem_matched_node_ids, Bool.and_eq_true,
    decide_eq_true_iff, reaches_iff_route, AddedPath.pair, row_of_pair, Prod.mk.injEq]
  constructor
  · rintro ⟨⟨⟨⟨hx, hfrom⟩, hy, hto⟩, hne, hroute⟩, hf, ht⟩
    exact ⟨⟨hne, ⟨hx, hfrom, hf⟩, hy, hto, ht⟩, hroute⟩
  · rintro ⟨⟨hne, ⟨hx, hfrom, hf⟩, hy, hto, ht⟩, hroute⟩
    exact ⟨⟨⟨⟨hx, hfrom⟩, hy, hto⟩, hne, hroute⟩, hf, ht⟩

theorem mem_pairs_iff (max_steps : Nat) {f t : String} :
    (f, t) ∈ (reachable_pairs view from_pat to_pat max_steps).map AddedPath.pair ↔
      ∃ x y, Connected view from_pat to_pat f t x y := by
  rw [reachable_pairs_eq_map, List.map_map, List.mem_map]
  constructor
  · rintro ⟨p, hp, hpair⟩
    exact ⟨p.1, p.2, (mem_node_pairs max_steps).mp ⟨hp, hpair⟩⟩
  · rintro ⟨x, y, hconnected⟩
    exact ⟨(x, y), (mem_node_pairs max_steps).mpr hconnected⟩

theorem matched_node_ids_nodup (pat : SymbolPattern) : (matched_node_ids view pat).Nodup :=
  view.node_ids_nodup.sublist (List.filter_sublist.map _)

theorem node_pairs_nodup : (node_pairs view from_pat to_pat max_steps).Nodup :=
  ((matched_node_ids_nodup from_pat).product (matched_node_ids_nodup to_pat)).filter _

/-- The new pairs of nodes. -/
def new_node_pairs (base head : GraphView) (from_pat to_pat : SymbolPattern) (max_steps : Nat) :
    List (NodeId × NodeId) :=
  (node_pairs head from_pat to_pat max_steps).filter fun p =>
    !((reachable_pairs base from_pat to_pat max_steps).map AddedPath.pair).contains (row_of_pair head max_steps p).pair

theorem mem_new_node_pairs {base head : GraphView} {p : NodeId × NodeId} {f t : String} :
    (p ∈ new_node_pairs base head from_pat to_pat max_steps ∧ (row_of_pair head max_steps p).pair = (f, t)) ↔
      Connected head from_pat to_pat f t p.1 p.2 ∧ ¬ ∃ x y, Connected base from_pat to_pat f t x y := by
  rw [← mem_node_pairs max_steps, ← mem_pairs_iff max_steps, new_node_pairs, List.mem_filter]
  constructor
  · rintro ⟨⟨hp, hnew⟩, hpair⟩
    rw [hpair] at hnew
    exact ⟨⟨hp, hpair⟩, by simpa using hnew⟩
  · rintro ⟨⟨hp, hpair⟩, hnew⟩
    refine ⟨⟨hp, ?_⟩, hpair⟩
    rw [hpair]
    simpa using hnew

end pairs

section path_diff_graphs

variable {base head : LinkedGraph} {hbase : DenseIds base} {hhead : DenseIds head} {from_pat to_pat : SymbolPattern}
  {max_steps : Nat}

/-- The new paths are the rows of the new pairs of nodes, in order. -/
theorem added_paths_eq :
    (path_diff_graphs_bounded base head hbase hhead from_pat to_pat max_steps).added_paths =
      sort_by AddedPath.cmp ((new_node_pairs (view_of base hbase) (view_of head hhead) from_pat to_pat max_steps).map
        (row_of_pair (view_of head hhead) max_steps)) := by
  have hrows : reachable_pairs (view_of head hhead) from_pat to_pat max_steps =
      (node_pairs (view_of head hhead) from_pat to_pat max_steps).map (row_of_pair (view_of head hhead) max_steps) :=
    reachable_pairs_eq_map
  unfold path_diff_graphs_bounded new_node_pairs
  simp only [hrows]
  rw [List.filter_map]
  rfl

instance : TransCmp AddedPath.cmp :=
  inferInstanceAs (TransCmp (compareLex (compareOn AddedPath.from_fqn) (compareOn AddedPath.to_fqn)))

theorem AddedPath.cmp_eq_eq {p q : AddedPath} : p.cmp q = .eq ↔ p.pair = q.pair := by
  rw [AddedPath.cmp, compareLex_eq_eq, AddedPath.pair, AddedPath.pair, Prod.mk.injEq]
  exact and_congr Std.compare_eq_iff_eq Std.compare_eq_iff_eq

/-- Sorted rows are in strict order exactly when their names differ. -/
theorem ordered_iff_nodup {l : List AddedPath} :
    (sort_by AddedPath.cmp l).Pairwise (fun p q => p.cmp q = .lt) ↔ (l.map AddedPath.pair).Nodup := by
  have hperm : ((sort_by AddedPath.cmp l).map AddedPath.pair).Perm (l.map AddedPath.pair) :=
    (perm_sort_by l).map AddedPath.pair
  rw [← hperm.nodup_iff, List.Nodup, List.pairwise_map]
  constructor
  · intro hlt
    refine hlt.imp fun {p q} hpq hpair => ?_
    rw [AddedPath.cmp_eq_eq.mpr hpair] at hpq
    cases hpq
  · intro hne
    refine ((pairwise_sort_by l).and hne).imp fun {p q} hpq => ?_
    obtain ⟨hle, hpair⟩ := hpq
    cases hcmp : p.cmp q with
    | lt => rfl
    | eq => exact absurd (AddedPath.cmp_eq_eq.mp hcmp) hpair
    | gt =>
      rw [hcmp] at hle
      cases hle

theorem listed_added (f t : String) :
    (f, t) ∈ (path_diff_graphs_bounded base head hbase hhead from_pat to_pat max_steps).added_paths.map AddedPath.pair ↔
      (∃ x y, Connected (view_of head hhead) from_pat to_pat f t x y) ∧
        ¬ ∃ x y, Connected (view_of base hbase) from_pat to_pat f t x y := by
  have hperm : ∀ l, ((sort_by AddedPath.cmp l).map AddedPath.pair).Perm (l.map AddedPath.pair) := fun l =>
    (perm_sort_by l).map AddedPath.pair
  rw [added_paths_eq, (hperm _).mem_iff, List.map_map, List.mem_map]
  constructor
  · rintro ⟨p, hp, hpair⟩
    obtain ⟨hconnected, hnew⟩ := mem_new_node_pairs.mp ⟨hp, hpair⟩
    exact ⟨⟨p.1, p.2, hconnected⟩, hnew⟩
  · rintro ⟨⟨x, y, hconnected⟩, hnew⟩
    exact ⟨(x, y), mem_new_node_pairs.mpr ⟨hconnected, hnew⟩⟩

theorem via_added {p : AddedPath}
    (h : p ∈ (path_diff_graphs_bounded base head hbase hhead from_pat to_pat max_steps).added_paths) :
    ∃ x y nodes, Anchored (view_of head hhead) from_pat to_pat p.from_fqn p.to_fqn x y ∧
      Route (view_of head hhead) x y nodes ∧ p.via = nodes.map fun n => ((view_of head hhead).node n).fqn := by
  rw [added_paths_eq, mem_sort_by, List.mem_map] at h
  obtain ⟨⟨x, y⟩, hp, rfl⟩ := h
  obtain ⟨⟨hanchored, hroute⟩, _⟩ := mem_new_node_pairs.mp ⟨hp, rfl⟩
  obtain ⟨nodes, hnodes, hvia⟩ := reaches_witness_route (reaches_iff_route.mpr hroute)
  exact ⟨x, y, nodes, hanchored, hnodes, hvia⟩

end path_diff_graphs

/-- The gate lists exactly the newly connected pairs of names, in order and with real
routes; it lists each once exactly when no two newly connected pairs of head nodes have
the same names. -/
theorem path_gate_exact_iff (base head : LinkedGraph) (hbase : DenseIds base) (hhead : DenseIds head)
    (from_pat to_pat : SymbolPattern) :
    ExactGate (view_of base hbase) (view_of head hhead) from_pat to_pat
        (path_diff_graphs base head hbase hhead from_pat to_pat).added_paths ↔
      NamesTellPairs (view_of base hbase) (view_of head hhead) from_pat to_pat := by
  have hordered : ((path_diff_graphs base head hbase hhead from_pat to_pat).added_paths.Pairwise
      fun p q => p.cmp q = .lt) ↔ NamesTellPairs (view_of base hbase) (view_of head hhead) from_pat to_pat := by
    rw [path_diff_graphs, added_paths_eq, ordered_iff_nodup, List.map_map]
    constructor
    · intro hnodup f t x y x' y' hxy hxy' hnew
      obtain ⟨hp, hpair⟩ := (mem_new_node_pairs (p := (x, y))).mpr ⟨hxy, hnew⟩
      obtain ⟨hp', hpair'⟩ := (mem_new_node_pairs (p := (x', y'))).mpr ⟨hxy', hnew⟩
      have heq := List.inj_on_of_nodup_map hnodup hp hp' (hpair.trans hpair'.symm)
      exact Prod.mk.inj heq
    · intro htell
      refine List.Nodup.map_on (fun p hp q hq hpair => ?_) (node_pairs_nodup.filter _)
      obtain ⟨hconnected, hnew⟩ := mem_new_node_pairs.mp ⟨hp, rfl⟩
      obtain ⟨hconnected', _⟩ := mem_new_node_pairs.mp ⟨hq, hpair.symm⟩
      obtain ⟨hsrc, hdst⟩ := htell _ _ _ _ _ _ hconnected hconnected' hnew
      exact Prod.ext hsrc hdst
  exact ⟨fun h => hordered.mp h.ordered, fun htell => ⟨listed_added, hordered.mpr htell, fun _ => via_added⟩⟩

/-- `a` calls `b`. -/
def one_call : LinkedGraph where
  nodes := [function_node 0 "a", function_node 1 "b"]
  edges := [certain_edge 0 .Calls 0 1]
  candidates := []

theorem path_gate_exact_iff_one_call :
    ExactGate (view_of .empty (by decide)) (view_of one_call (by decide)) ⟨.Fqn, "a"⟩ ⟨.Fqn, "b"⟩
        (path_diff_graphs .empty one_call (by decide) (by decide) ⟨.Fqn, "a"⟩ ⟨.Fqn, "b"⟩).added_paths ∧
      (path_diff_graphs .empty one_call (by decide) (by decide) ⟨.Fqn, "a"⟩ ⟨.Fqn, "b"⟩).added_paths =
        [⟨"a", "b", ["a", "b"]⟩] := by
  refine ⟨(path_gate_exact_iff .empty one_call (by decide) (by decide) ⟨.Fqn, "a"⟩ ⟨.Fqn, "b"⟩).mpr ?_, by decide +kernel⟩
  have hrange : ∀ n : NodeId, n.index < 2 → n = ⟨0⟩ ∨ n = ⟨1⟩ := by
    intro n hn
    obtain hzero | hone : n.index = 0 ∨ n.index = 1 := by omega
    · exact .inl (NodeId.ext_index hzero)
    · exact .inr (NodeId.ext_index hone)
  have hsource : ∀ n : NodeId, n.index < 2 → SymbolPattern.matches_node ⟨.Fqn, "a"⟩
      ((view_of one_call (by decide)).node n) = true → n = ⟨0⟩ := by
    intro n hn hmatch
    obtain rfl | rfl := hrange n hn
    · rfl
    · exact absurd hmatch (by decide)
  have hsink : ∀ n : NodeId, n.index < 2 → SymbolPattern.matches_node ⟨.Fqn, "b"⟩
      ((view_of one_call (by decide)).node n) = true → n = ⟨1⟩ := by
    intro n hn hmatch
    obtain rfl | rfl := hrange n hn
    · exact absurd hmatch (by decide)
    · rfl
  intro f t x y x' y' hxy hxy' _
  rw [hsource x hxy.1.source.1 hxy.1.source.2.1, hsource x' hxy'.1.source.1 hxy'.1.source.2.1,
    hsink y hxy.1.sink.1 hxy.1.sink.2.1, hsink y' hxy'.1.sink.1 hxy'.1.sink.2.1]
  exact ⟨rfl, rfl⟩

/-- `a` calls two symbols named `b`. -/
def twin_sinks : LinkedGraph where
  nodes := [function_node 0 "a", function_node 1 "b", function_node 2 "b"]
  edges := [certain_edge 0 .Calls 0 1, certain_edge 1 .Calls 0 2]
  candidates := []

/-- The pair is listed for either sink. -/
theorem path_gate_repeats_a_pair :
    (path_diff_graphs .empty twin_sinks (by decide) (by decide) ⟨.Fqn, "a"⟩ ⟨.Fqn, "b"⟩).added_paths =
        [⟨"a", "b", ["a", "b"]⟩, ⟨"a", "b", ["a", "b"]⟩] ∧
      ¬ ExactGate (view_of .empty (by decide)) (view_of twin_sinks (by decide)) ⟨.Fqn, "a"⟩ ⟨.Fqn, "b"⟩
        (path_diff_graphs .empty twin_sinks (by decide) (by decide) ⟨.Fqn, "a"⟩ ⟨.Fqn, "b"⟩).added_paths := by
  have hadded : (path_diff_graphs .empty twin_sinks (by decide) (by decide) ⟨.Fqn, "a"⟩ ⟨.Fqn, "b"⟩).added_paths =
      [⟨"a", "b", ["a", "b"]⟩, ⟨"a", "b", ["a", "b"]⟩] := by
    decide +kernel
  refine ⟨hadded, fun hgate => ?_⟩
  have hordered := hgate.ordered
  rw [hadded] at hordered
  revert hordered
  decide

end cgx.diff
