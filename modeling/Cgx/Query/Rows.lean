import Cgx.Query.Engine
import Cgx.Query.Trails

open cgx.core walks sorting

namespace cgx.query

namespace PathWalker

section hops

variable {walker : PathWalker} {view : GraphView} {dir : Direction}

theorem Hops.append {x : NodeId} {hops rest : List EdgeRef} (h : walker.Hops view dir x hops)
    (hrest : walker.Hops view dir (arrives x hops) rest) : walker.Hops view dir x (hops ++ rest) := by
  induction hops generalizing x with
  | nil => exact hrest
  | cons er hops ih => exact ⟨h.1, h.2.1, ih h.2.2 hrest⟩

theorem arrives_append (x : NodeId) (hops rest : List EdgeRef) :
    arrives x (hops ++ rest) = arrives (arrives x hops) rest := by
  induction hops generalizing x with
  | nil => rfl
  | cons er hops ih => exact ih er.peer

/-- The hops that lead along a list of edges. -/
def push_hop (dir : Direction) (hops : List EdgeRef) (edge : EdgeRecord) : List EdgeRef :=
  hops ++ [⟨edge, dir.peer edge⟩]

/-- The frontier search that carries the hops it took. -/
def hops_search (walker : PathWalker) (view : GraphView) (start : NodeId) (dir : Direction) :
    List (Found NodeId EdgeRecord (List EdgeRef)) :=
  walker.frontier_search view start dir (push_hop dir) []

/-- The state a walk carries over a list of hops. -/
def carry_over {σ : Type} (advance : σ → EdgeRecord → σ) (carry : σ) (hops : List EdgeRef) : σ :=
  hops.foldl (fun carried er => advance carried er.edge) carry

/-- Whatever a frontier search carries, it takes the hops of `hops_search` and carries
its state over them. -/
theorem frontier_search_eq_map {σ : Type} (advance : σ → EdgeRecord → σ) (carry : σ) (start : NodeId) :
    walker.frontier_search view start dir advance carry =
      (walker.hops_search view start dir).map (Found.with_carry (carry_over advance carry)) := by
  have hadvance : ∀ hops edge, carry_over advance carry (push_hop dir hops edge) =
      advance (carry_over advance carry hops) edge := by
    intro hops edge
    rw [carry_over, push_hop, List.foldl_append]
    rfl
  exact search_with_carry hadvance (view.node_count + 1) [start] [⟨start, 0, []⟩]

/-- A discovery of the search carries hops of its own length from the start to its node,
the last of them along the edge it was entered through. -/
theorem hops_search_spec {start : NodeId} {f : Found NodeId EdgeRecord (List EdgeRef)}
    (hf : f ∈ walker.hops_search view start dir) :
    walker.Hops view dir start f.carry ∧ arrives start f.carry = f.node ∧ f.carry.length = f.depth ∧
      f.carry.getLast?.map EdgeRef.edge = some f.via := by
  have hstart : ∀ e ∈ [(⟨start, 0, []⟩ : Entry NodeId (List EdgeRef))],
      walker.Hops view dir start e.carry ∧ arrives start e.carry = e.node ∧ e.carry.length = e.depth := by
    intro e he
    rw [List.mem_singleton.mp he]
    exact ⟨trivial, rfl, rfl⟩
  have hstep : ∀ (e : Entry NodeId (List EdgeRef)) (y : NodeId) (via : EdgeRecord),
      (walker.Hops view dir start e.carry ∧ arrives start e.carry = e.node ∧ e.carry.length = e.depth) →
      within walker.limit (e.depth + 1) = true → (y, via) ∈ walker.nbrs view dir e.node →
      walker.Hops view dir start (push_hop dir e.carry via) ∧ arrives start (push_hop dir e.carry via) = y ∧
        (push_hop dir e.carry via).length = e.depth + 1 := by
    rintro e y via ⟨hhops, harrives, hlength⟩ _ hrow
    obtain ⟨her, hrange⟩ := mem_nbrs.mp hrow
    have hpeer : y = dir.peer via := (GraphView.mem_neighbors.mp her).2.2.1
    subst hpeer
    refine ⟨hhops.append ?_, ?_, ?_⟩
    · rw [harrives]
      exact ⟨her, hrange, trivial⟩
    · rw [push_hop, arrives_append]
      rfl
    · simp [push_hop, hlength]
  obtain ⟨⟨hhops, harrives, hlength⟩, _, _, e, _, _, _, _, hcarry⟩ := search_induction hstart hstep f hf
  refine ⟨hhops, harrives, hlength, ?_⟩
  rw [hcarry, push_hop, List.getLast?_concat]
  rfl

theorem hops_search_nodup (start : NodeId) : ((walker.hops_search view start dir).map Found.node).Nodup :=
  search_nodup

/-- What a frontier search carries to a discovery, looked up by its node. -/
theorem find_frontier_search {σ : Type} (advance : σ → EdgeRecord → σ) (carry : σ) {start : NodeId}
    {f : Found NodeId EdgeRecord (List EdgeRef)} (hf : f ∈ walker.hops_search view start dir) :
    (walker.frontier_search view start dir advance carry).find? (fun g => g.node = f.node) =
      some (f.with_carry (carry_over advance carry)) := by
  rw [frontier_search_eq_map, List.find?_map]
  have hfind : (walker.hops_search view start dir).find?
      ((fun g => decide (g.node = f.node)) ∘ Found.with_carry (carry_over advance carry)) = some f := by
    have hsome : ((walker.hops_search view start dir).find?
        ((fun g => decide (g.node = f.node)) ∘ Found.with_carry (carry_over advance carry))).isSome = true :=
      List.find?_isSome.mpr ⟨f, hf, decide_eq_true rfl⟩
    obtain ⟨g, hg⟩ := Option.isSome_iff_exists.mp hsome
    have hnode : decide (g.node = f.node) = true := by
      have hfound := List.find?_some hg
      exact hfound
    rw [hg, List.inj_on_of_nodup_map (hops_search_nodup start) (List.mem_of_find?_eq_some hg) hf
      (of_decide_eq_true hnode)]
  rw [hfind]
  rfl

/-- The discoveries of the breadth-first walk, in their order. -/
theorem bfs_eq_map (start : NodeId) :
    walker.bfs view start dir = sort_by discovered_cmp ((walker.hops_search view start dir).map fun f =>
      ⟨f.node, f.depth, f.via, carry_over advance_exceptional false f.carry⟩) := by
  rw [bfs, frontier_search_eq_map, List.map_map]
  rfl

/-- A discovery is as deep as the shortest hops to its node. -/
theorem hops_search_shortest {start : NodeId} {f : Found NodeId EdgeRecord (List EdgeRef)}
    (hf : f ∈ walker.hops_search view start dir) {hops : List EdgeRef}
    (hhops : walker.Hops view dir start hops) (harrives : arrives start hops = f.node) :
    f.depth ≤ hops.length := by
  have hd : (⟨f.node, f.depth, f.via, carry_over advance_exceptional false f.carry⟩ : Discovered) ∈
      walker.bfs view start dir := by
    rw [bfs_eq_map, mem_sort_by]
    exact List.mem_map_of_mem hf
  exact (bfs_shortest hd).2 hops.length (walk_iff_hops.mpr ⟨hops, hhops, rfl, harrives⟩)

/-- The node sequence of a list of hops, with the edge taken into each node. -/
def sequence_of (start : NodeId) (hops : List EdgeRef) : List (NodeId × Option EdgeRecord) :=
  (start, none) :: hops.map fun er => (er.peer, some er.edge)

theorem reconstruct_root {pred : NodeId → Option (NodeId × EdgeRecord)} {start : NodeId}
    (h : pred start = none) (fuel : Nat) (path : List (NodeId × Option EdgeRecord)) :
    reconstruct pred fuel start path = (start, none) :: path := by
  cases fuel with
  | zero => rfl
  | succ fuel => rw [reconstruct, h]

/-- Where the predecessors are those of a search, following them back from a discovery
gives the hops the search took to it. -/
theorem reconstruct_hops {start : NodeId} {pred : NodeId → Option (NodeId × EdgeRecord)}
    (hpred : ∀ f ∈ walker.hops_search view start dir, pred f.node = some (f.prev, f.via))
    (hroot : pred start = none) {fuel : Nat} {f : Found NodeId EdgeRecord (List EdgeRef)}
    (hf : f ∈ walker.hops_search view start dir) (hfuel : f.depth ≤ fuel)
    (path : List (NodeId × Option EdgeRecord)) :
    reconstruct pred fuel f.node path = sequence_of start f.carry ++ path := by
  induction fuel generalizing f path with
  | zero =>
    have hdepth := (search_sound hf).2.2.2.1
    omega
  | succ fuel ih =>
    obtain ⟨e, hentry, hprev, hdepth, hrow, hcarry⟩ := search_prev hf
    have hpeer : f.node = dir.peer f.via := (GraphView.mem_neighbors.mp (mem_nbrs.mp hrow).1).2.2.1
    have hsequence : sequence_of start f.carry = sequence_of start e.carry ++ [(f.node, some f.via)] := by
      rw [hcarry, push_hop, sequence_of, sequence_of, List.map_append, hpeer]
      rfl
    rw [reconstruct, hpred f hf, hsequence, List.append_assoc, ← hprev]
    obtain hstart | ⟨g, hg, hentry⟩ := hentry
    · rw [List.mem_singleton.mp hstart]
      exact reconstruct_root hroot fuel _
    · rw [← hentry] at hdepth ⊢
      exact ih hg (by simp only [Found.entry] at hdepth; omega) _

/-- What a shortest path answers: the node sequence of hops within the depth limit to
the goal, no more of them than any other hops to it, or that there are none. -/
def IsShortestPath (walker : PathWalker) (view : GraphView) (start goal : NodeId) (dir : Direction) :
    Option (List (NodeId × Option EdgeRecord)) → Prop
  | none => ∀ hops, walker.Hops view dir start hops → arrives start hops = goal →
      within walker.limit hops.length = false
  | some path => ∃ hops, path = sequence_of start hops ∧ walker.Hops view dir start hops ∧
      arrives start hops = goal ∧ within walker.limit hops.length = true ∧
      ∀ hops', walker.Hops view dir start hops' → arrives start hops' = goal → hops.length ≤ hops'.length

theorem hops_search_depth_le {start : NodeId} {f : Found NodeId EdgeRecord (List EdgeRef)}
    (hf : f ∈ walker.hops_search view start dir) : f.depth ≤ view.node_count := by
  refine Nat.le_trans (search_depth_le hf) ?_
  have hsub : (walker.hops_search view start dir).map Found.node ⊆ view.nodes.map NodeRecord.id := by
    intro n hn
    obtain ⟨g, hg, rfl⟩ := List.mem_map.mp hn
    exact GraphView.mem_node_ids.mpr (frontier_search_sound hg).2.2.2
  have hle := (List.subperm_of_subset (hops_search_nodup start) hsub).length_le
  rwa [List.length_map, List.length_map] at hle

theorem shortest_path_spec (start goal : NodeId) :
    IsShortestPath walker view start goal dir (walker.shortest_path view start goal dir) := by
  cases hpath : walker.shortest_path view start goal dir with
  | none =>
    intro hops hhops harrives
    by_contra hwithin
    have hreached : ReachedWithin (walker.Follows view dir) walker.limit start goal :=
      ⟨hops.length, by simpa using hwithin, walk_iff_hops.mpr ⟨hops, hhops, rfl, harrives⟩⟩
    have hsome := shortest_path_isSome.mpr hreached
    rw [hpath] at hsome
    cases hsome
  | some path =>
    unfold shortest_path at hpath
    split at hpath
    · rename_i heq
      refine ⟨[], (Option.some.inj hpath).symm, trivial, heq, ?_, fun _ _ _ => Nat.zero_le _⟩
      cases walker.limit <;> simp
    · rename_i hne
      dsimp only at hpath
      split at hpath
      · rename_i hany
        rw [frontier_search_eq_map, List.any_map, List.any_eq_true] at hany
        obtain ⟨f, hf, hgoal⟩ := hany
        have hnode : f.node = goal := of_decide_eq_true hgoal
        have hpred : ∀ g ∈ walker.hops_search view start dir,
            ((walker.frontier_search view start dir (fun _ _ => ()) ()).find? fun h => h.node = g.node).map
              (fun h => (h.prev, h.via)) = some (g.prev, g.via) := by
          intro g hg
          rw [find_frontier_search _ _ hg]
          rfl
        have hroot : ((walker.frontier_search view start dir (fun _ _ => ()) ()).find? fun h => h.node = start).map
            (fun h => (h.prev, h.via)) = none := by
          rw [Option.map_eq_none_iff, List.find?_eq_none]
          intro h hh
          simpa using (frontier_search_sound hh).2.2.1
        obtain ⟨hhops, harrives, hlength, _⟩ := hops_search_spec hf
        refine ⟨f.carry, ?_, hhops, harrives.trans hnode, ?_, fun hops' hhops' harrives' => ?_⟩
        · rw [← Option.some.inj hpath, ← hnode, reconstruct_hops hpred hroot hf (hops_search_depth_le hf),
            List.append_nil]
        · rw [hlength]
          exact (frontier_search_sound hf).2.1
        · rw [hlength]
          exact hops_search_shortest hf hhops' (harrives'.trans hnode.symm)
      · cases hpath

end hops

end PathWalker

open PathWalker

/-- The least of a list of confidences. -/
def IsWeakest (c : Confidence) (confidences : List Confidence) : Prop :=
  c ∈ confidences ∧ ∀ c' ∈ confidences, c ≤ c'

theorem foldl_weakest (confidences : List Confidence) (c : Confidence) :
    IsWeakest (confidences.foldl Confidence.weakest c) (c :: confidences) := by
  induction confidences generalizing c with
  | nil => exact ⟨List.mem_singleton_self c, fun c' hc' => by rw [List.mem_singleton.mp hc']; exact Nat.le_refl _⟩
  | cons d rest ih =>
    obtain ⟨hmem, hleast⟩ := ih (c.weakest d)
    have hboth : c.weakest d ≤ c ∧ c.weakest d ≤ d := by
      cases c <;> cases d <;> decide
    have hone : c.weakest d = c ∨ c.weakest d = d := by
      unfold Confidence.weakest
      split
      · exact .inl rfl
      · exact .inr rfl
    have hhead := hleast _ List.mem_cons_self
    rw [List.foldl_cons]
    refine ⟨?_, fun c' hc' => ?_⟩
    · obtain hmem | hmem := List.mem_cons.mp hmem
      · rw [hmem]
        obtain hone | hone := hone
        · rw [hone]
          exact List.mem_cons_self
        · rw [hone]
          exact List.mem_cons_of_mem _ List.mem_cons_self
      · exact List.mem_cons_of_mem _ (List.mem_cons_of_mem _ hmem)
    · obtain rfl | hc' := List.mem_cons.mp hc'
      · exact Nat.le_trans hhead hboth.1
      · obtain rfl | hc' := List.mem_cons.mp hc'
        · exact Nat.le_trans hhead hboth.2
        · exact hleast c' (List.mem_cons_of_mem _ hc')

/-- The weakest confidence carried over hops. -/
theorem carry_over_weakest (hops : List EdgeRef) (c : Confidence) :
    IsWeakest (carry_over (fun carried edge => carried.weakest edge.confidence) c hops)
      (c :: hops.map fun er => er.edge.confidence) := by
  have hfold := foldl_weakest (hops.map fun er => er.edge.confidence) c
  rwa [List.foldl_map] at hfold

/-- A walk of admitted edges that a neighbor row describes: of its depth, ending with
its edge at its node, as short as any, of its weakest confidence and flag. -/
structure WitnessedBy (view : GraphView) (anchor : NodeId) (walker : PathWalker) (dir : Direction)
    (row : NeighborResult) (hops : List EdgeRef) : Prop where
  follows : walker.Hops view dir anchor hops
  bounded : within walker.limit row.depth = true
  length : hops.length = row.depth
  arrives : arrives anchor hops = row.node.id
  via : hops.getLast?.map EdgeRef.edge = some row.via
  shortest : ∀ hops', walker.Hops view dir anchor hops' → PathWalker.arrives anchor hops' = row.node.id →
    row.depth ≤ hops'.length
  weakest : IsWeakest row.min_confidence_on_path (hops.map fun er => er.edge.confidence)
  transient : row.exception_transient = carry_over advance_exceptional false hops

/-- The rows of a neighbor answer: one for each other node a walk within the depth
limit leads to, each with its witness. -/
structure NeighborAnswer (view : GraphView) (anchor : NodeId) (walker : PathWalker) (dir : Direction)
    (rows : List NeighborResult) : Prop where
  witnessed : ∀ row ∈ rows, row.node = view.node row.node.id ∧ row.condition = row.via.condition ∧
    row.confidence = row.via.confidence ∧ ∃ hops, WitnessedBy view anchor walker dir row hops
  once : (rows.map fun row => row.node.id).Nodup
  covers : ∀ n, n ∈ rows.map (fun row => row.node.id) ↔ n ≠ anchor ∧ ∃ hops,
    walker.Hops view dir anchor hops ∧ PathWalker.arrives anchor hops = n ∧ within walker.limit hops.length = true

section neighbor_walk

variable {view : GraphView} {anchor : NodeId} {walker : PathWalker} {dir : Direction}

/-- The row of a discovery, both searches read off its hops. -/
def row_of (view : GraphView) (f : Found NodeId EdgeRecord (List EdgeRef)) : NeighborResult where
  node := view.node f.node
  depth := f.depth
  via := f.via
  condition := f.via.condition
  confidence := f.via.confidence
  min_confidence_on_path := carry_over (fun carried edge => carried.weakest edge.confidence) .Certain f.carry
  exception_transient := carry_over advance_exceptional false f.carry

theorem neighbor_walk_perm :
    (neighbor_walk view anchor walker dir).Perm ((walker.hops_search view anchor dir).map (row_of view)) := by
  unfold neighbor_walk
  refine (perm_sort_by _).trans ?_
  rw [bfs_eq_map]
  refine ((perm_sort_by _).map _).trans (List.Perm.of_eq ?_)
  rw [List.map_map]
  refine List.map_congr_left fun f hf => ?_
  have hweakest : weakest_confidence_to view anchor walker dir f.node =
      some (carry_over (fun carried edge => carried.weakest edge.confidence) .Certain f.carry) := by
    rw [weakest_confidence_to, find_frontier_search _ _ hf]
    rfl
  simp only [Function.comp_apply, hweakest, Option.getD_some, row_of]

theorem row_of_witnessed {f : Found NodeId EdgeRecord (List EdgeRef)}
    (hf : f ∈ walker.hops_search view anchor dir) :
    WitnessedBy view anchor walker dir (row_of view f) f.carry := by
  obtain ⟨hhops, harrives, hlength, hvia⟩ := hops_search_spec hf
  obtain ⟨_, hwithin, _, hrange⟩ := frontier_search_sound hf
  have hid : (view.node f.node).id = f.node := GraphView.node_id hrange
  refine ⟨hhops, hwithin, hlength, harrives.trans hid.symm, hvia, fun hops hfollows hends => ?_, ?_, rfl⟩
  · exact hops_search_shortest hf hfollows (hends.trans hid)
  · -- a discovery takes a hop, so the confidence the walk starts from is not below the least
    obtain ⟨hmem, hleast⟩ := carry_over_weakest f.carry .Certain
    refine ⟨?_, fun c hc => hleast c (List.mem_cons_of_mem _ hc)⟩
    obtain hcertain | hmem := List.mem_cons.mp hmem
    · obtain ⟨er, her, _⟩ := Option.map_eq_some_iff.mp hvia
      have hin := List.mem_map_of_mem (f := fun er : EdgeRef => er.edge.confidence) (List.mem_of_getLast? her)
      have hle := hleast _ (List.mem_cons_of_mem _ hin)
      rw [hcertain] at hle
      have hsame : er.edge.confidence = .Certain := by
        revert hle
        cases er.edge.confidence <;> decide
      rw [hsame] at hin
      have hrow : (row_of view f).min_confidence_on_path = .Certain := hcertain
      rw [hrow]
      exact hin
    · exact hmem

theorem neighbor_walk_answer : NeighborAnswer view anchor walker dir (neighbor_walk view anchor walker dir) where
  witnessed row hrow := by
    obtain ⟨f, hf, rfl⟩ := List.mem_map.mp (neighbor_walk_perm.mem_iff.mp hrow)
    have hid : (view.node f.node).id = f.node := GraphView.node_id (frontier_search_sound hf).2.2.2
    refine ⟨?_, rfl, rfl, f.carry, row_of_witnessed hf⟩
    show view.node f.node = view.node (view.node f.node).id
    rw [hid]
  once := by
    have hperm : ((neighbor_walk view anchor walker dir).map fun row => row.node.id).Perm
        (((walker.hops_search view anchor dir).map (row_of view)).map fun row => row.node.id) :=
      neighbor_walk_perm.map _
    rw [hperm.nodup_iff, List.map_map]
    rw [List.map_congr_left (g := Found.node) fun f hf => ?_]
    · exact hops_search_nodup anchor
    · exact GraphView.node_id (frontier_search_sound hf).2.2.2
  covers n := by
    rw [mem_neighbor_walk_iff]
    refine and_congr_right fun _ => ⟨fun h => ?_, fun h => ?_⟩
    · obtain ⟨k, hk, hwalk⟩ := h
      obtain ⟨hops, hhops, hlength, harrives⟩ := walk_iff_hops.mp hwalk
      exact ⟨hops, hhops, harrives, by rwa [hlength]⟩
    · obtain ⟨hops, hhops, harrives, hwithin⟩ := h
      exact ⟨hops.length, hwithin, walk_iff_hops.mpr ⟨hops, hhops, rfl, harrives⟩⟩

end neighbor_walk

/-- The rows of `callers` and `callees` are the nodes a walk within the depth limit
leads to, and every column of a row describes one and the same shortest walk. -/
theorem neighbor_rows_witnessed (view : GraphView) (anchor : NodeId) (walker : PathWalker) :
    NeighborAnswer view anchor walker .Backward (callers view anchor walker) ∧
      NeighborAnswer view anchor walker .Forward (callees view anchor walker) :=
  ⟨neighbor_walk_answer, neighbor_walk_answer⟩

end cgx.query
