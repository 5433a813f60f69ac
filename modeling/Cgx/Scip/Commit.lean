import Cgx.Resolve.Origins
import Cgx.Scip.Relabel

open cgx.core cgx.resolve sorting

namespace cgx.scip

/-! ### Dense ids -/

/-- A node under another id. -/
def with_id (id : NodeId) (n : NodeWithProvenance) : NodeWithProvenance :=
  { n with node := { n.node with id := id } }

/-- The ids of the nodes are their places, and all of them fit. -/
structure Dense (nodes : List NodeWithProvenance) : Prop where
  ids : ∀ (i : Nat) (n : NodeWithProvenance), nodes[i]? = some n → n.node.id = .ofIndex i
  fits : nodes.length ≤ 2 ^ 32

theorem ofIndex_inj {i j : Nat} (hi : i < 2 ^ 32) (hj : j < 2 ^ 32)
    (h : NodeId.ofIndex i = NodeId.ofIndex j) : i = j := by
  have hindex := congrArg NodeId.index h
  rwa [NodeId.index_ofIndex hi, NodeId.index_ofIndex hj] at hindex

namespace Dense

variable {nodes : List NodeWithProvenance}

theorem lt (h : Dense nodes) {i : Nat} {n : NodeWithProvenance} (hi : nodes[i]? = some n) : i < 2 ^ 32 := by
  have hlt := (List.getElem?_eq_some_iff.mp hi).1
  have hfits := h.fits
  omega

theorem index (h : Dense nodes) {i : Nat} {n : NodeWithProvenance} (hi : nodes[i]? = some n) :
    n.node.id.index = i := by
  rw [h.ids i n hi]
  exact NodeId.index_ofIndex (h.lt hi)

theorem inj (h : Dense nodes) {i j : Nat} {n m : NodeWithProvenance} (hi : nodes[i]? = some n)
    (hj : nodes[j]? = some m) (hid : n.node.id = m.node.id) : i = j := by
  rw [← h.index hi, ← h.index hj, hid]

theorem distinct (h : Dense nodes) : nodes.Pairwise fun a b => a.node.id ≠ b.node.id := by
  rw [List.pairwise_iff_getElem]
  intro i j hi hj hij hid
  have heq := h.inj (List.getElem?_eq_getElem hi) (List.getElem?_eq_getElem hj) hid
  omega

theorem at_index (h : Dense nodes) {n : NodeWithProvenance} (hn : n ∈ nodes) :
    nodes[n.node.id.index]? = some n := by
  obtain ⟨i, hi⟩ := List.mem_iff_getElem?.mp hn
  rwa [h.index hi]

theorem eq_of_id (h : Dense nodes) {n m : NodeWithProvenance} (hn : n ∈ nodes) (hm : m ∈ nodes)
    (hid : n.node.id = m.node.id) : n = m := by
  have hat := h.at_index hn
  rw [hid, h.at_index hm] at hat
  exact (Option.some.inj hat).symm

end Dense

theorem dense_assign_ids {nodes : List NodeWithProvenance} (h : nodes.length ≤ 2 ^ 32) :
    Dense (assign_ids nodes) where
  ids := by
    intro i n hi
    rw [assign_ids, List.getElem?_mapIdx, Option.map_eq_some_iff] at hi
    obtain ⟨_, _, rfl⟩ := hi
    rfl
  fits := by rwa [assign_ids, List.length_mapIdx]

/-! ### The map of the commit -/

/-- In a list of distinct ids, the map of the commit finds the place of each node. -/
theorem commit_remap_at {moved : List NodeWithProvenance}
    (hdistinct : moved.Pairwise fun a b => a.node.id ≠ b.node.id) {q : Nat} {n : NodeWithProvenance}
    (hq : moved[q]? = some n) : commit_remap moved n.node.id = .ofIndex q := by
  rw [commit_remap]
  cases hfind : moved.zipIdx.reverse.find? fun p => p.1.node.id = n.node.id with
  | none =>
    have hnone := List.find?_eq_none.mp hfind (n, q)
      (List.mem_reverse.mpr (List.mem_zipIdx_iff_getElem?.mpr hq))
    simp at hnone
  | some p =>
    have hid : p.1.node.id = n.node.id := by simpa using List.find?_some hfind
    have hp := List.mem_zipIdx_iff_getElem?.mp (List.mem_reverse.mp (List.mem_of_find?_eq_some hfind))
    have hplace : p.2 = q := by
      obtain ⟨hlt, hget⟩ := List.getElem?_eq_some_iff.mp hp
      obtain ⟨hlt', hget'⟩ := List.getElem?_eq_some_iff.mp hq
      have hpairs := List.pairwise_iff_getElem.mp hdistinct
      by_contra hne
      cases Nat.lt_or_gt_of_ne hne with
      | inl hbelow =>
        apply hpairs p.2 q hlt hlt' hbelow
        rw [hget, hget', hid]
      | inr habove =>
        apply hpairs q p.2 hlt' hlt habove
        rw [hget, hget', hid]
    simp [hplace]

/-- Sorting dense nodes moves every node to one place, and the map follows it. -/
theorem Dense.commit {full : List NodeWithProvenance} (h : Dense full) {n : NodeWithProvenance}
    (hn : n ∈ full) :
    ∃ q : Nat, (sort_by node_order full)[q]? = some n ∧
      commit_remap (sort_by node_order full) n.node.id = .ofIndex q := by
  obtain ⟨q, hq⟩ := List.mem_iff_getElem?.mp (mem_sort_by.mpr hn)
  refine ⟨q, hq, commit_remap_at ?_ hq⟩
  exact (perm_sort_by full).symm.pairwise h.distinct fun hab => hab.symm

/-! ### What the pass mints -/

namespace ScipRelabel

variable (pass : ScipRelabel)

theorem external_node_length (m : Minted) (qname : String) :
    (pass.external_node m qname).2.new_nodes.length ≤ m.new_nodes.length + 1 := by
  rw [external_node]
  split
  · exact Nat.le_succ _
  · split
    · exact Nat.le_succ _
    · simp

theorem relabel_edge_length (m : Minted) (e : EdgeWithProvenance) :
    (pass.relabel_edge m e).new_nodes.length ≤ m.new_nodes.length + 1 := by
  rw [relabel_edge]
  split
  · split
    · rename_i symbol mapped _
      dsimp only
      split
      · exact Nat.le_succ _
      · exact pass.external_node_length _ mapped.qname
    · omega
  · omega

/-- At most one node is minted for each edge. -/
theorem foldl_relabel_edge_length (edges : List EdgeWithProvenance) (m : Minted) :
    (edges.foldl pass.relabel_edge m).new_nodes.length ≤ m.new_nodes.length + edges.length := by
  induction edges generalizing m with
  | nil => simp
  | cons e rest ih =>
    have hhead := pass.relabel_edge_length m e
    have htail := ih (pass.relabel_edge m e)
    rw [List.foldl_cons, List.length_cons]
    omega

theorem provisional_id_eq (idx : Nat) : pass.provisional_id idx = .ofIndex (pass.nodes.length + idx) := by
  rw [provisional_id, NodeId.ofIndex, UInt32.ofNat_add]

/-- The provisional ids continue the dense ids of the graph. -/
theorem dense_provisional {pass : ScipRelabel} (h : Dense pass.nodes) {m : Minted}
    (hfit : pass.nodes.length + m.new_nodes.length ≤ 2 ^ 32) :
    Dense (pass.nodes ++ provisional_nodes pass m) where
  ids := by
    intro i n hi
    by_cases hlt : i < pass.nodes.length
    · rw [List.getElem?_append_left hlt] at hi
      exact h.ids i n hi
    · rw [List.getElem?_append_right (by omega), provisional_nodes, List.getElem?_mapIdx,
        Option.map_eq_some_iff] at hi
      obtain ⟨rec, _, rfl⟩ := hi
      rw [provisional_id_eq, Nat.add_sub_cancel' (by omega)]
  fits := by simpa [provisional_nodes] using hfit

end ScipRelabel

/-! ### The outcome of the pass -/

section

variable (g : ResolvedGraph) (scip : ScipResolver) (opts : ScipRelabelOpts)

/-- The pass over a graph. -/
def pass_over : ScipRelabel :=
  ⟨g.nodes, scip, opts⟩

/-- What the walk over the edges collects. -/
def minted : Minted :=
  g.edges.foldl (pass_over g scip opts).relabel_edge .new

/-- The id under which a node of the walk is found in the result. -/
def placed_id (id : NodeId) : NodeId :=
  if (minted g scip opts).new_nodes = [] then id
  else commit_remap (sort_by node_order (g.nodes ++ provisional_nodes (pass_over g scip opts) (minted g scip opts))) id

/-- An edge of the walk under the ids of the result. -/
def placed_edge (e : EdgeWithProvenance) : EdgeWithProvenance :=
  renumber_edge (placed_id g scip opts) e

/-- The graph before the final canonicalization. -/
def ran : ResolvedGraph :=
  (run (pass_over g scip opts) g).1

def ran_dirty : Bool :=
  (run (pass_over g scip opts) g).2.dirty

end

variable {g : ResolvedGraph} {scip : ScipResolver} {opts : ScipRelabelOpts}

theorem placed_edge_of_no_nodes (h : (minted g scip opts).new_nodes = []) : placed_edge g scip opts = id := by
  funext e
  simp only [placed_edge, renumber_edge, placed_id, if_pos h]
  rfl

theorem placed_id_of_nodes (h : (minted g scip opts).new_nodes ≠ []) : placed_id g scip opts =
    commit_remap (sort_by node_order
      (g.nodes ++ provisional_nodes (pass_over g scip opts) (minted g scip opts))) := by
  funext id
  exact if_neg h

theorem placed_edge_of_nodes (h : (minted g scip opts).new_nodes ≠ []) : placed_edge g scip opts =
    renumber_edge (commit_remap (sort_by node_order
      (g.nodes ++ provisional_nodes (pass_over g scip opts) (minted g scip opts)))) := by
  funext e
  rw [placed_edge, placed_id_of_nodes h]

/-- What the pass leaves of the graph, before canonical order is restored. -/
theorem run_parts : (ran g scip opts).edges =
      g.edges.map (placed_edge g scip opts ∘ (pass_over g scip opts).relabeled) ++
        (minted g scip opts).new_edges.map (placed_edge g scip opts) ∧
    (ran g scip opts).candidates =
      g.candidates.map (fun c => { c with dst := placed_id g scip opts c.dst }) ∧
    (ran g scip opts).nodes = (if (minted g scip opts).new_nodes = [] then g.nodes
      else assign_ids (sort_by node_order
        (g.nodes ++ provisional_nodes (pass_over g scip opts) (minted g scip opts)))) ∧
    (ran_dirty g scip opts = ((minted g scip opts).dirty || (minted g scip opts).new_nodes ≠ [] ||
      (minted g scip opts).new_edges ≠ [])) := by
  have hminted : g.edges.foldl (pass_over g scip opts).relabel_edge .new = minted g scip opts := rfl
  simp only [ran, ran_dirty, run, hminted]
  by_cases hnodes : (minted g scip opts).new_nodes = []
  · by_cases hedges : (minted g scip opts).new_edges = []
    · simp [hnodes, hedges, placed_edge_of_no_nodes, placed_id]
    · simp [hnodes, hedges, placed_edge_of_no_nodes, placed_id]
  · by_cases hedges : (minted g scip opts).new_edges = []
    · simp [hnodes, hedges, placed_edge_of_nodes, placed_id_of_nodes, commit_new_nodes]
    · simp [hnodes, hedges, placed_edge_of_nodes, placed_id_of_nodes, commit_new_nodes]

/-! ### The nodes of the result -/

theorem nodes_relabel : (relabel g scip opts).1.nodes = (ran g scip opts).nodes := by
  rw [relabel, finish]
  change (if (ran_dirty g scip opts) = true then _ else _ : ResolvedGraph).nodes = _
  split
  · rfl
  · rfl

theorem minted_length : (minted g scip opts).new_nodes.length ≤ g.edges.length := by
  have h := (pass_over g scip opts).foldl_relabel_edge_length g.edges .new
  simpa [minted, Minted.new] using h

/-- A graph whose nodes, with all that may be minted, have dense ids. -/
structure Fits (g : ResolvedGraph) : Prop where
  dense : Dense g.nodes
  room : g.nodes.length + g.edges.length ≤ 2 ^ 32

/-- The nodes of the walk: those of the graph, then the minted ones. -/
def walked_nodes (g : ResolvedGraph) (scip : ScipResolver) (opts : ScipRelabelOpts) : List NodeWithProvenance :=
  g.nodes ++ provisional_nodes (pass_over g scip opts) (minted g scip opts)

theorem Fits.dense_walked (h : Fits g) : Dense (walked_nodes g scip opts) := by
  apply (pass_over g scip opts).dense_provisional h.dense
  have hlength := @minted_length g scip opts
  have hroom := h.room
  change g.nodes.length + _ ≤ _
  omega

theorem Fits.dense_relabel (h : Fits g) : Dense (relabel g scip opts).1.nodes := by
  rw [nodes_relabel, run_parts.2.2.1]
  split
  · exact h.dense
  · apply dense_assign_ids
    rw [length_sort_by]
    exact (@Fits.dense_walked g scip opts h).fits

/-- A node of the walk is found in the result under its placed id, otherwise unchanged. -/
theorem Fits.node_placed (h : Fits g) {n : NodeWithProvenance} (hn : n ∈ walked_nodes g scip opts) :
    with_id (placed_id g scip opts n.node.id) n ∈ (relabel g scip opts).1.nodes := by
  rw [nodes_relabel, run_parts.2.2.1]
  split
  · rename_i hnone
    have hmem : n ∈ g.nodes := by simpa [walked_nodes, provisional_nodes, hnone] using hn
    rw [placed_id, if_pos hnone]
    exact hmem
  · rename_i hsome
    obtain ⟨q, hq, hplace⟩ := h.dense_walked.commit hn
    rw [placed_id_of_nodes hsome]
    change with_id (commit_remap (sort_by node_order (walked_nodes g scip opts)) n.node.id) n ∈ _
    rw [hplace]
    apply List.mem_of_getElem? (i := q)
    change (assign_ids (sort_by node_order (walked_nodes g scip opts)))[q]? = _
    rw [assign_ids, List.getElem?_mapIdx, hq]
    rfl

/-! ### The edges of the result -/

/-- For each place of the result, the place its edge had before the final
canonicalization; dependency edges stand behind the edges of the graph. -/
def origins (g : ResolvedGraph) (scip : ScipResolver) (opts : ScipRelabelOpts) : List Nat :=
  if ran_dirty g scip opts then canonical_origins (retain_carried (ran g scip opts))
  else List.range (ran g scip opts).edges.length

/-- The edge `e'` of the result is what became of the edge `e` of the graph. -/
def Descends (g : ResolvedGraph) (scip : ScipResolver) (opts : ScipRelabelOpts)
    (e e' : EdgeWithProvenance) : Prop :=
  ∃ i j : Nat, g.edges[i]? = some e ∧ (origins g scip opts)[j]? = some i ∧
    (relabel g scip opts).1.edges[j]? = some e'

/-- The group of an edge of the walk in the result. -/
def placed_group (g : ResolvedGraph) (scip : ScipResolver) (opts : ScipRelabelOpts)
    (group : Option UInt32) : Option UInt32 :=
  if ran_dirty g scip opts then
    group.map (renumbered (canonical_numbering (retain_carried (ran g scip opts))))
  else group

theorem relabel_edges : (relabel g scip opts).1.edges =
    (if ran_dirty g scip opts then canonicalize (retain_carried (ran g scip opts))
      else ran g scip opts).edges :=
  rfl

/-- The edge at a place of the result is the one of the walk, up to its id and the number
of its group. -/
theorem relabel_edge_at {i j : Nat} (h : (origins g scip opts)[j]? = some i) :
    ∃ w, (ran g scip opts).edges[i]? = some w ∧ ∃ e' : EdgeWithProvenance,
      (relabel g scip opts).1.edges[j]? = some e' ∧ stem e' = stem w ∧
        e'.edge.candidate_group = placed_group g scip opts w.edge.candidate_group := by
  rw [origins] at h
  rw [relabel_edges]
  split at h
  · rename_i hdirty
    obtain ⟨w, hw, hat⟩ := canonicalize_edge_at h
    refine ⟨w, hw, number_at j (regroup (canonical_numbering (retain_carried (ran g scip opts))) w), ?_, rfl, ?_⟩
    · rw [if_pos hdirty]
      exact hat
    · rw [placed_group, if_pos hdirty]
      rfl
  · rename_i hclean
    obtain ⟨hlt, hget⟩ := List.getElem?_eq_some_iff.mp h
    rw [List.getElem_range] at hget
    subst hget
    rw [List.length_range] at hlt
    refine ⟨_, List.getElem?_eq_getElem hlt, (ran g scip opts).edges[j], ?_, rfl, ?_⟩
    · rw [if_neg hclean]
      exact List.getElem?_eq_getElem hlt
    · rw [placed_group, if_neg hclean]

theorem perm_origins :
    (origins g scip opts).Perm (List.range (ran g scip opts).edges.length) := by
  rw [origins]
  split
  · exact perm_canonical_origins (retain_carried (ran g scip opts))
  · exact List.Perm.refl _

theorem walk_edge_at {i : Nat} {e : EdgeWithProvenance} (h : g.edges[i]? = some e) :
    (ran g scip opts).edges[i]? =
      some (placed_edge g scip opts ((pass_over g scip opts).relabeled e)) := by
  have hlt := (List.getElem?_eq_some_iff.mp h).1
  rw [run_parts.1, List.getElem?_append_left (by simpa using hlt), List.getElem?_map, h]
  rfl

/-- What became of an edge, up to its id and the number of its group. -/
theorem Descends.spec {e e' : EdgeWithProvenance} (h : Descends g scip opts e e') :
    stem e' = stem (placed_edge g scip opts ((pass_over g scip opts).relabeled e)) ∧
      e'.edge.candidate_group =
        placed_group g scip opts ((pass_over g scip opts).relabeled e).edge.candidate_group := by
  obtain ⟨i, j, hi, hj, he'⟩ := h
  obtain ⟨w, hw, e'', he'', hstem, hgroup⟩ := relabel_edge_at hj
  rw [walk_edge_at hi] at hw
  cases hw
  rw [he'] at he''
  cases he''
  exact ⟨hstem, hgroup⟩

/-- Every edge of the graph became an edge of the result. -/
theorem exists_descends {e : EdgeWithProvenance} (h : e ∈ g.edges) : ∃ e', Descends g scip opts e e' := by
  obtain ⟨i, hi⟩ := List.mem_iff_getElem?.mp h
  have hlt : i < (ran g scip opts).edges.length :=
    (List.getElem?_eq_some_iff.mp (@walk_edge_at g scip opts i e hi)).1
  have hmem : i ∈ origins g scip opts := perm_origins.mem_iff.mpr (List.mem_range.mpr hlt)
  obtain ⟨j, hj⟩ := List.mem_iff_getElem?.mp hmem
  obtain ⟨_, _, e', he', _⟩ := relabel_edge_at hj
  exact ⟨e', i, j, hi, hj, he'⟩

end cgx.scip
