import Cgx.Index.Canonicalize
import Cgx.Scip.Minted

open cgx.core cgx.resolve cgx.store cgx.index sorting

namespace cgx.scip

/-! ### What the pass leaves of an edge -/

/-- One edge agrees with another on everything that a relabel has no business with. -/
structure Framed (e e' : EdgeWithProvenance) : Prop where
  id : e'.edge.id = e.edge.id
  src : e'.edge.src = e.edge.src
  kind : e'.edge.kind = e.edge.kind
  condition : e'.edge.condition = e.edge.condition
  stmt_index : e'.edge.stmt_index = e.edge.stmt_index
  cut_markers : e'.edge.cut_markers = e.edge.cut_markers
  site_id : e'.edge.site_id = e.edge.site_id
  span : e'.provenance.span = e.provenance.span
  confidence : e.edge.confidence ≤ e'.edge.confidence

theorem Framed.refl (e : EdgeWithProvenance) : Framed e e :=
  ⟨rfl, rfl, rfl, rfl, rfl, rfl, rfl, rfl, Nat.le_refl _⟩

theorem framed_raise (conf : Confidence) (e : EdgeWithProvenance) : Framed e (ScipRelabel.raise conf e) := by
  rw [ScipRelabel.raise]
  split
  · rename_i hlt
    exact ⟨rfl, rfl, rfl, rfl, rfl, rfl, rfl, rfl, Nat.le_of_lt hlt⟩
  · exact Framed.refl e

theorem Framed.bind_target {e e' : EdgeWithProvenance} (h : Framed e e') (target : Option NodeId) :
    Framed e (ScipRelabel.bind_target target e') := by
  cases target with
  | none => exact h
  | some target =>
    exact ⟨h.id, h.src, h.kind, h.condition, h.stmt_index, h.cut_markers, h.site_id, h.span, h.confidence⟩

theorem framed_relabeled (pass : ScipRelabel) (e : EdgeWithProvenance) : Framed e (pass.relabeled e) := by
  rw [ScipRelabel.relabeled]
  split
  · split
    · exact (framed_raise _ e).bind_target _
    · exact Framed.refl e
  · exact Framed.refl e

namespace ScipRelabel

variable {pass : ScipRelabel}

/-- A redirect means that the call is settled. -/
theorem settles_of_redirect {mapped : MappedSymbol} {conf : Confidence} {target : NodeId}
    (h : pass.redirect mapped conf = some target) :
    pass.Settles mapped conf ∧ ∃ n ∈ pass.nodes, n.node.id = target := by
  rw [redirect] at h
  split at h
  · rename_i hguard
    obtain ⟨hunique, htrusted, hlocal⟩ := hguard
    cases hscheme : pass.resolver.scheme with
    | ScipClang =>
      rw [hscheme] at h
      dsimp only at h
      split at h
      · rename_i hcertain
        obtain ⟨n, hn, hid, hstands⟩ := resolve_overload_node_stands hscheme h
        exact ⟨⟨hlocal, hunique, by simpa using htrusted, fun _ => hcertain, n, hn, hstands⟩, n, hn, hid⟩
      · cases h
    | RustAnalyzer =>
      rw [hscheme] at h
      obtain ⟨n, hn, hid, hfqn⟩ := node_by_fqn_eq_some h
      refine ⟨⟨hlocal, hunique, by simpa using htrusted, by simp [hscheme], n, hn, ?_⟩, n, hn, hid⟩
      rw [StandsFor, hscheme]
      exact hfqn
  · cases h

/-- A target is the edge's own or the one it is redirected to. -/
theorem relabeled_dst (e : EdgeWithProvenance) :
    (pass.relabeled e).edge.dst = e.edge.dst ∨ ∃ n ∈ pass.nodes, n.node.id = (pass.relabeled e).edge.dst := by
  by_cases hcall : e.edge.kind.is_call = true
  · cases hres : pass.resolution e.provenance.span with
    | none => exact .inl (by rw [relabeled_of_no_resolution fun _ => hres])
    | some r =>
      rw [relabeled_of_resolution hcall hres]
      cases hredirect : pass.redirect r.2 (pass.target_conf e.edge.kind r.1 r.2) with
      | none => exact .inl (raise_dst _ e)
      | some target => exact .inr (settles_of_redirect hredirect).2
  · exact .inl (by rw [relabeled_of_no_resolution fun h => absurd h hcall])

/-- A group is the edge's own or left. -/
theorem relabeled_group (e : EdgeWithProvenance) :
    (pass.relabeled e).edge.candidate_group = e.edge.candidate_group ∨
      (pass.relabeled e).edge.candidate_group = none := by
  by_cases hcall : e.edge.kind.is_call = true
  · cases hres : pass.resolution e.provenance.span with
    | none => exact .inl (by rw [relabeled_of_no_resolution fun _ => hres])
    | some r =>
      rw [relabeled_of_resolution hcall hres]
      cases pass.redirect r.2 (pass.target_conf e.edge.kind r.1 r.2) with
      | none => exact .inl (raise_group _ e)
      | some target => exact .inr rfl
  · exact .inl (by rw [relabeled_of_no_resolution fun h => absurd h hcall])

end ScipRelabel

variable {g : ResolvedGraph} {scip : ScipResolver} {opts : ScipRelabelOpts}

theorem ScipRelabel.moves_eq_false {pass : ScipRelabel} {e : EdgeWithProvenance} :
    pass.moves e = false ↔ (pass.relabeled e).edge.dst = e.edge.dst ∧
      (pass.relabeled e).edge.candidate_group = e.edge.candidate_group := by
  simp [moves]

/-! ### Renumbered nodes -/

/-- Different nodes of the walk stay different. -/
theorem Fits.placed_inj (h : Fits g) {n m : NodeWithProvenance} (hn : n ∈ walked_nodes g scip opts)
    (hm : m ∈ walked_nodes g scip opts)
    (heq : placed_id g scip opts n.node.id = placed_id g scip opts m.node.id) : n = m := by
  by_cases hnone : (minted g scip opts).new_nodes = []
  · rw [placed_id, if_pos hnone, placed_id, if_pos hnone] at heq
    exact h.dense_walked.eq_of_id hn hm heq
  · rw [placed_id_of_nodes hnone] at heq
    obtain ⟨q, hq, hplace⟩ := h.dense_walked.commit hn
    obtain ⟨q', hq', hplace'⟩ := h.dense_walked.commit hm
    have hsize : (sort_by node_order (walked_nodes g scip opts)).length ≤ 2 ^ 32 := by
      rw [length_sort_by]
      exact h.dense_walked.fits
    have hsame : q = q' := by
      apply ofIndex_inj
      · exact Nat.lt_of_lt_of_le (List.getElem?_eq_some_iff.mp hq).1 hsize
      · exact Nat.lt_of_lt_of_le (List.getElem?_eq_some_iff.mp hq').1 hsize
      · exact hplace.symm.trans (heq.trans hplace')
    subst hsame
    rw [hq] at hq'
    exact Option.some.inj hq'

/-- An id within the graph is the id of a node. -/
theorem Fits.exists_node (h : Fits g) {id : NodeId} (hid : id.index < g.nodes.length) :
    ∃ n ∈ g.nodes, n.node.id = id := by
  refine ⟨g.nodes[id.index], List.getElem_mem hid, ?_⟩
  have hat := h.dense.index (List.getElem?_eq_getElem hid)
  exact NodeId.ext_index hat

theorem Fits.placed_id_inj (h : Fits g) {id id' : NodeId} (hid : id.index < g.nodes.length)
    (hid' : id'.index < g.nodes.length) (heq : placed_id g scip opts id = placed_id g scip opts id') :
    id = id' := by
  obtain ⟨n, hn, rfl⟩ := h.exists_node hid
  obtain ⟨m, hm, rfl⟩ := h.exists_node hid'
  rw [h.placed_inj (Fits.walked_mem hn) (Fits.walked_mem hm) heq]

/-- The placed id of a node is an id of the result. -/
theorem Fits.placed_lt (h : Fits g) {n : NodeWithProvenance} (hn : n ∈ walked_nodes g scip opts) :
    (placed_id g scip opts n.node.id).index < (relabel g scip opts).1.nodes.length := by
  obtain ⟨i, hi⟩ := List.mem_iff_getElem?.mp (h.node_placed hn)
  have hindex := h.dense_relabel.index hi
  change (placed_id g scip opts n.node.id).index = i at hindex
  rw [hindex]
  exact (List.getElem?_eq_some_iff.mp hi).1

/-! ### Counting the calls of a site -/

theorem calls_at_eq_of_stems {l l' : List EdgeWithProvenance} (h : (l.map stem).Perm (l'.map stem))
    (src : NodeId) (span : Span) : calls_at l src span = calls_at l' src span := by
  have hstem : ∀ l : List EdgeWithProvenance, calls_at l src span = (l.map stem).countP (at_call src span) := by
    intro l
    rw [List.countP_map]
    rfl
  rw [hstem, hstem l', h.countP_eq]

theorem relabel_stems : ((relabel g scip opts).1.edges.map stem).Perm ((ran g scip opts).edges.map stem) := by
  rw [relabel_edges]
  split
  · exact perm_canonicalize_stems (retain_carried (ran g scip opts))
  · exact List.Perm.refl _

/-- The edges of a graph end at its nodes. -/
def EndsInside (g : ResolvedGraph) : Prop :=
  ∀ e ∈ g.edges, e.edge.src.index < g.nodes.length ∧ e.edge.dst.index < g.nodes.length

/-- A site keeps its calls, and gains one for each of them that is foreign. -/
theorem calls_at_relabel (h : Fits g) (hends : EndsInside g) {src : NodeId} (hsrc : src.index < g.nodes.length)
    (span : Span) : calls_at (relabel g scip opts).1.edges (placed_id g scip opts src) span =
      calls_at g.edges src span +
        g.edges.countP fun e => ((pass_over g scip opts).foreign e).isSome && at_call src span e := by
  have hplaced : ∀ {e}, e.edge.src.index < g.nodes.length →
      at_call (placed_id g scip opts src) span (placed_edge g scip opts e) = at_call src span e := by
    intro e he
    have hiff : placed_id g scip opts e.edge.src = placed_id g scip opts src ↔ e.edge.src = src :=
      ⟨h.placed_id_inj he hsrc, congrArg _⟩
    change decide (_ ∧ placed_id g scip opts e.edge.src = placed_id g scip opts src ∧ _) = _
    simp only [hiff]
    rfl
  rw [calls_at_eq_of_stems relabel_stems, run_parts.1, calls_at, List.countP_append, List.countP_map,
    List.countP_map, ← collected.count, calls_at, calls_at]
  congr 1
  · apply List.countP_congr
    intro e he
    have hframed := framed_relabeled (pass_over g scip opts) e
    rw [Function.comp_apply, Function.comp_apply, hplaced (by rw [hframed.src]; exact (hends e he).1)]
    simp only [at_call, hframed.kind, hframed.src, hframed.span]
  · apply List.countP_congr
    intro d hd
    obtain ⟨e, he, _, _, _, rfl, _⟩ := collected.deps d hd
    rw [Function.comp_apply, hplaced]
    exact (hends e he).1

/-! ### The canonical form of the result -/

/-- A graph that the store accepts, with room for what a pass may add. -/
structure Accepted (g : ResolvedGraph) : Prop where
  canonical : check_canonical (into_linked g) = .ok ()
  room : g.nodes.length + 2 * g.edges.length ≤ 2 ^ 32

theorem Accepted.form (h : Accepted g) : Canonical (into_linked g) :=
  canonical_of_check h.canonical

theorem Accepted.node_index (h : Accepted g) {i : Nat} {n : NodeWithProvenance} (hi : g.nodes[i]? = some n) :
    n.node.id.index = i := by
  apply h.form.node_ids i n.node
  rw [into_linked, List.getElem?_map, hi]
  rfl

theorem Accepted.fits (h : Accepted g) : Fits g where
  dense := by
    have hroom := h.room
    refine ⟨?_, by omega⟩
    intro i n hi
    apply NodeId.ext_index
    have hlt := (List.getElem?_eq_some_iff.mp hi).1
    rw [h.node_index hi, NodeId.index_ofIndex (by omega)]
  room := by
    have hroom := h.room
    omega

theorem Accepted.ends (h : Accepted g) : EndsInside g := by
  intro e he
  have hends := h.form.edge_ends e.edge (List.mem_map_of_mem he)
  simpa [into_linked] using hends

theorem Accepted.one_source (h : Accepted g) {e e' : EdgeWithProvenance} (he : e ∈ g.edges) (he' : e' ∈ g.edges)
    {gr : UInt32} (hgr : e.edge.candidate_group = some gr) (hgr' : e'.edge.candidate_group = some gr) :
    e.edge.src = e'.edge.src := by
  have hsrc := h.form.groups.source (List.mem_map_of_mem he) hgr
  rw [h.form.groups.source (List.mem_map_of_mem he') hgr'] at hsrc
  exact (Option.some.inj hsrc).symm

theorem nodes_sorted_ran (h : Accepted g) :
    (ran g scip opts).nodes.Pairwise fun a b => (node_order a b).isLE := by
  rw [run_parts.2.2.1]
  split
  · exact List.pairwise_map.mp h.form.nodes_sorted
  · have hsorted := @pairwise_sort_by _ node_order _
      (g.nodes ++ provisional_nodes (pass_over g scip opts) (minted g scip opts))
    rw [assign_ids, List.pairwise_iff_getElem]
    intro i j hi hj hij
    rw [List.getElem_mapIdx, List.getElem_mapIdx]
    rw [List.length_mapIdx] at hi hj
    exact List.pairwise_iff_getElem.mp hsorted i j hi hj hij

/-- An edge of the walk is a relabeled edge of the graph or a dependency edge. -/
theorem mem_ran_edges {w : EdgeWithProvenance} (hw : w ∈ (ran g scip opts).edges) :
    (∃ e ∈ g.edges, w = placed_edge g scip opts ((pass_over g scip opts).relabeled e)) ∨
      ∃ e ∈ g.edges, ∃ mapped dst, (pass_over g scip opts).foreign e = some mapped ∧
        w = placed_edge g scip opts (ScipRelabel.dep_edge e mapped dst) ∧
        ∃ n ∈ walked_nodes g scip opts, n.node.id = dst ∧ n.node.fqn = mapped.qname := by
  rw [run_parts.1, List.mem_append] at hw
  cases hw with
  | inl hold =>
    obtain ⟨e, he, rfl⟩ := List.mem_map.mp hold
    exact .inl ⟨e, he, rfl⟩
  | inr hnew =>
    obtain ⟨d, hd, rfl⟩ := List.mem_map.mp hnew
    obtain ⟨e, he, mapped, dst, hforeign, rfl, hnode⟩ := collected.deps d hd
    exact .inr ⟨e, he, mapped, dst, hforeign, rfl, hnode⟩

theorem new_edges_length : (minted g scip opts).new_edges.length ≤ g.edges.length := by
  have hstep : ∀ (m : Minted) (e : EdgeWithProvenance),
      ((pass_over g scip opts).relabel_edge m e).new_edges.length ≤ m.new_edges.length + 1 := by
    intro m e
    cases @ScipRelabel.relabel_edge_collects (pass_over g scip opts) m e with
    | inl hnone =>
      rw [hnone.2.1]
      exact Nat.le_succ _
    | inr hsome =>
      obtain ⟨_, _, hedges, _⟩ := hsome
      rw [hedges, List.length_append, List.length_singleton]
  have hrun : ∀ (edges : List EdgeWithProvenance) (m : Minted),
      (edges.foldl (pass_over g scip opts).relabel_edge m).new_edges.length ≤
        m.new_edges.length + edges.length := by
    intro edges
    induction edges with
    | nil => simp
    | cons e rest ih =>
      intro m
      have hhead := hstep m e
      have htail := ih ((pass_over g scip opts).relabel_edge m e)
      rw [List.foldl_cons, List.length_cons]
      omega
  simpa [minted, Minted.new] using hrun g.edges .new

theorem Accepted.placed_lt (h : Accepted g) {n : NodeWithProvenance} (hn : n ∈ walked_nodes g scip opts) :
    (placed_id g scip opts n.node.id).index < (ran g scip opts).nodes.length := by
  rw [← nodes_relabel]
  exact h.fits.placed_lt hn

theorem Accepted.placed_lt_of_lt (h : Accepted g) {id : NodeId} (hid : id.index < g.nodes.length) :
    (placed_id g scip opts id).index < (ran g scip opts).nodes.length := by
  obtain ⟨n, hn, rfl⟩ := h.fits.exists_node hid
  exact h.placed_lt (Fits.walked_mem hn)

theorem ends_inside_ran (h : Accepted g) : EndsInside (ran g scip opts) := by
  intro w hw
  cases mem_ran_edges hw with
  | inl hold =>
    obtain ⟨e, he, rfl⟩ := hold
    constructor
    · apply h.placed_lt_of_lt
      rw [(framed_relabeled (pass_over g scip opts) e).src]
      exact (h.ends e he).1
    · cases @ScipRelabel.relabeled_dst (pass_over g scip opts) e with
      | inl hown =>
        apply h.placed_lt_of_lt
        rw [hown]
        exact (h.ends e he).2
      | inr hredirected =>
        obtain ⟨n, hn, hid⟩ := hredirected
        have hlt := @Accepted.placed_lt g scip opts h n (Fits.walked_mem hn)
        rwa [hid] at hlt
  | inr hnew =>
    obtain ⟨e, he, mapped, dst, _, rfl, n, hn, rfl, _⟩ := hnew
    exact ⟨h.placed_lt_of_lt (h.ends e he).1, h.placed_lt hn⟩

/-- A carried group of the walk is one of the graph, with the same source. -/
theorem carried_ran {w : EdgeWithProvenance} (hw : w ∈ (ran g scip opts).edges) {gr : UInt32}
    (hgr : w.edge.candidate_group = some gr) :
    ∃ e ∈ g.edges, e.edge.candidate_group = some gr ∧ w.edge.src = placed_id g scip opts e.edge.src := by
  cases mem_ran_edges hw with
  | inl hold =>
    obtain ⟨e, he, rfl⟩ := hold
    have hsrc := congrArg (placed_id g scip opts) (framed_relabeled (pass_over g scip opts) e).src
    refine ⟨e, he, ?_, hsrc⟩
    cases @ScipRelabel.relabeled_group (pass_over g scip opts) e with
    | inl hown => rwa [← hown]
    | inr hleft =>
      change ((pass_over g scip opts).relabeled e).edge.candidate_group = some gr at hgr
      rw [hleft] at hgr
      cases hgr
  | inr hnew =>
    obtain ⟨e, he, mapped, dst, _, rfl, _⟩ := hnew
    cases hgr

theorem mem_retained {c : Candidate} : c ∈ (retain_carried (ran g scip opts)).candidates ↔
    (∃ row ∈ g.candidates, c = { row with dst := placed_id g scip opts row.dst }) ∧
      ∃ w ∈ (ran g scip opts).edges, w.edge.candidate_group = some c.candidate_group := by
  rw [retain_carried, List.mem_filter, run_parts.2.1, List.mem_map, List.contains_iff_mem, List.mem_filterMap]
  simp only [eq_comm]

/-- What the pass leaves, its orphaned rows dropped, can be brought into canonical form. -/
theorem groupable_ran (h : Accepted g) : Groupable (retain_carried (ran g scip opts)) := by
  refine ⟨?_, nodes_sorted_ran h, ends_inside_ran h, ?_, ?_, ?_⟩
  · intro i n hi
    change (ran g scip opts).nodes[i]? = some n at hi
    rw [← nodes_relabel] at hi
    exact h.fits.dense_relabel.index hi
  · intro w hw w' hw' gr hgr hgr'
    obtain ⟨e, he, hegr, hsrc⟩ := carried_ran hw hgr
    obtain ⟨e', he', hegr', hsrc'⟩ := carried_ran hw' hgr'
    rw [hsrc, hsrc', h.one_source he he' hegr hegr']
  · intro c hc
    obtain ⟨⟨row, hrow, rfl⟩, hcarried⟩ := mem_retained.mp hc
    refine ⟨h.placed_lt_of_lt ?_, hcarried⟩
    simpa [into_linked] using (h.form.candidate_ends row hrow).2
  · change (ran g scip opts).edges.length ≤ 2 ^ 32
    have hnew := @new_edges_length g scip opts
    have hroom := h.room
    rw [run_parts.1, List.length_append, List.length_map, List.length_map]
    omega

/-- A clean walk moves no edge, mints no node and adds no edge. -/
theorem clean_parts (hclean : ran_dirty g scip opts = false) :
    (minted g scip opts).new_nodes = [] ∧ (minted g scip opts).new_edges = [] ∧
      ∀ e ∈ g.edges, (pass_over g scip opts).moves e = false := by
  rw [run_parts.2.2.2, Bool.or_eq_false_iff, Bool.or_eq_false_iff] at hclean
  obtain ⟨⟨hdirty, hnodes⟩, hedges⟩ := hclean
  rw [minted, ScipRelabel.foldl_relabel_edge_dirty, Bool.or_eq_false_iff] at hdirty
  refine ⟨by simpa using hnodes, by simpa using hedges, ?_⟩
  intro e he
  simpa using List.any_eq_false.mp hdirty.2 e he

/-- The result of the pass is accepted by the store. -/
theorem check_relabel (h : Accepted g) :
    check_canonical (into_linked (relabel g scip opts).1) = .ok () := by
  change check_canonical (into_linked (if ran_dirty g scip opts then _ else ran g scip opts)) = _
  split
  · exact check_canonicalize (groupable_ran h)
  · rename_i hclean
    obtain ⟨hnodes, hedges, hmoves⟩ := clean_parts (by simpa using hclean)
    have hplaced : placed_id g scip opts = id := by
      funext id
      exact if_pos hnodes
    have hlinked : into_linked (ran g scip opts) =
        { into_linked g with
          edges := g.edges.map fun e => ((pass_over g scip opts).relabeled e).edge } := by
      rw [into_linked, run_parts.1, run_parts.2.1, run_parts.2.2.1, hedges, if_pos hnodes,
        placed_edge_of_no_nodes hnodes, hplaced]
      simp [into_linked, Function.comp_def]
    have hsame : ∀ e ∈ g.edges, SameForm e.edge ((pass_over g scip opts).relabeled e).edge := by
      intro e he
      have hframed := framed_relabeled (pass_over g scip opts) e
      obtain ⟨hdst, hgroup⟩ := ScipRelabel.moves_eq_false.mp (hmoves e he)
      exact ⟨hframed.id, hframed.src, hdst, hframed.kind, hframed.stmt_index, hgroup⟩
    have hcheck : check_edges (into_linked g).nodes.length 0 none []
          (g.edges.map fun e => ((pass_over g scip opts).relabeled e).edge) =
        check_edges (into_linked g).nodes.length 0 none [] (into_linked g).edges :=
      check_edges_congr (fun p (hp : p ∈ (none : Option EdgeWithProvenance)) => by cases hp) hsame
    rw [hlinked, check_canonical, hcheck]
    exact h.canonical

end cgx.scip
