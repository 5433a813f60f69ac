import Cgx.Resolve.Dangling
import Cgx.Resolve.Sites

open cgx.core cgx.frontend sorting

namespace cgx.resolve

/-! ### The map of the final sort -/

theorem getElem?_foldl_set_of_not_mem {β : Type} {pairs : List (Nat × β)} {l : List β} {k : Nat}
    (h : ∀ pair ∈ pairs, pair.1 ≠ k) : (pairs.foldl (fun l pair => l.set pair.1 pair.2) l)[k]? = l[k]? := by
  induction pairs generalizing l with
  | nil => rfl
  | cons pair rest ih =>
    rw [List.foldl_cons, ih fun p hp => h p (List.mem_cons_of_mem pair hp)]
    exact List.getElem?_set_ne (h pair List.mem_cons_self)

/-- Writes at distinct places all stay. -/
theorem getElem?_foldl_set {β : Type} {pairs : List (Nat × β)} {l : List β}
    (hdistinct : pairs.Pairwise fun a b => a.1 ≠ b.1) {k : Nat} {v : β} (hmem : (k, v) ∈ pairs)
    (hk : k < l.length) : (pairs.foldl (fun l pair => l.set pair.1 pair.2) l)[k]? = some v := by
  induction pairs generalizing l with
  | nil => cases hmem
  | cons pair rest ih =>
    obtain ⟨hhead, hrest⟩ := List.pairwise_cons.mp hdistinct
    rw [List.foldl_cons]
    cases List.mem_cons.mp hmem with
    | inl heq =>
      subst heq
      rw [getElem?_foldl_set_of_not_mem fun p hp => (hhead p hp).symm]
      exact List.getElem?_set_self hk
    | inr hlater => exact ih hrest hlater (by rwa [List.length_set])

/-- The map sends the old id of a moved node to its new place. -/
theorem remapped_remap_of {moved : List NodeWithProvenance}
    (hdistinct : moved.Pairwise fun a b => a.node.id ≠ b.node.id)
    (hbound : ∀ n ∈ moved, n.node.id.index < moved.length) {q : Nat} {n : NodeWithProvenance}
    (h : moved[q]? = some n) : remapped (remap_of moved) n.node.id = .ofIndex q := by
  have hfold : remap_of moved =
      (moved.zipIdx.map fun n => (n.1.node.id.index, NodeId.ofIndex n.2)).foldl
        (fun l pair => l.set pair.1 pair.2) (List.replicate moved.length ⟨0⟩) := by
    rw [List.foldl_map]
    rfl
  have hpairs : (moved.zipIdx.map fun n => (n.1.node.id.index, NodeId.ofIndex n.2)).Pairwise
      fun a b => a.1 ≠ b.1 := by
    have hfst : (moved.zipIdx.map Prod.fst).Pairwise fun a b => a.node.id ≠ b.node.id := by
      rwa [List.zipIdx_map_fst]
    apply List.pairwise_map.mpr
    apply (List.pairwise_map.mp hfst).imp
    intro a b hne heq
    exact hne (NodeId.ext_index heq)
  have hmem : (n.node.id.index, NodeId.ofIndex q) ∈
      moved.zipIdx.map fun n => (n.1.node.id.index, NodeId.ofIndex n.2) :=
    List.mem_map.mpr ⟨(n, q), List.mem_zipIdx_iff_getElem?.mpr h, rfl⟩
  have hk : n.node.id.index < (List.replicate moved.length (⟨0⟩ : NodeId)).length := by
    rw [List.length_replicate]
    exact hbound n (List.mem_of_getElem? h)
  have hget := getElem?_foldl_set hpairs hmem hk
  rw [← hfold] at hget
  rw [remapped, List.getElem!_eq_getElem?_getD, hget]
  rfl

/-! ### The ids of the linked graph -/

section

variable (inputs : List FileInput) (opts : LinkOpts)

/-- The nodes of a link before the final sort. -/
def staged_nodes : List NodeWithProvenance :=
  build_nodes inputs ++ link_values inputs opts

/-- The id that the final sort gives to the node of a staged id. -/
def linked_id (id : NodeId) : NodeId :=
  if is_sorted node_order (staged_nodes inputs opts) then id
  else remapped (remap_of (sort_by node_order (staged_nodes inputs opts))) id

def linked_edge (e : EdgeWithProvenance) : EdgeWithProvenance :=
  { e with edge := { e.edge with src := linked_id inputs opts e.edge.src, dst := linked_id inputs opts e.edge.dst } }

/-- The edges of a link before the final sort. -/
def staged_edges (env : LinkEnv) : List EdgeWithProvenance :=
  (link_refs env inputs opts).edges ++
    (inputs.flatMap fun file =>
      file.facts.impl_relations.filterMap (resolve_impl_relation (build_nodes inputs) (symbol_table inputs) file)) ++
    link_dataflow_edges env inputs opts

end

variable {env : LinkEnv} {inputs : List FileInput} {opts : LinkOpts}

/-- The final sort renumbers the edges, the candidates and the counters alike. -/
theorem sort_nodes_canonical_eq {g : Numbered} (h : g.nodes = staged_nodes inputs opts) :
    (sort_nodes_canonical g).edges = g.edges.map (linked_edge inputs opts) ∧
      (sort_nodes_canonical g).candidates =
        g.candidates.map (fun c => { c with dst := linked_id inputs opts c.dst }) ∧
      (sort_nodes_canonical g).narrowing = g.narrowing.map fun row => (linked_id inputs opts row.1, row.2) := by
  by_cases hsorted : is_sorted node_order (staged_nodes inputs opts) = true
  · have hid : ∀ id, linked_id inputs opts id = id := fun id => if_pos hsorted
    have hedge : linked_edge inputs opts = id := by
      funext e
      simp only [linked_edge, hid, id_eq]
    rw [sort_nodes_canonical, h, if_pos hsorted, hedge]
    simp [hid]
  · have hid : linked_id inputs opts = remapped (remap_of (sort_by node_order (staged_nodes inputs opts))) :=
      funext fun id => if_neg hsorted
    have hedge : linked_edge inputs opts =
        remap_edge (remap_of (sort_by node_order (staged_nodes inputs opts))) := by
      funext e
      rw [linked_edge, hid]
      rfl
    rw [sort_nodes_canonical, h, if_neg hsorted, hedge, hid]
    exact ⟨rfl, rfl, rfl⟩

/-- The edges of the linked graph, up to the numbers that canonical order assigns. -/
theorem exists_edge_link {p : EdgeWithProvenance → Prop} (hp : ∀ e, p (stem e) ↔ p e) :
    (∃ e ∈ (link env inputs opts).edges, p e) ↔
      ∃ e ∈ staged_edges inputs opts env, p (linked_edge inputs opts e) := by
  rw [link, finalize, exists_edge_canonicalize hp, (sort_nodes_canonical_eq rfl).1]
  simp only [List.mem_map, exists_exists_and_eq_and]
  rfl

theorem staged_node_id {p : Nat} {n : NodeWithProvenance} (h : (staged_nodes inputs opts)[p]? = some n) :
    n.node.id = .ofIndex p := by
  rw [staged_nodes, ← assign_ids_link_nodes, assign_ids, List.getElem?_mapIdx] at h
  obtain ⟨_, _, rfl⟩ := Option.map_eq_some_iff.mp h
  rfl

theorem assign_ids_placed :
    assign_ids ((placed inputs opts).map Prod.snd) =
      assign_ids (sort_by node_order (staged_nodes inputs opts)) := by
  rw [placed, map_snd_sort_by]
  apply assign_ids_sort_congr
  simp only [staged_nodes, List.map_append, List.map_map, build_nodes_eq, map_clear_id_assign_ids]
  rfl

/-- The ids of the linked nodes are their places. -/
theorem node_of_link {q : Nat} {n : NodeWithProvenance}
    (hnodes : (link env inputs opts).nodes.length ≤ 2 ^ 32) (h : (link env inputs opts).nodes[q]? = some n) :
    node_of (link env inputs opts).nodes (.ofIndex q) = some n := by
  obtain ⟨hq, hn⟩ := List.getElem?_eq_some_iff.mp h
  rw [node_of, List.find?_eq_some_iff_getElem]
  have hid : ∀ (j : Nat) (n : NodeWithProvenance), (link env inputs opts).nodes[j]? = some n →
      n.node.id = .ofIndex j := by
    intro j n hj
    obtain ⟨_, _, _, rfl⟩ := link_node_at hj
    rfl
  refine ⟨by simpa using hid q n h, q, hq, hn, ?_⟩
  intro j hj
  rw [Bool.not_eq_true', decide_eq_false_iff_not]
  intro heq
  have hjn := hid j _ (List.getElem?_eq_getElem (by omega))
  rw [heq] at hjn
  have hindex := congrArg NodeId.index hjn
  rw [NodeId.index_ofIndex (by omega), NodeId.index_ofIndex (by omega)] at hindex
  omega

/-- Every linked node is found under its id. -/
theorem node_of_mem_link (hnodes : (link env inputs opts).nodes.length ≤ 2 ^ 32) {n : NodeWithProvenance}
    (hn : n ∈ (link env inputs opts).nodes) : node_of (link env inputs opts).nodes n.node.id = some n := by
  obtain ⟨q, hq⟩ := List.mem_iff_getElem?.mp hn
  obtain ⟨_, _, _, rfl⟩ := link_node_at hq
  exact node_of_link hnodes hq

theorem staged_nodes_length (hnodes : (link env inputs opts).nodes.length ≤ 2 ^ 32) :
    (staged_nodes inputs opts).length ≤ 2 ^ 32 := by
  obtain ⟨narrowing, hlink⟩ := link_nodes env inputs opts
  rw [assign_ids_placed] at hlink
  rwa [hlink, List.length_map, assign_ids, List.length_mapIdx, length_sort_by] at hnodes

/-- The linked id of a staged node is its place in the final sort. -/
theorem linked_id_place (hlength : (staged_nodes inputs opts).length ≤ 2 ^ 32) {q : Nat}
    {n : NodeWithProvenance} (hq : (sort_by node_order (staged_nodes inputs opts))[q]? = some n) :
    linked_id inputs opts n.node.id = .ofIndex q := by
  rw [linked_id]
  split
  · rename_i hsorted
    rw [sort_by_eq_self (is_sorted_iff.mp hsorted)] at hq
    exact staged_node_id hq
  · refine remapped_remap_of ?_ ?_ hq
    · apply ((perm_sort_by _).pairwise_iff fun h => h.symm).mpr
      apply List.pairwise_iff_getElem.mpr
      intro i j hi hj hij heq
      rw [staged_node_id (List.getElem?_eq_getElem hi), staged_node_id (List.getElem?_eq_getElem hj)] at heq
      have hindex := congrArg NodeId.index heq
      rw [NodeId.index_ofIndex (by omega), NodeId.index_ofIndex (by omega)] at hindex
      omega
    · intro m hm
      obtain ⟨p, hp⟩ := List.mem_iff_getElem?.mp (mem_sort_by.mp hm)
      have hlt := (List.getElem?_eq_some_iff.mp hp).1
      rw [staged_node_id hp, NodeId.index_ofIndex (by omega), length_sort_by]
      exact hlt

/-- A staged node is found in the linked graph under its linked id, stamped. -/
theorem node_of_linked_id (hnodes : (link env inputs opts).nodes.length ≤ 2 ^ 32) {n : NodeWithProvenance}
    (hn : n ∈ staged_nodes inputs opts) :
    ∃ m narrowing, node_of (link env inputs opts).nodes (linked_id inputs opts n.node.id) = some m ∧
      m = stamp (link env inputs opts).unresolved narrowing
        { n with node := { n.node with id := linked_id inputs opts n.node.id } } := by
  obtain ⟨q, hq⟩ := List.mem_iff_getElem?.mp (mem_sort_by.mpr hn)
  have hplace := linked_id_place (staged_nodes_length hnodes) hq
  obtain ⟨narrowing, hlink⟩ := link_nodes env inputs opts
  rw [assign_ids_placed] at hlink
  have hat : (link env inputs opts).nodes[q]? = some (stamp (link env inputs opts).unresolved narrowing
      { n with node := { n.node with id := .ofIndex q } }) := by
    rw [hlink, List.getElem?_map, assign_ids, List.getElem?_mapIdx, hq]
    rfl
  rw [hplace]
  exact ⟨_, narrowing, node_of_link hnodes hat, rfl⟩

/-! ### The edges of the references -/

/-- How the link resolves the reference of a site. -/
def resolved (env : LinkEnv) (inputs : List FileInput) (opts : LinkOpts) (site : Site) : Resolution :=
  resolution (symbol_table inputs) opts (receivers env inputs opts)
    (collect_import_bindings site.file.facts.imports) site

/-- The edges of a resolution, up to the group they share. -/
def emitted (site : Site) (r : Resolution) : List EdgeWithProvenance :=
  (apply_resolution site r .new).edges

theorem emit_candidate_set_stems (site : Site) (hits : List DefEntry) (rule : String)
    (virtual_dispatch : Bool) (s : LinkState) :
    (emit_candidate_set site hits rule virtual_dispatch s).edges.map stem =
      s.edges.map stem ++ (emit_candidate_set site hits rule virtual_dispatch .new).edges.map stem := by
  simp only [emit_candidate_set, LinkState.new, List.map_append, List.map_map, List.nil_append]
  rfl

theorem apply_resolution_stems (site : Site) (r : Resolution) (s : LinkState) :
    (apply_resolution site r s).edges.map stem = s.edges.map stem ++ (emitted site r).map stem := by
  cases r with
  | Ignored | External | Unresolved => simp [apply_resolution, emitted, LinkState.new]
  | Bound | Indirect =>
    simp [apply_resolution, emitted, LinkState.push_edge, LinkState.new]
  | Typed hits rule virtual_dispatch =>
    rw [emitted, apply_resolution, apply_resolution, emit_candidate_set_stems]
    rfl
  | Candidates hits rule virtual_dispatch => exact emit_candidate_set_stems ..

theorem foldl_resolve_ref_stems (env : LinkEnv) (sites : List Site) (s : LinkState) :
    (sites.foldl (resolve_ref (symbol_table inputs) opts (receivers env inputs opts)) s).edges.map stem =
      s.edges.map stem ++ (sites.flatMap fun site => emitted site (resolved env inputs opts site)).map stem := by
  induction sites generalizing s with
  | nil => simp
  | cons site rest ih =>
    rw [List.foldl_cons, ih, resolve_ref, apply_resolution_stems, List.flatMap_cons, List.map_append,
      List.append_assoc]
    rfl

/-- The edges that the references leave, up to their groups: those of each resolution. -/
theorem exists_edge_link_refs {p : EdgeWithProvenance → Prop} (hp : ∀ e, p (stem e) ↔ p e) :
    (∃ e ∈ (link_refs env inputs opts).edges, p e) ↔
      ∃ site ∈ link_sites (build_nodes inputs) inputs, ∃ e ∈ emitted site (resolved env inputs opts site), p e := by
  have hstems : (link_refs env inputs opts).edges.map stem = _ :=
    foldl_resolve_ref_stems env (link_sites (build_nodes inputs) inputs) .new
  rw [exists_stem hp, hstems, LinkState.new, List.map_nil, List.nil_append,
    ← exists_stem hp]
  simp only [List.mem_flatMap]
  constructor
  · rintro ⟨e, ⟨site, hsite, he⟩, h⟩
    exact ⟨site, hsite, e, he, h⟩
  · rintro ⟨site, hsite, e, he, h⟩
    exact ⟨e, ⟨site, hsite, he⟩, h⟩

end cgx.resolve
