import Cgx.Resolve.Graph

open cgx.core cgx.frontend sorting Std

namespace cgx.resolve

/-! ### Where a definition's node ends up -/

/-- A definition by its place in the input: the file's position and its own. -/
structure Origin where
  file_idx : Nat
  def_idx : Nat
deriving DecidableEq, Inhabited

/-- The definition that encloses a reference. -/
def Site.origin (site : Site) : Origin :=
  ⟨site.file_idx, site.file.facts.defs.findIdx fun d => d.fqn = site.caller.fqn⟩

/-- The staged node of every definition, with the definition it comes from. -/
def staged_origins (inputs : List FileInput) : List (Origin × NodeWithProvenance) :=
  (inputs.mapIdx fun i file =>
    file.facts.defs.mapIdx fun j d => ((⟨i, j⟩ : Origin), staged_node file d)).flatten

/-- The canonical node order, on nodes with a tag. -/
def tagged_order {τ : Type} (a b : τ × NodeWithProvenance) : Ordering :=
  node_order a.2 b.2

instance : TransCmp node_order :=
  trans_on node_cmp NodeWithProvenance.node

instance {τ : Type} : TransCmp (@tagged_order τ) :=
  trans_on node_order Prod.snd

/-- The definitions in the order of their symbol nodes. -/
def placed_symbols (inputs : List FileInput) : List (Origin × NodeWithProvenance) :=
  sort_by tagged_order (staged_origins inputs)

/-- The definitions in the order of the nodes of the linked graph. A value node comes
from no definition. -/
def placed (inputs : List FileInput) (opts : LinkOpts) : List (Option Origin × NodeWithProvenance) :=
  sort_by tagged_order
    ((placed_symbols inputs).map (fun t => (some t.1, t.2)) ++
      (link_values inputs opts).map fun v => (none, v))

/-- The definition whose node stands at position `p` of the linked graph. -/
def origin_at (inputs : List FileInput) (opts : LinkOpts) (p : Nat) : Option Origin :=
  (placed inputs opts)[p]?.bind Prod.fst

theorem map_snd_sort_by {τ : Type} (l : List (τ × NodeWithProvenance)) :
    (sort_by tagged_order l).map Prod.snd = sort_by node_order (l.map Prod.snd) :=
  map_sort_by Prod.snd (fun _ _ => rfl) l

theorem staged_origins_map_snd (inputs : List FileInput) :
    (staged_origins inputs).map Prod.snd =
      inputs.flatMap fun file => file.facts.defs.map (staged_node file) := by
  rw [staged_origins, List.map_flatten, List.flatMap]
  congr 1
  apply List.ext_getElem?
  intro i
  simp only [List.getElem?_map, List.getElem?_mapIdx, Option.map_map]
  congr 1
  funext file
  apply List.ext_getElem?
  intro j
  simp [Function.comp_def]

/-- The symbol nodes are the placed definitions, numbered. -/
theorem build_nodes_eq (inputs : List FileInput) :
    build_nodes inputs = assign_ids ((placed_symbols inputs).map Prod.snd) := by
  rw [placed_symbols, map_snd_sort_by, staged_origins_map_snd]
  rfl

theorem mem_staged_origins {inputs : List FileInput} {o : Origin} {n : NodeWithProvenance} :
    (o, n) ∈ staged_origins inputs ↔
      ∃ file d, inputs[o.file_idx]? = some file ∧ file.facts.defs[o.def_idx]? = some d ∧
        staged_node file d = n := by
  simp only [staged_origins, List.mem_flatten, List.mem_mapIdx]
  constructor
  · rintro ⟨_, ⟨i, hi, rfl⟩, hmem⟩
    obtain ⟨j, hj, heq⟩ := List.mem_mapIdx.mp hmem
    cases heq
    exact ⟨_, _, List.getElem?_eq_getElem hi, List.getElem?_eq_getElem hj, rfl⟩
  · rintro ⟨file, d, hfile, hd, rfl⟩
    obtain ⟨hi, rfl⟩ := List.getElem?_eq_some_iff.mp hfile
    obtain ⟨hj, rfl⟩ := List.getElem?_eq_some_iff.mp hd
    exact ⟨_, ⟨o.file_idx, hi, rfl⟩, List.mem_mapIdx.mpr ⟨o.def_idx, hj, rfl⟩⟩

/-- No two staged nodes come from one definition. -/
theorem staged_origins_distinct (inputs : List FileInput) :
    (staged_origins inputs).Pairwise fun a b => a.1 ≠ b.1 := by
  rw [staged_origins, List.pairwise_flatten]
  constructor
  · intro l hl
    obtain ⟨i, hi, rfl⟩ := List.mem_mapIdx.mp hl
    apply List.pairwise_iff_getElem.mpr
    intro j k hj hk hjk heq
    simp only [List.getElem_mapIdx, Origin.mk.injEq, true_and] at heq
    omega
  · apply List.pairwise_iff_getElem.mpr
    intro i k hi hk hik a ha b hb heq
    rw [List.getElem_mapIdx] at ha hb
    obtain ⟨j, hj, rfl⟩ := List.mem_mapIdx.mp ha
    obtain ⟨j', hj', rfl⟩ := List.mem_mapIdx.mp hb
    simp only [Origin.mk.injEq] at heq
    omega

/-- No two entries come from one definition. -/
def OriginsDistinct (l : List (Option Origin × NodeWithProvenance)) : Prop :=
  l.Pairwise fun a b => ∀ o, a.1 = some o → b.1 ≠ some o

theorem OriginsDistinct.perm {l l' : List (Option Origin × NodeWithProvenance)}
    (h : OriginsDistinct l) (hperm : l.Perm l') : OriginsDistinct l' := by
  apply (hperm.pairwise_iff _).mp h
  intro a b hab o hb ha
  exact hab o ha hb

theorem placed_distinct (inputs : List FileInput) (opts : LinkOpts) :
    OriginsDistinct (placed inputs opts) := by
  have hsymbols : (placed_symbols inputs).Pairwise fun a b => a.1 ≠ b.1 :=
    ((perm_sort_by _).pairwise_iff fun h => h.symm).mpr (staged_origins_distinct inputs)
  apply OriginsDistinct.perm _ (perm_sort_by _).symm
  apply List.pairwise_append.mpr
  refine ⟨?_, ?_, ?_⟩
  · apply List.pairwise_map.mpr
    apply hsymbols.imp
    intro a b hab o ha hb
    rw [Option.some.injEq] at ha hb
    exact hab (ha.trans hb.symm)
  · apply List.pairwise_map.mpr
    apply List.pairwise_of_forall
    intro a b o ha
    cases ha
  · intro a _ b hb o _ heq
    obtain ⟨v, _, rfl⟩ := List.mem_map.mp hb
    cases heq

/-- A definition has one node. -/
theorem origin_at_inj {inputs : List FileInput} {opts : LinkOpts} {p q : Nat} {o : Origin}
    (hp : origin_at inputs opts p = some o) (hq : origin_at inputs opts q = some o) : p = q := by
  obtain ⟨a, ha, hao⟩ := Option.bind_eq_some_iff.mp hp
  obtain ⟨b, hb, hbo⟩ := Option.bind_eq_some_iff.mp hq
  obtain ⟨hplt, rfl⟩ := List.getElem?_eq_some_iff.mp ha
  obtain ⟨hqlt, rfl⟩ := List.getElem?_eq_some_iff.mp hb
  have hdistinct := List.pairwise_iff_getElem.mp (placed_distinct inputs opts)
  rcases Nat.lt_trichotomy p q with hlt | heq | hlt
  · exact absurd hbo (hdistinct p q hplt hqlt hlt o hao)
  · exact heq
  · exact absurd hao (hdistinct q p hqlt hplt hlt o hbo)

/-- How many value nodes a link sorts before a node. -/
def shift (inputs : List FileInput) (opts : LinkOpts) (n : NodeWithProvenance) : Nat :=
  (link_values inputs opts).countP fun v => node_order v n = .lt

/-- The final sort moves a symbol node by the value nodes that sort before it. -/
theorem placed_of_placed_symbols {inputs : List FileInput} (opts : LinkOpts) {p : Nat} {o : Origin}
    {n : NodeWithProvenance} (h : (placed_symbols inputs)[p]? = some (o, n)) :
    (placed inputs opts)[p + shift inputs opts n]? = some (some o, n) := by
  have hsymbols : (placed_symbols inputs).Pairwise fun a b => (tagged_order a b).isLE :=
    pairwise_sort_by (staged_origins inputs)
  have hsorted : ((placed_symbols inputs).map fun t => (some t.1, t.2)).Pairwise
      fun a b => (tagged_order a b).isLE :=
    List.pairwise_map.mpr hsymbols
  have hat : ((placed_symbols inputs).map fun t => (some t.1, t.2))[p]? = some (some o, n) := by
    rw [List.getElem?_map, h]
    rfl
  have hcount : shift inputs opts n =
      ((link_values inputs opts).map fun v => ((none : Option Origin), v)).countP
        fun t => tagged_order t (some o, n) = .lt := by
    rw [List.countP_map]
    rfl
  rw [hcount]
  exact getElem?_sort_by_append hsorted hat

theorem origin_at_shift {inputs : List FileInput} (opts : LinkOpts) {p : Nat} {o : Origin}
    {n : NodeWithProvenance} (h : (placed_symbols inputs)[p]? = some (o, n)) :
    origin_at inputs opts (p + shift inputs opts n) = some o := by
  rw [origin_at, placed_of_placed_symbols opts h]
  rfl

/-! ### The nodes of the linked graph -/

def clear_id (n : NodeWithProvenance) : NodeWithProvenance :=
  { n with node := { n.node with id := ⟨0⟩ } }

theorem assign_ids_map_clear_id (l : List NodeWithProvenance) :
    assign_ids (l.map clear_id) = assign_ids l := by
  apply List.ext_getElem?
  intro i
  simp only [assign_ids, List.getElem?_mapIdx, List.getElem?_map, Option.map_map]
  rfl

theorem map_clear_id_assign_ids (l : List NodeWithProvenance) :
    (assign_ids l).map clear_id = l.map clear_id := by
  apply List.ext_getElem?
  intro i
  simp only [assign_ids, List.getElem?_mapIdx, List.getElem?_map, Option.map_map]
  rfl

theorem assign_ids_congr {l l' : List NodeWithProvenance} (h : l.map clear_id = l'.map clear_id) :
    assign_ids l = assign_ids l' := by
  rw [← assign_ids_map_clear_id l, h, assign_ids_map_clear_id]

/-- Sorting does not look at ids. -/
theorem assign_ids_sort_congr {l l' : List NodeWithProvenance}
    (h : l.map clear_id = l'.map clear_id) :
    assign_ids (sort_by node_order l) = assign_ids (sort_by node_order l') := by
  have hsort : ∀ l, (sort_by node_order l).map clear_id = sort_by node_order (l.map clear_id) :=
    map_sort_by clear_id fun _ _ => rfl
  apply assign_ids_congr
  rw [hsort, hsort, h]

/-- The value nodes are numbered on from the symbol nodes. -/
theorem assign_ids_link_nodes (inputs : List FileInput) (opts : LinkOpts) :
    assign_ids (build_nodes inputs ++ link_values inputs opts) =
      build_nodes inputs ++ link_values inputs opts := by
  have hsymbols : assign_ids (build_nodes inputs) = build_nodes inputs := by
    rw [build_nodes, assign_ids, assign_ids, List.mapIdx_mapIdx]
    rfl
  rw [assign_ids, List.mapIdx_append]
  congr 1
  rw [link_values]
  split
  · rw [value_nodes, List.mapIdx_mapIdx]
    congr 1
    funext offset n
    rw [Function.comp_apply, Nat.add_comm]
  · rfl

theorem sort_nodes_canonical_nodes {g : Numbered} (h : assign_ids g.nodes = g.nodes) :
    (sort_nodes_canonical g).nodes = assign_ids (sort_by node_order g.nodes) := by
  rw [sort_nodes_canonical]
  split
  · rename_i hsorted
    rw [sort_by_eq_self (is_sorted_iff.mp hsorted), h]
  · rfl

/-- A node no counter has been stamped on. -/
def Fresh (n : NodeWithProvenance) : Prop :=
  n.node.unresolved_calls = 0 ∧ n.node.external_calls = 0 ∧ n.node.narrowing.visible_dropped_out = 0

theorem fresh_assign_ids {l : List NodeWithProvenance} (h : ∀ n ∈ l, Fresh n) :
    ∀ n ∈ assign_ids l, Fresh n := by
  intro n hn
  obtain ⟨i, hi, rfl⟩ := List.mem_mapIdx.mp hn
  exact h l[i] (List.getElem_mem hi)

theorem fresh_placed (inputs : List FileInput) (opts : LinkOpts) :
    ∀ t ∈ placed inputs opts, Fresh t.2 := by
  intro t ht
  rcases List.mem_append.mp (mem_sort_by.mp ht) with hsymbol | hvalue
  · obtain ⟨⟨o, n⟩, hmem, rfl⟩ := List.mem_map.mp hsymbol
    obtain ⟨file, d, -, -, rfl⟩ := mem_staged_origins.mp (mem_sort_by.mp hmem)
    exact ⟨rfl, rfl, rfl⟩
  · obtain ⟨v, hv, rfl⟩ := List.mem_map.mp hvalue
    rw [link_values] at hv
    split at hv
    · obtain ⟨i, hi, rfl⟩ := List.mem_mapIdx.mp hv
      obtain ⟨stage, -, heq⟩ := List.mem_map.mp (mem_sort_by.mp (List.getElem_mem hi))
      simp only [← heq]
      exact ⟨rfl, rfl, rfl⟩
    · cases hv

theorem finalize_nodes {g : Numbered} (h : ∀ n ∈ g.nodes, Fresh n) (unresolved : List UnresolvedRef) :
    (finalize g unresolved).nodes =
      g.nodes.map (stamp (sort_by unresolved_order unresolved) g.narrowing) := by
  have hnodes : (finalize g unresolved).nodes =
      if sort_by unresolved_order unresolved ≠ [] ∨ g.narrowing ≠ [] then
        g.nodes.map (stamp (sort_by unresolved_order unresolved) g.narrowing)
      else g.nodes := rfl
  rw [hnodes]
  split
  · rfl
  · rename_i hnone
    rw [not_or, not_not, not_not] at hnone
    rw [hnone.1, hnone.2]
    -- Stamping nothing changes a fresh node in no field.
    conv_lhs => rw [← List.map_id g.nodes]
    apply List.map_congr_left
    intro n hn
    have hdropped : n.node.narrowing.visible_dropped_out = 0 := (h n hn).2.2
    simp only [stamp, dangling_of, entry_of, List.filter_nil, List.find?_nil, Option.map_none,
      Option.getD_none, id_eq]
    rw [← hdropped]

/-- What a link hands to the final sort. -/
def numbered (env : LinkEnv) (inputs : List FileInput) (opts : LinkOpts) : Numbered where
  nodes := build_nodes inputs ++ link_values inputs opts
  edges := (link_refs env inputs opts).edges ++
    (inputs.flatMap fun file => file.facts.impl_relations.filterMap
      (resolve_impl_relation (build_nodes inputs) (symbol_table inputs) file)) ++
    link_dataflow_edges env inputs opts
  candidates := (link_refs env inputs opts).candidates
  narrowing := (link_refs env inputs opts).ledger.finish (symbol_table inputs)

/-- The nodes of the linked graph are the placed nodes, numbered and stamped. -/
theorem link_nodes_stamped (env : LinkEnv) (inputs : List FileInput) (opts : LinkOpts) :
    (link env inputs opts).nodes =
      (assign_ids ((placed inputs opts).map Prod.snd)).map
        (stamp (link env inputs opts).unresolved
          (sort_nodes_canonical (numbered env inputs opts)).narrowing) := by
  have hnodes : (sort_nodes_canonical (numbered env inputs opts)).nodes =
      assign_ids ((placed inputs opts).map Prod.snd) := by
    rw [sort_nodes_canonical_nodes (assign_ids_link_nodes inputs opts), placed, map_snd_sort_by]
    apply assign_ids_sort_congr
    simp only [numbered, List.map_append, List.map_map, build_nodes_eq, map_clear_id_assign_ids]
    rfl
  have hfresh : ∀ n ∈ (sort_nodes_canonical (numbered env inputs opts)).nodes, Fresh n := by
    rw [hnodes]
    apply fresh_assign_ids
    intro n hn
    obtain ⟨t, ht, rfl⟩ := List.mem_map.mp hn
    exact fresh_placed inputs opts t ht
  have hfinal := finalize_nodes hfresh (link_refs env inputs opts).unresolved
  rw [hnodes] at hfinal
  exact hfinal

theorem link_nodes (env : LinkEnv) (inputs : List FileInput) (opts : LinkOpts) :
    ∃ narrowing, (link env inputs opts).nodes =
      (assign_ids ((placed inputs opts).map Prod.snd)).map
        (stamp (link env inputs opts).unresolved narrowing) :=
  ⟨_, link_nodes_stamped env inputs opts⟩

end cgx.resolve
