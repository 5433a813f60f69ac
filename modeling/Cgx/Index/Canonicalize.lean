import Cgx.Lib.Numbering
import Cgx.Resolve.Origins
import Cgx.Store.Canonical

open cgx.core cgx.resolve cgx.store sorting numbering Std

namespace cgx.index

/-- The graph as it is handed to the store. -/
def into_linked (g : ResolvedGraph) : LinkedGraph where
  nodes := g.nodes.map NodeWithProvenance.node
  edges := g.edges.map EdgeWithProvenance.edge
  candidates := g.candidates

/-! ### Groups numbered by first appearance -/

/-- Below every edge of a group stands an edge of each lower-numbered group. -/
def LowerGroupsFirst (edges : List EdgeRecord) : Prop :=
  ∀ e ∈ edges, ∀ gr, e.candidate_group = some gr → ∀ j < gr.toNat,
    ∃ below ∈ edges, ∃ gr', below.candidate_group = some gr' ∧ gr'.toNat = j ∧ edge_cmp below e = .lt

/-- The edges of a group share their source. -/
def OneSource (edges : List EdgeRecord) : Prop :=
  ∀ e ∈ edges, ∀ e' ∈ edges, ∀ gr, e.candidate_group = some gr → e'.candidate_group = some gr →
    e.src = e'.src

/-- What has been noted behind the edges `before`: the source of each of their groups,
and no group is skipped. -/
structure Noted (before : List EdgeRecord) (seen : List NodeId) : Prop where
  source : ∀ e ∈ before, ∀ gr, e.candidate_group = some gr → seen[gr.toNat]? = some e.src
  carried : ∀ j < seen.length, ∃ e ∈ before, ∃ gr, e.candidate_group = some gr ∧ gr.toNat = j

theorem Noted.push {before rest : List EdgeRecord} {seen : List NodeId} {e : EdgeRecord}
    (h : Noted before seen) (hone : OneSource (before ++ e :: rest))
    (hlower : ∀ gr, e.candidate_group = some gr → ∀ j < gr.toNat,
      ∃ below ∈ before, ∃ gr', below.candidate_group = some gr' ∧ gr'.toNat = j) :
    Noted (before ++ [e]) (push_group seen e) ∧ ∀ gr, e.candidate_group = some gr →
      gr.toNat ≤ seen.length ∧ (push_group seen e)[gr.toNat]? = some e.src := by
  cases hgroup : e.candidate_group with
  | none =>
    have hpush : push_group seen e = seen := by rw [push_group, hgroup]
    rw [hpush]
    refine ⟨⟨?_, ?_⟩, by simp⟩
    · intro m hm gr hgr
      cases List.mem_append.mp hm with
      | inl hmem => exact h.source m hmem gr hgr
      | inr heq =>
        rw [List.mem_singleton.mp heq, hgroup] at hgr
        cases hgr
    · intro j hj
      obtain ⟨m, hm, hgr⟩ := h.carried j hj
      exact ⟨m, List.mem_append_left _ hm, hgr⟩
  | some gr =>
    have hbelow : ∀ j < gr.toNat, j < seen.length := by
      intro j hj
      obtain ⟨m, hm, gr', hgr', rfl⟩ := hlower gr hgroup j hj
      exact (List.getElem?_eq_some_iff.mp (h.source m hm gr' hgr')).1
    have hle : gr.toNat ≤ seen.length := by
      by_contra hgt
      have := hbelow seen.length (by omega)
      omega
    have hat : (push_group seen e)[gr.toNat]? = some e.src := by
      rw [push_group_of_some hgroup]
      split
      · rename_i heq
        rw [heq, List.getElem?_append_right (Nat.le_refl _), Nat.sub_self]
        rfl
      · obtain ⟨m, hm, gr', hgr', heq⟩ := h.carried gr.toNat (by omega)
        rw [UInt32.toNat_inj] at heq
        subst heq
        rw [h.source m hm gr' hgr',
          hone m (List.mem_append_left _ hm) e (by simp) gr' hgr' hgroup]
    refine ⟨⟨?_, ?_⟩, ?_⟩
    · intro m hm gr' hgr'
      cases List.mem_append.mp hm with
      | inl hmem =>
        have hsrc := h.source m hmem gr' hgr'
        obtain ⟨tail, htail⟩ := push_group_grows seen e
        rw [← htail, List.getElem?_append_left (List.getElem?_eq_some_iff.mp hsrc).1]
        exact hsrc
      | inr heq =>
        rw [List.mem_singleton.mp heq] at hgr' ⊢
        rw [hgroup] at hgr'
        cases hgr'
        exact hat
    · intro j hj
      by_cases hjlt : j < seen.length
      · obtain ⟨m, hm, hgr⟩ := h.carried j hjlt
        exact ⟨m, List.mem_append_left _ hm, hgr⟩
      · refine ⟨e, by simp, gr, hgroup, ?_⟩
        rw [push_group_of_some hgroup] at hj
        split at hj
        · rw [List.length_append, List.length_singleton] at hj
          omega
        · exact absurd hj hjlt
    · intro gr' hgr'
      cases hgr'
      exact ⟨hle, hat⟩

/-- Sorted edges that carry their lower groups first are numbered by first appearance. -/
theorem groups_numbered_of_lower_first {before rest : List EdgeRecord} {seen : List NodeId}
    (h : Noted before seen) (hone : OneSource (before ++ rest))
    (hsorted : (before ++ rest).Pairwise fun a b => (edge_cmp a b).isLE)
    (hlower : LowerGroupsFirst (before ++ rest)) : GroupsNumbered seen rest := by
  induction rest generalizing before seen with
  | nil => trivial
  | cons e rest ih =>
    have hbefore : ∀ gr, e.candidate_group = some gr → ∀ j < gr.toNat,
        ∃ below ∈ before, ∃ gr', below.candidate_group = some gr' ∧ gr'.toNat = j := by
      intro gr hgr j hj
      obtain ⟨below, hmem, gr', hgr', hj', hlt⟩ := hlower e (by simp) gr hgr j hj
      refine ⟨below, ?_, gr', hgr', hj'⟩
      -- What is below `e` in a sorted list stands before it.
      cases List.mem_append.mp hmem with
      | inl hb => exact hb
      | inr hrest =>
        have hle : (edge_cmp e below).isLE := by
          cases List.mem_cons.mp hrest with
          | inl heq =>
            have hself : edge_cmp e e = .eq := ReflCmp.compare_self
            rw [heq, hself]
            rfl
          | inr hlater =>
            have htail := (List.pairwise_append.mp hsorted).2.1
            exact (List.pairwise_cons.mp htail).1 below hlater
        exact absurd hlt (isLE_iff_ne_lt.mp hle)
    obtain ⟨hnoted, hat⟩ := h.push hone hbefore
    refine ⟨hat, ih hnoted ?_ ?_ ?_⟩
    · simpa using hone
    · simpa using hsorted
    · simpa using hlower

/-! ### The canonical form of a graph -/

instance : TransCmp edge_order :=
  trans_on edge_cmp EdgeWithProvenance.edge

/-- Every edge of the canonical form is an edge of the graph, renumbered. -/
theorem exists_of_mem_canonicalize {g : ResolvedGraph} {e : EdgeWithProvenance}
    (h : e ∈ (canonicalize g).edges) :
    ∃ b ∈ g.edges, ∃ j, e = number_at j (regroup (canonical_numbering g) b) := by
  obtain ⟨j, hj⟩ := List.mem_iff_getElem?.mp h
  have hlt : j < (canonical_origins g).length := by
    have hat := (List.getElem?_eq_some_iff.mp hj).1
    rw [canonicalize_edges, List.length_mapIdx, List.length_map] at hat
    rwa [canonical_origins, List.length_map]
  obtain ⟨b, hb, hat⟩ := canonicalize_edge_at (List.getElem?_eq_getElem hlt)
  rw [hj] at hat
  exact ⟨b, List.mem_of_getElem? hb, j, Option.some.inj hat⟩

/-- Every edge of the graph is an edge of the canonical form, renumbered. -/
theorem exists_mem_canonicalize {g : ResolvedGraph} {b : EdgeWithProvenance} (h : b ∈ g.edges) :
    ∃ j, number_at j (regroup (canonical_numbering g) b) ∈ (canonicalize g).edges := by
  obtain ⟨i, hi⟩ := List.mem_iff_getElem?.mp h
  obtain ⟨j, hj⟩ := exists_canonical_place (List.getElem?_eq_some_iff.mp hi).1
  obtain ⟨b', hb', hat⟩ := canonicalize_edge_at hj
  rw [hi] at hb'
  cases hb'
  exact ⟨j, List.mem_of_getElem? hat⟩

/-- The group numbers the edges of a graph carry, in canonical edge order. -/
def carried_groups (g : ResolvedGraph) : List UInt32 :=
  (sort_by edge_order g.edges).filterMap fun e => e.edge.candidate_group

/-- The canonical order without its last key, the candidate group. -/
def place_cmp : EdgeRecord → EdgeRecord → Ordering :=
  compareLex (compareOn fun e => e.src.raw)
    (compareLex (compareOn fun e => e.dst.raw)
      (compareLex (compareOn fun e => e.kind.discriminant)
        (compareOn fun e => e.stmt_index.getD 4294967295)))

theorem edge_cmp_eq_then (a b : EdgeRecord) : edge_cmp a b = (place_cmp a b).then
    (compareOn (fun e : EdgeRecord => e.candidate_group.getD 4294967295) a b) := by
  simp only [edge_cmp, place_cmp, compareLex, Ordering.then_assoc]

theorem idxOf_numbering {g : ResolvedGraph} {gr : UInt32} (h : gr ∈ carried_groups g) :
    (canonical_numbering g).idxOf gr = (firsts (carried_groups g)).idxOf gr := by
  rw [canonical_numbering, group_numbering]
  exact List.idxOf_append_of_mem (mem_firsts.mpr h)

theorem mem_carried_groups {g : ResolvedGraph} {gr : UInt32} :
    gr ∈ carried_groups g ↔ ∃ e ∈ g.edges, e.edge.candidate_group = some gr := by
  simp [carried_groups]

theorem nodup_canonical_numbering (g : ResolvedGraph) : (canonical_numbering g).Nodup := by
  rw [canonical_numbering, group_numbering]
  refine List.Nodup.append (nodup_firsts _) ((perm_sort_by _).nodup_iff.mpr (List.nodup_dedup _)) ?_
  intro gr hcarried hedgeless
  rw [mem_sort_by, List.mem_dedup, List.mem_filter] at hedgeless
  simp only [List.contains_eq_mem, Bool.not_eq_true', decide_eq_false_iff_not] at hedgeless
  exact hedgeless.2 hcarried

/-- There are no more group numbers than 32 bits have values. -/
theorem length_le_of_nodup {l : List UInt32} (h : l.Nodup) : l.length ≤ 2 ^ 32 := by
  have hnodup : (l.map UInt32.toNat).Nodup := h.map fun _ _ heq => UInt32.toNat_inj.mp heq
  have hsub : l.map UInt32.toNat ⊆ List.range (2 ^ 32) := by
    intro n hn
    obtain ⟨gr, _, rfl⟩ := List.mem_map.mp hn
    exact List.mem_range.mpr gr.toNat_lt
  have hle := (List.subperm_of_subset hnodup hsub).length_le
  rwa [List.length_map, List.length_range] at hle

/-- The new number of a group, as a number. -/
theorem toNat_renumbered_of_mem {numbering : List UInt32} (hnodup : numbering.Nodup) {gr : UInt32}
    (h : gr ∈ numbering) : (renumbered numbering gr).toNat = numbering.idxOf gr := by
  have hidx := List.idxOf_lt_length_of_mem h
  have hlen := length_le_of_nodup hnodup
  exact UInt32.toNat_ofNat_of_lt' (Nat.lt_of_lt_of_le hidx hlen)

theorem mem_numbering_of_carried {g : ResolvedGraph} {gr : UInt32} (h : gr ∈ carried_groups g) :
    gr ∈ canonical_numbering g := by
  rw [canonical_numbering, group_numbering]
  exact List.mem_append_left _ (mem_firsts.mpr h)

/-- The number of a carried group, as a number. -/
theorem toNat_renumbered {g : ResolvedGraph} {gr : UInt32} (h : gr ∈ carried_groups g) :
    (renumbered (canonical_numbering g) gr).toNat = (firsts (carried_groups g)).idxOf gr := by
  rw [toNat_renumbered_of_mem (nodup_canonical_numbering g) (mem_numbering_of_carried h), idxOf_numbering h]

/-- Before an edge of a group stands, in canonical order, an edge of each lower-numbered
group. -/
theorem exists_lower_group {g : ResolvedGraph} {e : EdgeWithProvenance} (he : e ∈ g.edges) {gr : UInt32}
    (hgr : e.edge.candidate_group = some gr) {j : Nat} (hj : j < (firsts (carried_groups g)).idxOf gr) :
    ∃ b ∈ g.edges, ∃ gr', b.edge.candidate_group = some gr' ∧
      (firsts (carried_groups g)).idxOf gr' = j ∧ (place_cmp b.edge e.edge).isLE := by
  obtain ⟨before, after, hsplit⟩ := List.append_of_mem (mem_sort_by.mpr he)
  have hcarried : carried_groups g = (before.filterMap fun e => e.edge.candidate_group) ++
      gr :: after.filterMap fun e => e.edge.candidate_group := by
    rw [carried_groups, hsplit, List.filterMap_append, List.filterMap_cons, hgr]
  rw [hcarried] at hj
  obtain ⟨gr', hmem, hidx⟩ := exists_of_lt_idxOf_firsts hj
  obtain ⟨b, hb, hbgr⟩ := List.mem_filterMap.mp hmem
  have hsorted : (sort_by edge_order g.edges).Pairwise fun a b => (edge_order a b).isLE :=
    pairwise_sort_by g.edges
  rw [hsplit] at hsorted
  have hle : (edge_cmp b.edge e.edge).isLE := (List.pairwise_append.mp hsorted).2.2 b hb e List.mem_cons_self
  refine ⟨b, ?_, gr', hbgr, by rw [hcarried]; exact hidx, ?_⟩
  · apply mem_sort_by.mp
    rw [hsplit]
    exact List.mem_append_left _ hb
  · rw [edge_cmp_eq_then] at hle
    cases hcmp : place_cmp b.edge e.edge with
    | gt => simp [hcmp] at hle
    | lt => rfl
    | eq => rfl

/-- The numbers that carried groups get are those of their first appearance. -/
theorem lower_groups_first_canonicalize (g : ResolvedGraph) :
    LowerGroupsFirst (into_linked (canonicalize g)).edges := by
  intro e he gr hgr j hj
  obtain ⟨c, hc, rfl⟩ := List.mem_map.mp he
  obtain ⟨b, hb, p, rfl⟩ := exists_of_mem_canonicalize hc
  obtain ⟨old, hold, rfl⟩ := Option.map_eq_some_iff.mp hgr
  have hcarried : old ∈ carried_groups g := mem_carried_groups.mpr ⟨b, hb, hold⟩
  rw [toNat_renumbered hcarried] at hj
  obtain ⟨a, ha, old', hold', hidx, hle⟩ := exists_lower_group hb hold hj
  have hcarried' : old' ∈ carried_groups g := mem_carried_groups.mpr ⟨a, ha, hold'⟩
  have hnumber := toNat_renumbered hcarried'
  rw [hidx] at hnumber
  obtain ⟨q, hq⟩ := exists_mem_canonicalize ha
  refine ⟨_, List.mem_map_of_mem hq, renumbered (canonical_numbering g) old', ?_, hnumber, ?_⟩
  · change a.edge.candidate_group.map _ = _
    rw [hold']
    rfl
  · rw [edge_cmp_eq_then]
    change (place_cmp a.edge b.edge).then _ = _
    have hgroups : compareOn (fun e : EdgeRecord => e.candidate_group.getD 4294967295)
        (number_at q (regroup (canonical_numbering g) a)).edge
        (number_at p (regroup (canonical_numbering g) b)).edge = .lt := by
      change compare ((a.edge.candidate_group.map _).getD _) ((b.edge.candidate_group.map _).getD _) = _
      rw [hold, hold', Option.map_some, Option.map_some, Option.getD_some, Option.getD_some,
        Std.compare_eq_lt, UInt32.lt_iff_toNat_lt, hnumber, toNat_renumbered hcarried]
      exact hj
    rw [hgroups]
    cases hcmp : place_cmp a.edge b.edge with
    | gt => simp [hcmp] at hle
    | lt => rfl
    | eq => rfl

/-- What a graph needs so that its canonical form is accepted. -/
structure Groupable (g : ResolvedGraph) : Prop where
  node_ids : ∀ (i : Nat) (n : NodeWithProvenance), g.nodes[i]? = some n → n.node.id.index = i
  nodes_sorted : g.nodes.Pairwise fun a b => (node_order a b).isLE
  edge_ends : ∀ e ∈ g.edges, e.edge.src.index < g.nodes.length ∧ e.edge.dst.index < g.nodes.length
  one_source : ∀ e ∈ g.edges, ∀ e' ∈ g.edges, ∀ gr, e.edge.candidate_group = some gr →
    e'.edge.candidate_group = some gr → e.edge.src = e'.edge.src
  rows_carried : ∀ c ∈ g.candidates, c.dst.index < g.nodes.length ∧
    ∃ e ∈ g.edges, e.edge.candidate_group = some c.candidate_group
  room : g.edges.length ≤ 2 ^ 32

/-- Renumbering keeps the carried groups apart. -/
theorem renumbered_inj {g : ResolvedGraph} {gr gr' : UInt32}
    (h : gr ∈ carried_groups g) (h' : gr' ∈ carried_groups g)
    (heq : renumbered (canonical_numbering g) gr = renumbered (canonical_numbering g) gr') : gr = gr' := by
  have hnat := congrArg UInt32.toNat heq
  rw [toNat_renumbered h, toNat_renumbered h'] at hnat
  exact (List.idxOf_inj (mem_firsts.mpr h)).mp hnat

theorem one_source_canonicalize {g : ResolvedGraph} (h : Groupable g) :
    OneSource (into_linked (canonicalize g)).edges := by
  intro e he e' he' gr hgr hgr'
  obtain ⟨c, hc, rfl⟩ := List.mem_map.mp he
  obtain ⟨c', hc', rfl⟩ := List.mem_map.mp he'
  obtain ⟨b, hb, p, rfl⟩ := exists_of_mem_canonicalize hc
  obtain ⟨b', hb', p', rfl⟩ := exists_of_mem_canonicalize hc'
  obtain ⟨old, hold, heq⟩ := Option.map_eq_some_iff.mp hgr
  obtain ⟨old', hold', heq'⟩ := Option.map_eq_some_iff.mp hgr'
  have hsame : old = old' := renumbered_inj (mem_carried_groups.mpr ⟨b, hb, hold⟩)
    (mem_carried_groups.mpr ⟨b', hb', hold'⟩) (heq.trans heq'.symm)
  subst hsame
  exact h.one_source b hb b' hb' old hold hold'

theorem canonicalize_edges_length (g : ResolvedGraph) : (canonicalize g).edges.length = g.edges.length := by
  have hlength := (perm_canonical_origins g).length_eq
  rw [canonical_origins, List.length_map, List.length_range] at hlength
  rw [canonicalize_edges, List.length_mapIdx, List.length_map, hlength]

theorem edges_sorted_canonicalize (g : ResolvedGraph) :
    (canonicalize g).edges.Pairwise fun a b => (edge_order a b).isLE := by
  have hsorted : ((canonical_trace g).map Prod.fst).Pairwise fun a b => (edge_order a b).isLE := by
    rw [canonical_trace, map_fst_sort_traced]
    exact pairwise_sort_by _
  rw [canonicalize_edges, List.pairwise_iff_getElem]
  intro i j hi hj hij
  rw [List.getElem_mapIdx, List.getElem_mapIdx]
  rw [List.length_mapIdx] at hi hj
  exact List.pairwise_iff_getElem.mp hsorted i j hi hj hij

theorem edge_ids_canonicalize {g : ResolvedGraph} (hroom : g.edges.length ≤ 2 ^ 32) {i : Nat}
    {e : EdgeWithProvenance} (h : (canonicalize g).edges[i]? = some e) : e.edge.id.index = i := by
  have hlt := (List.getElem?_eq_some_iff.mp h).1
  rw [canonicalize_edges_length] at hlt
  rw [canonicalize_edges, List.getElem?_mapIdx] at h
  obtain ⟨b, _, rfl⟩ := Option.map_eq_some_iff.mp h
  exact UInt32.toNat_ofNat_of_lt' (Nat.lt_of_lt_of_le hlt hroom)

/-- The canonical form of a groupable graph is canonical. -/
theorem canonical_canonicalize {g : ResolvedGraph} (h : Groupable g) :
    Canonical (into_linked (canonicalize g)) := by
  have hsorted : (into_linked (canonicalize g)).edges.Pairwise fun a b => (edge_cmp a b).isLE :=
    List.pairwise_map.mpr (edges_sorted_canonicalize g)
  have hnoted : Noted [] [] := ⟨by simp, by simp⟩
  have hgroups : GroupsNumbered [] (into_linked (canonicalize g)).edges :=
    groups_numbered_of_lower_first hnoted (one_source_canonicalize h) hsorted
      (lower_groups_first_canonicalize g)
  refine ⟨?_, List.pairwise_map.mpr h.nodes_sorted, ?_, ?_, hsorted, hgroups, ?_, pairwise_sort_by _⟩
  · intro i n hi
    rw [into_linked, List.getElem?_map] at hi
    obtain ⟨m, hm, rfl⟩ := Option.map_eq_some_iff.mp hi
    exact h.node_ids i m hm
  · intro i e hi
    rw [into_linked, List.getElem?_map] at hi
    obtain ⟨c, hc, rfl⟩ := Option.map_eq_some_iff.mp hi
    exact edge_ids_canonicalize h.room hc
  · intro e he
    obtain ⟨c, hc, rfl⟩ := List.mem_map.mp he
    obtain ⟨b, hb, _, rfl⟩ := exists_of_mem_canonicalize hc
    rw [into_linked, List.length_map]
    exact h.edge_ends b hb
  · intro c hc
    obtain ⟨row, hrow, rfl⟩ := List.mem_map.mp (mem_sort_by.mp hc)
    obtain ⟨hdst, b, hb, hgr⟩ := h.rows_carried row hrow
    obtain ⟨j, hj⟩ := exists_mem_canonicalize hb
    have hgroup : (number_at j (regroup (canonical_numbering g) b)).edge.candidate_group =
        some (renumbered (canonical_numbering g) row.candidate_group) := by
      change b.edge.candidate_group.map _ = _
      rw [hgr]
      rfl
    have hsource := hgroups.source (List.mem_map_of_mem hj) hgroup
    refine ⟨(List.getElem?_eq_some_iff.mp hsource).1, ?_⟩
    rw [into_linked, List.length_map]
    exact hdst

/-- The canonical form of a groupable graph is accepted by the store. -/
theorem check_canonicalize {g : ResolvedGraph} (h : Groupable g) :
    check_canonical (into_linked (canonicalize g)) = .ok () :=
  check_canonical_of (canonical_canonicalize h)

end cgx.index
