import Cgx.Resolve.Graph

open cgx.core sorting

namespace cgx.resolve

/-- The canonical edge order on edges that remember their place. -/
def traced_order : EdgeWithProvenance × Nat → EdgeWithProvenance × Nat → Ordering :=
  fun a b => edge_order a.1 b.1

/-- An edge under the new number of its candidate group. -/
def regroup (numbering : List UInt32) (e : EdgeWithProvenance) : EdgeWithProvenance :=
  { e with edge := { e.edge with candidate_group := e.edge.candidate_group.map (renumbered numbering) } }

/-- An edge under the id of its place. -/
def number_at (j : Nat) (e : EdgeWithProvenance) : EdgeWithProvenance :=
  { e with edge := { e.edge with id := ⟨UInt32.ofNat j⟩ } }

/-- The group numbers that canonical order assigns. -/
def canonical_numbering (g : ResolvedGraph) : List UInt32 :=
  group_numbering (sort_by edge_order g.edges) g.candidates

/-- The regrouped edges in canonical order, each with the place it had in `g`. -/
def canonical_trace (g : ResolvedGraph) : List (EdgeWithProvenance × Nat) :=
  sort_by traced_order
    ((sort_by traced_order g.edges.zipIdx).map fun e => (regroup (canonical_numbering g) e.1, e.2))

/-- For each place of the canonical form, the place its edge had in `g`. -/
def canonical_origins (g : ResolvedGraph) : List Nat :=
  (canonical_trace g).map Prod.snd

theorem map_fst_sort_traced (l : List (EdgeWithProvenance × Nat)) :
    (sort_by traced_order l).map Prod.fst = sort_by edge_order (l.map Prod.fst) :=
  map_sort_by Prod.fst (fun _ _ => rfl) l

theorem canonicalize_edges (g : ResolvedGraph) :
    (canonicalize g).edges = ((canonical_trace g).map Prod.fst).mapIdx number_at := by
  have hinner : (sort_by traced_order g.edges.zipIdx).map Prod.fst = sort_by edge_order g.edges := by
    rw [map_fst_sort_traced, List.zipIdx_map_fst]
  rw [canonical_trace, map_fst_sort_traced, List.map_map]
  have hregroup : (sort_by traced_order g.edges.zipIdx).map
      (Prod.fst ∘ fun e => (regroup (canonical_numbering g) e.1, e.2)) =
        (sort_by edge_order g.edges).map (regroup (canonical_numbering g)) := by
    rw [← hinner, List.map_map]
    rfl
  rw [hregroup]
  rfl

/-- Every edge has one place in the canonical form. -/
theorem perm_canonical_origins (g : ResolvedGraph) :
    (canonical_origins g).Perm (List.range g.edges.length) := by
  have hsnd : (List.range g.edges.length) = g.edges.zipIdx.map Prod.snd := by
    rw [List.zipIdx_map_snd, List.range_eq_range']
  rw [canonical_origins, canonical_trace, hsnd]
  refine ((perm_sort_by _).map Prod.snd).trans ?_
  rw [List.map_map]
  exact (perm_sort_by _).map Prod.snd

/-- The edge at a place of the canonical form is the one it comes from, renumbered. -/
theorem canonicalize_edge_at {g : ResolvedGraph} {j i : Nat} (h : (canonical_origins g)[j]? = some i) :
    ∃ e, g.edges[i]? = some e ∧
      (canonicalize g).edges[j]? = some (number_at j (regroup (canonical_numbering g) e)) := by
  rw [canonical_origins, List.getElem?_map, Option.map_eq_some_iff] at h
  obtain ⟨⟨moved, place⟩, htrace, heq⟩ := h
  have hmem := List.mem_of_getElem? htrace
  rw [canonical_trace, mem_sort_by, List.mem_map] at hmem
  obtain ⟨⟨e, k⟩, hpair, hmoved⟩ := hmem
  rw [mem_sort_by, List.mem_zipIdx_iff_getElem?] at hpair
  cases hmoved
  subst heq
  refine ⟨e, hpair, ?_⟩
  rw [canonicalize_edges, List.getElem?_mapIdx, List.getElem?_map, htrace]
  rfl

/-- Every edge comes to stand at some place of the canonical form. -/
theorem exists_canonical_place {g : ResolvedGraph} {i : Nat} (h : i < g.edges.length) :
    ∃ j : Nat, (canonical_origins g)[j]? = some i := by
  have hmem : i ∈ canonical_origins g := (perm_canonical_origins g).mem_iff.mpr (List.mem_range.mpr h)
  exact List.mem_iff_getElem?.mp hmem

/-! ### Passes that drop and append edges -/

/-- For each place of `edges.filter keep` with `extra` new edges behind it, the place the
edge had in `edges`. -/
def sifted_origins (keep : EdgeWithProvenance → Bool) (edges : List EdgeWithProvenance) (extra : Nat) :
    List (Option Nat) :=
  ((edges.zipIdx.filter fun e => keep e.1).map fun e => some e.2) ++ List.replicate extra none

/-- The edge `e'` of a pass's result is what became of the edge `e`. -/
def Became (origins : List (Option Nat)) (before after : List EdgeWithProvenance)
    (e e' : EdgeWithProvenance) : Prop :=
  ∃ i j : Nat, before[i]? = some e ∧ origins[j]? = some (some i) ∧ after[j]? = some e'

theorem map_fst_sifted (keep : EdgeWithProvenance → Bool) (edges : List EdgeWithProvenance) :
    (edges.zipIdx.filter fun e => keep e.1).map Prod.fst = edges.filter keep := by
  have hfilter := List.filter_map (l := edges.zipIdx) (f := Prod.fst) (p := keep)
  rw [List.zipIdx_map_fst] at hfilter
  exact hfilter.symm

/-- A kept edge stands among the kept ones at the place that its origin tells. -/
theorem sifted_origin_at {keep : EdgeWithProvenance → Bool} {edges : List EdgeWithProvenance}
    {extra p i : Nat} (h : (sifted_origins keep edges extra)[p]? = some (some i)) :
    ∃ e, edges[i]? = some e ∧ keep e ∧ (edges.filter keep)[p]? = some e := by
  have hlt : p < (edges.zipIdx.filter fun e => keep e.1).length := by
    by_contra hge
    rw [sifted_origins, List.getElem?_append_right (by simpa using Nat.le_of_not_lt hge)] at h
    have hnone := List.eq_of_mem_replicate (List.mem_of_getElem? h)
    cases hnone
  rw [sifted_origins, List.getElem?_append_left (by simpa using hlt), List.getElem?_map,
    List.getElem?_eq_getElem hlt, Option.map_some, Option.some.injEq, Option.some.injEq] at h
  have hmem := List.getElem_mem hlt
  rw [List.mem_filter, List.mem_zipIdx_iff_getElem?, h] at hmem
  refine ⟨_, hmem.1, hmem.2, ?_⟩
  rw [← map_fst_sifted, List.getElem?_map, List.getElem?_eq_getElem hlt]
  rfl

theorem exists_sifted_place {keep : EdgeWithProvenance → Bool} {edges : List EdgeWithProvenance}
    {extra i : Nat} {e : EdgeWithProvenance} (hi : edges[i]? = some e) (hkeep : keep e) :
    ∃ p : Nat, (sifted_origins keep edges extra)[p]? = some (some i) := by
  apply List.mem_iff_getElem?.mp
  apply List.mem_append_left
  exact List.mem_map.mpr ⟨(e, i), List.mem_filter.mpr ⟨List.mem_zipIdx_iff_getElem?.mpr hi, hkeep⟩, rfl⟩

/-- The origins of the canonical form of a graph whose own origins are known. -/
def canonical_after (origins : List (Option Nat)) (g : ResolvedGraph) : List (Option Nat) :=
  (canonical_origins g).map fun p => origins[p]?.join

/-- Dropping edges, rewriting the kept ones, appending others and restoring canonical
order: an edge that is kept becomes its rewritten self, up to its id and group. -/
theorem became_sifted_iff {keep : EdgeWithProvenance → Bool} {edges extra : List EdgeWithProvenance}
    {f : EdgeWithProvenance → EdgeWithProvenance} {g : ResolvedGraph}
    (hg : g.edges = (edges.filter keep).map f ++ extra) {e : EdgeWithProvenance} (he : e ∈ edges) :
    (∃ e', Became (canonical_after (sifted_origins keep edges extra.length) g) edges (canonicalize g).edges e e') ↔
      keep e := by
  constructor
  · rintro ⟨e', i, j, hi, hj, _⟩
    rw [canonical_after, List.getElem?_map, Option.map_eq_some_iff] at hj
    obtain ⟨p, _, hp⟩ := hj
    obtain ⟨e'', hi', hkeep, _⟩ := sifted_origin_at (Option.join_eq_some_iff.mp hp)
    rw [hi] at hi'
    cases hi'
    exact hkeep
  · intro hkeep
    obtain ⟨i, hi⟩ := List.mem_iff_getElem?.mp he
    obtain ⟨p, hp⟩ := @exists_sifted_place keep edges extra.length i e hi hkeep
    have hlt : p < g.edges.length := by
      obtain ⟨_, _, _, hfilter⟩ := sifted_origin_at hp
      have hbound := (List.getElem?_eq_some_iff.mp hfilter).1
      rw [hg, List.length_append, List.length_map]
      omega
    obtain ⟨j, hj⟩ := exists_canonical_place hlt
    obtain ⟨_, _, hat⟩ := canonicalize_edge_at hj
    refine ⟨_, i, j, hi, ?_, hat⟩
    rw [canonical_after, List.getElem?_map, hj, Option.map_some, hp]
    rfl

theorem became_sifted_stem {keep : EdgeWithProvenance → Bool} {edges extra : List EdgeWithProvenance}
    {f : EdgeWithProvenance → EdgeWithProvenance} {g : ResolvedGraph}
    (hg : g.edges = (edges.filter keep).map f ++ extra) {e e' : EdgeWithProvenance}
    (h : Became (canonical_after (sifted_origins keep edges extra.length) g) edges (canonicalize g).edges e e') :
    keep e ∧ ∃ j, e' = number_at j (regroup (canonical_numbering g) (f e)) := by
  obtain ⟨i, j, hi, hj, he'⟩ := h
  rw [canonical_after, List.getElem?_map, Option.map_eq_some_iff] at hj
  obtain ⟨p, hplace, hp⟩ := hj
  obtain ⟨e'', hi', hkeep, hfilter⟩ := sifted_origin_at (Option.join_eq_some_iff.mp hp)
  rw [hi] at hi'
  cases hi'
  obtain ⟨w, hw, hat⟩ := canonicalize_edge_at hplace
  have hlt : p < ((edges.filter keep).map f).length := by
    rw [List.length_map]
    exact (List.getElem?_eq_some_iff.mp hfilter).1
  rw [hg, List.getElem?_append_left hlt, List.getElem?_map, hfilter] at hw
  cases hw
  rw [he'] at hat
  exact ⟨hkeep, j, Option.some.inj hat⟩

end cgx.resolve
