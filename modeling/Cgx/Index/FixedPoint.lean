import Mathlib.Logic.Equiv.Basic
import Cgx.Lib.Numbering
import Cgx.Lib.SortBy
import Cgx.Index.Canonicalize

open cgx.core cgx.resolve cgx.store sorting numbering Std

namespace cgx.index

/-! ### Groups under other names -/

/-- An edge whose group has another name. -/
def rename_edge (ρ : UInt32 → UInt32) (e : EdgeWithProvenance) : EdgeWithProvenance :=
  { e with edge := { e.edge with candidate_group := e.edge.candidate_group.map ρ } }

/-- A candidate row whose group has another name. -/
def rename_row (ρ : UInt32 → UInt32) (c : Candidate) : Candidate :=
  { c with candidate_group := ρ c.candidate_group }

/-- A graph whose groups have other names. -/
def rename_groups (ρ : UInt32 → UInt32) (g : ResolvedGraph) : ResolvedGraph :=
  { g with edges := g.edges.map (rename_edge ρ), candidates := g.candidates.map (rename_row ρ) }

/-- The groups that edges or rows of a graph belong to. -/
def Grouped (g : ResolvedGraph) (gr : UInt32) : Prop :=
  gr ∈ carried_groups g ∨ gr ∈ g.candidates.map Candidate.candidate_group

theorem mem_canonical_numbering {g : ResolvedGraph} {gr : UInt32} : gr ∈ canonical_numbering g ↔ Grouped g gr := by
  have hnumbering : canonical_numbering g = firsts (carried_groups g) ++
      sort_by compare ((g.candidates.map Candidate.candidate_group).filter
        fun gr => !(firsts (carried_groups g)).contains gr).dedup := rfl
  rw [hnumbering, List.mem_append, mem_firsts, mem_sort_by, List.mem_dedup, List.mem_filter, Grouped]
  simp only [List.contains_eq_mem, mem_firsts, Bool.not_eq_true', decide_eq_false_iff_not]
  constructor
  · rintro (h | ⟨h, _⟩)
    · exact .inl h
    · exact .inr h
  · intro h
    by_cases hcarried : gr ∈ carried_groups g
    · exact .inl hcarried
    · exact .inr ⟨h.resolve_left hcarried, hcarried⟩

/-- The new number of a group. -/
abbrev number (g : ResolvedGraph) : UInt32 → UInt32 :=
  renumbered (canonical_numbering g)

/-- New numbers keep the groups of a graph apart. -/
theorem number_inj {g : ResolvedGraph} {gr gr' : UInt32} (h : Grouped g gr) (h' : Grouped g gr')
    (heq : number g gr = number g gr') : gr = gr' := by
  have hnodup := nodup_canonical_numbering g
  have hnat := congrArg UInt32.toNat heq
  rw [toNat_renumbered_of_mem hnodup (mem_canonical_numbering.mpr h),
    toNat_renumbered_of_mem hnodup (mem_canonical_numbering.mpr h')] at hnat
  exact (List.idxOf_inj (mem_canonical_numbering.mpr h)).mp hnat

/-! ### The canonical form of a canonical form -/

theorem candidates_canonicalize (g : ResolvedGraph) :
    (canonicalize g).candidates = sort_by candidate_cmp (g.candidates.map (rename_row (number g))) := rfl

theorem edges_canonicalize (g : ResolvedGraph) :
    (canonicalize g).edges =
      (sort_by edge_order ((sort_by edge_order g.edges).map (rename_edge (number g)))).mapIdx number_at := rfl

theorem sort_edges_canonicalize (g : ResolvedGraph) :
    sort_by edge_order (canonicalize g).edges = (canonicalize g).edges :=
  sort_by_eq_self (edges_sorted_canonicalize g)

/-- The groups of the canonical form stand behind all lower ones. -/
theorem lower_before_canonicalize (g : ResolvedGraph) : LowerBefore (carried_groups (canonicalize g)) := by
  intro before x after hsplit j hj
  rw [carried_groups, sort_edges_canonicalize, List.filterMap_eq_append_iff] at hsplit
  obtain ⟨front, back, hedges, rfl, hback⟩ := hsplit
  obtain ⟨skipped, e, rest, rfl, hskipped, he, rfl⟩ := List.filterMap_eq_cons_iff.mp hback
  have hsorted := edges_sorted_canonicalize g
  have hmem : e ∈ (canonicalize g).edges := by simp [hedges]
  obtain ⟨below, hbelow, gr', hgr', rfl, hlt⟩ := lower_groups_first_canonicalize g e.edge (List.mem_map_of_mem hmem) x he j hj
  obtain ⟨b, hb, rfl⟩ := List.mem_map.mp hbelow
  refine ⟨gr', List.mem_filterMap.mpr ⟨b, ?_, hgr'⟩, rfl⟩
  -- What is below `e` stands in front of it, and an edge without a group is none of these.
  rw [hedges, List.pairwise_append] at hsorted
  have htail := List.pairwise_append.mp hsorted.2.1
  rw [hedges, List.mem_append, List.mem_append] at hb
  obtain hfront | hskip | hrest := hb
  · exact hfront
  · rw [hskipped b hskip] at hgr'
    cases hgr'
  · have hle : (edge_order e b).isLE := @head_isLE _ edge_order _ _ _ htail.2.1 _ hrest
    exact absurd hlt (isLE_iff_ne_lt.mp hle)

/-- The edgeless groups of a graph, in ascending order. -/
def edgeless_groups (g : ResolvedGraph) : List UInt32 :=
  sort_by compare ((g.candidates.map Candidate.candidate_group).filter
    fun gr => !(firsts (carried_groups g)).contains gr).dedup

theorem canonical_numbering_eq (g : ResolvedGraph) :
    canonical_numbering g = firsts (carried_groups g) ++ edgeless_groups g := rfl

theorem mem_edgeless_groups {g : ResolvedGraph} {gr : UInt32} :
    gr ∈ edgeless_groups g ↔ gr ∈ g.candidates.map Candidate.candidate_group ∧ gr ∉ carried_groups g := by
  rw [edgeless_groups, mem_sort_by, List.mem_dedup, List.mem_filter]
  simp

/-- Edges of the canonical form belong to the new groups of those of the graph. -/
theorem mem_carried_canonicalize {g : ResolvedGraph} {gr : UInt32} :
    gr ∈ carried_groups (canonicalize g) ↔ ∃ old ∈ carried_groups g, number g old = gr := by
  constructor
  · intro h
    obtain ⟨e, he, hgr⟩ := mem_carried_groups.mp h
    obtain ⟨b, hb, j, rfl⟩ := exists_of_mem_canonicalize he
    obtain ⟨old, hold, rfl⟩ := Option.map_eq_some_iff.mp hgr
    exact ⟨old, mem_carried_groups.mpr ⟨b, hb, hold⟩, rfl⟩
  · rintro ⟨old, hold, rfl⟩
    obtain ⟨b, hb, hgr⟩ := mem_carried_groups.mp hold
    obtain ⟨j, hj⟩ := exists_mem_canonicalize hb
    refine mem_carried_groups.mpr ⟨_, hj, ?_⟩
    change b.edge.candidate_group.map _ = _
    rw [hgr]
    rfl

theorem mem_rows_canonicalize {g : ResolvedGraph} {gr : UInt32} :
    gr ∈ (canonicalize g).candidates.map Candidate.candidate_group ↔
      ∃ old ∈ g.candidates.map Candidate.candidate_group, number g old = gr := by
  rw [candidates_canonicalize]
  simp [rename_row]

/-- The groups of the canonical form are the first numbers. -/
theorem grouped_canonicalize {g : ResolvedGraph} {gr : UInt32} :
    Grouped (canonicalize g) gr ↔ gr.toNat < (canonical_numbering g).length := by
  have hnodup := nodup_canonical_numbering g
  rw [Grouped, mem_carried_canonicalize, mem_rows_canonicalize]
  constructor
  · rintro (⟨old, hold, rfl⟩ | ⟨old, hold, rfl⟩)
    · have hmem := mem_canonical_numbering.mpr (.inl hold)
      rw [toNat_renumbered_of_mem hnodup hmem]
      exact List.idxOf_lt_length_of_mem hmem
    · have hmem := mem_canonical_numbering.mpr (.inr hold)
      rw [toNat_renumbered_of_mem hnodup hmem]
      exact List.idxOf_lt_length_of_mem hmem
  · intro hlt
    have hmem := List.getElem_mem hlt
    have hnumber : number g (canonical_numbering g)[gr.toNat] = gr := by
      rw [← UInt32.toNat_inj, toNat_renumbered_of_mem hnodup hmem, hnodup.idxOf_getElem]
    exact (mem_canonical_numbering.mp hmem).imp (fun h => ⟨_, h, hnumber⟩) fun h => ⟨_, h, hnumber⟩

theorem pairwise_counted {n : Nat} (hn : n ≤ 2 ^ 32) : (counted n).Pairwise fun a b => (compare a b).isLE := by
  rw [counted, List.pairwise_map]
  refine List.pairwise_lt_range.imp_of_mem fun {i j} hi hj hlt => ?_
  rw [Std.isLE_compare, UInt32.le_iff_toNat_le,
    UInt32.toNat_ofNat_of_lt' (Nat.lt_of_lt_of_le (List.mem_range.mp hi) hn),
    UInt32.toNat_ofNat_of_lt' (Nat.lt_of_lt_of_le (List.mem_range.mp hj) hn)]
  exact hlt.le

/-- The canonical form numbers its groups as they are. -/
theorem canonical_numbering_canonicalize (g : ResolvedGraph) :
    canonical_numbering (canonicalize g) = counted (canonical_numbering g).length := by
  have hroom := length_le_of_nodup (nodup_canonical_numbering g)
  have hcarried : firsts (carried_groups (canonicalize g)) = counted (firsts (carried_groups (canonicalize g))).length :=
    (lower_before_canonicalize g).firsts_eq
  have hk : (firsts (carried_groups (canonicalize g))).length ≤ 2 ^ 32 := length_le_of_nodup (nodup_firsts _)
  have hsorted : (canonical_numbering (canonicalize g)).Pairwise fun a b => (compare a b).isLE := by
    rw [canonical_numbering_eq, List.pairwise_append]
    refine ⟨?_, pairwise_sort_by _, ?_⟩
    · rw [hcarried]
      exact pairwise_counted hk
    · intro a ha b hb
      have hnot := (mem_edgeless_groups.mp hb).2
      rw [hcarried, mem_counted hk] at ha
      rw [← mem_firsts, hcarried, mem_counted hk] at hnot
      rw [Std.isLE_compare, UInt32.le_iff_toNat_le]
      omega
  have hperm : (canonical_numbering (canonicalize g)).Perm (counted (canonical_numbering g).length) := by
    rw [List.perm_ext_iff_of_nodup (nodup_canonical_numbering _) (nodup_counted hroom)]
    intro gr
    rw [mem_canonical_numbering, grouped_canonicalize, mem_counted hroom]
  rw [← sort_by_eq_self hsorted]
  exact sort_by_eq_of_perm (fun a _ b _ => Std.LawfulEqCmp.eq_of_compare) (pairwise_counted hroom) hperm

/-- So they keep their numbers. -/
theorem number_canonicalize {g : ResolvedGraph} {gr : UInt32} (h : Grouped (canonicalize g) gr) :
    number (canonicalize g) gr = gr := by
  have hroom := length_le_of_nodup (nodup_canonical_numbering g)
  have hidx := idxOf_counted hroom (grouped_canonicalize.mp h)
  rw [← canonical_numbering_canonicalize] at hidx
  rw [number, renumbered, hidx, UInt32.ofNat_toNat]

theorem rename_edge_eq_self {ρ : UInt32 → UInt32} {e : EdgeWithProvenance}
    (h : ∀ gr, e.edge.candidate_group = some gr → ρ gr = gr) : rename_edge ρ e = e := by
  have hgroup : e.edge.candidate_group.map ρ = e.edge.candidate_group := by
    cases hgr : e.edge.candidate_group with
    | none => rfl
    | some gr => rw [Option.map_some, h gr hgr]
  rw [rename_edge, hgroup]

theorem mapIdx_number_at (edges : List EdgeWithProvenance) :
    (edges.mapIdx number_at).mapIdx number_at = edges.mapIdx number_at := by
  rw [List.mapIdx_mapIdx]
  rfl

/-- The canonical form is its own canonical form. -/
theorem canonicalize_canonicalize (g : ResolvedGraph) : canonicalize (canonicalize g) = canonicalize g := by
  have hedges : (canonicalize g).edges.map (rename_edge (number (canonicalize g))) = (canonicalize g).edges := by
    refine (List.map_congr_left fun e he => ?_).trans (List.map_id _)
    exact rename_edge_eq_self fun gr hgr => number_canonicalize (.inl (mem_carried_groups.mpr ⟨e, he, hgr⟩))
  have hrows : (canonicalize g).candidates.map (rename_row (number (canonicalize g))) = (canonicalize g).candidates := by
    refine (List.map_congr_left fun c hc => ?_).trans (List.map_id _)
    have hnumber : number (canonicalize g) c.candidate_group = c.candidate_group :=
      number_canonicalize (.inr (List.mem_map_of_mem hc))
    rw [rename_row, hnumber]
    rfl
  have hedges' : (canonicalize (canonicalize g)).edges = (canonicalize g).edges := by
    rw [edges_canonicalize (canonicalize g), sort_edges_canonicalize, hedges, sort_edges_canonicalize]
    exact mapIdx_number_at _
  have hrows' : (canonicalize (canonicalize g)).candidates = (canonicalize g).candidates := by
    rw [candidates_canonicalize (canonicalize g), hrows]
    exact sort_by_eq_self (pairwise_sort_by _)
  exact congrArg₂ (fun edges candidates => { canonicalize g with edges := edges, candidates := candidates }) hedges' hrows'

/-! ### Groups under names in the same order -/

/-- A renaming that keeps apart all groups, and the order of the groups of each source and
of the groups that no edge carries. -/
structure KeepsOrder (ρ : UInt32 → UInt32) (g : ResolvedGraph) : Prop where
  inj : Function.Injective ρ
  source : ∀ e ∈ g.edges, ∀ e' ∈ g.edges, e.edge.src = e'.edge.src → ∀ gr gr', e.edge.candidate_group = some gr →
    e'.edge.candidate_group = some gr' → gr < gr' → ρ gr < ρ gr'
  edgeless : ∀ gr ∈ edgeless_groups g, ∀ gr' ∈ edgeless_groups g, gr < gr' → ρ gr < ρ gr'

/-- Names that keep their order compare alike. -/
theorem compare_rename {ρ : UInt32 → UInt32} {a b : UInt32} (hab : a < b → ρ a < ρ b) (hba : b < a → ρ b < ρ a) :
    compare (ρ a) (ρ b) = compare a b := by
  rcases lt_trichotomy a b with h | rfl | h
  · rw [Std.compare_eq_lt.mpr h, Std.compare_eq_lt.mpr (hab h)]
  · have hself : ∀ c : UInt32, compare c c = .eq := fun c => ReflCmp.compare_self
    rw [hself, hself]
  · rw [Std.compare_eq_gt.mpr h, Std.compare_eq_gt.mpr (hba h)]

theorem src_eq_of_place {a b : EdgeRecord} (h : place_cmp a b = .eq) : a.src = b.src := by
  simp only [place_cmp, compareLex, Ordering.then_eq_eq, compareOn, Std.compare_eq_iff_eq] at h
  have hraw : a.src.raw = b.src.raw := h.1
  cases hsrc : a.src
  cases hsrc' : b.src
  rw [hsrc, hsrc'] at hraw
  exact congrArg NodeId.mk hraw

theorem edge_order_rename {ρ : UInt32 → UInt32} {g : ResolvedGraph} (h : KeepsOrder ρ g) {a b : EdgeWithProvenance}
    (ha : a ∈ g.edges) (hb : b ∈ g.edges) (hga : a.edge.candidate_group.isSome = true)
    (hgb : b.edge.candidate_group.isSome = true) :
    edge_order (rename_edge ρ a) (rename_edge ρ b) = edge_order a b := by
  obtain ⟨gr, hgr⟩ := Option.isSome_iff_exists.mp hga
  obtain ⟨gr', hgr'⟩ := Option.isSome_iff_exists.mp hgb
  rw [edge_order, edge_cmp_eq_then, edge_order, edge_cmp_eq_then]
  have hplace : place_cmp (rename_edge ρ a).edge (rename_edge ρ b).edge = place_cmp a.edge b.edge := rfl
  rw [hplace]
  cases hcmp : place_cmp a.edge b.edge with
  | lt => rfl
  | gt => rfl
  | eq =>
    have hsrc := src_eq_of_place hcmp
    have hgroups : compare (ρ gr) (ρ gr') = compare gr gr' :=
      compare_rename (h.source a ha b hb hsrc gr gr' hgr hgr') (h.source b hb a ha hsrc.symm gr' gr hgr' hgr)
    change compare ((a.edge.candidate_group.map ρ).getD _) ((b.edge.candidate_group.map ρ).getD _) =
      compare (a.edge.candidate_group.getD _) (b.edge.candidate_group.getD _)
    rw [hgr, hgr']
    exact hgroups

/-- The carried groups in the canonical edge order, under their other names. -/
theorem carried_groups_rename {ρ : UInt32 → UInt32} {g : ResolvedGraph} (h : KeepsOrder ρ g) :
    carried_groups (rename_groups ρ g) = (carried_groups g).map ρ := by
  have hgrouped : ∀ l : List EdgeWithProvenance, (l.filterMap fun e => e.edge.candidate_group) =
      (l.filter fun e => e.edge.candidate_group.isSome).filterMap fun e => e.edge.candidate_group := by
    intro l
    rw [List.filterMap_filter]
    apply List.filterMap_congr
    intro e _
    cases e.edge.candidate_group <;> rfl
  have hsort : sort_by edge_order ((g.edges.filter fun e => e.edge.candidate_group.isSome).map (rename_edge ρ)) =
      (sort_by edge_order (g.edges.filter fun e => e.edge.candidate_group.isSome)).map (rename_edge ρ) := by
    symm
    apply List.map_insertionSort
    intro a ha b hb
    obtain ⟨ha, hga⟩ := List.mem_filter.mp ha
    obtain ⟨hb, hgb⟩ := List.mem_filter.mp hb
    rw [edge_order_rename h ha hb hga hgb]
  have hfilter : (g.edges.map (rename_edge ρ)).filter (fun e => e.edge.candidate_group.isSome) =
      (g.edges.filter fun e => e.edge.candidate_group.isSome).map (rename_edge ρ) := by
    rw [List.filter_map]
    congr 1
    apply List.filter_congr
    intro e _
    exact Option.isSome_map
  rw [carried_groups, carried_groups, hgrouped, filter_sort_by, hgrouped (sort_by edge_order g.edges), filter_sort_by]
  change ((sort_by edge_order ((g.edges.map (rename_edge ρ)).filter _)).filterMap _) = _
  rw [hfilter, hsort, List.filterMap_map, List.map_filterMap]
  rfl

theorem edgeless_groups_rename {ρ : UInt32 → UInt32} {g : ResolvedGraph} (h : KeepsOrder ρ g) :
    edgeless_groups (rename_groups ρ g) = (edgeless_groups g).map ρ := by
  have hrows : (rename_groups ρ g).candidates.map Candidate.candidate_group =
      (g.candidates.map Candidate.candidate_group).map ρ := by
    rw [rename_groups, List.map_map, List.map_map]
    rfl
  have hfilter : ((g.candidates.map Candidate.candidate_group).map ρ).filter
        (fun gr => !(firsts ((carried_groups g).map ρ)).contains gr) =
      ((g.candidates.map Candidate.candidate_group).filter fun gr => !(firsts (carried_groups g)).contains gr).map ρ := by
    rw [List.filter_map]
    congr 1
    apply List.filter_congr
    intro gr _
    simp [h.inj.eq_iff]
  rw [edgeless_groups, carried_groups_rename h, hrows, hfilter, List.dedup_map_of_injective h.inj, edgeless_groups]
  symm
  apply List.map_insertionSort
  intro a ha b hb
  have hmem : ∀ {gr}, gr ∈ ((g.candidates.map Candidate.candidate_group).filter
      fun gr => !(firsts (carried_groups g)).contains gr).dedup → gr ∈ edgeless_groups g := fun hgr => mem_sort_by.mpr hgr
  rw [compare_rename (h.edgeless a (hmem ha) b (hmem hb)) (h.edgeless b (hmem hb) a (hmem ha))]

theorem canonical_numbering_rename {ρ : UInt32 → UInt32} {g : ResolvedGraph} (h : KeepsOrder ρ g) :
    canonical_numbering (rename_groups ρ g) = (canonical_numbering g).map ρ := by
  rw [canonical_numbering_eq, canonical_numbering_eq, carried_groups_rename h, edgeless_groups_rename h,
    firsts_map fun a _ b _ heq => h.inj heq, List.map_append]

theorem number_rename {ρ : UInt32 → UInt32} {g : ResolvedGraph} (h : KeepsOrder ρ g) (gr : UInt32) :
    number (rename_groups ρ g) (ρ gr) = number g gr := by
  rw [number, renumbered, canonical_numbering_rename h, idxOf_map_of_injective h.inj]
  rfl

/-- Some value is left that no group has. -/
def Unused (g : ResolvedGraph) : Prop :=
  ∃ gr, ¬ Grouped g gr

theorem Unused.length_lt {g : ResolvedGraph} (h : Unused g) : (canonical_numbering g).length < 2 ^ 32 := by
  obtain ⟨gr, hgr⟩ := h
  have hnodup : (gr :: canonical_numbering g).Nodup :=
    List.nodup_cons.mpr ⟨fun hmem => hgr (mem_canonical_numbering.mp hmem), nodup_canonical_numbering g⟩
  exact length_le_of_nodup hnodup

/-- Then no group gets the number that stands for none. -/
theorem number_lt {g : ResolvedGraph} (hroom : (canonical_numbering g).length < 2 ^ 32) {gr : UInt32} (h : Grouped g gr) :
    number g gr ≠ 4294967295 := by
  intro heq
  have hmem := mem_canonical_numbering.mpr h
  have hnat := congrArg UInt32.toNat heq
  rw [toNat_renumbered_of_mem (nodup_canonical_numbering g) hmem] at hnat
  have hlt := List.idxOf_lt_length_of_mem hmem
  have hmax : (4294967295 : UInt32).toNat = 2 ^ 32 - 1 := rfl
  omega

/-- Edges that tie under their new groups tied under the old ones. -/
theorem edge_order_of_number {g : ResolvedGraph} (hroom : (canonical_numbering g).length < 2 ^ 32)
    {a b : EdgeWithProvenance} (ha : a ∈ g.edges) (hb : b ∈ g.edges)
    (h : edge_order (rename_edge (number g) a) (rename_edge (number g) b) = .eq) : edge_order a b = .eq := by
  rw [edge_order, edge_cmp_eq_then, Ordering.then_eq_eq] at h ⊢
  obtain ⟨hplace, hgroups⟩ := h
  refine ⟨hplace, ?_⟩
  have hgroups : (a.edge.candidate_group.map (number g)).getD 4294967295 =
      (b.edge.candidate_group.map (number g)).getD 4294967295 := Std.LawfulEqCmp.eq_of_compare hgroups
  have hgrouped : ∀ {e : EdgeWithProvenance}, e ∈ g.edges → ∀ {gr}, e.edge.candidate_group = some gr → Grouped g gr :=
    fun he _ hgr => .inl (mem_carried_groups.mpr ⟨_, he, hgr⟩)
  have hsame : a.edge.candidate_group = b.edge.candidate_group := by
    cases hga : a.edge.candidate_group with
    | none =>
      cases hgb : b.edge.candidate_group with
      | none => rfl
      | some gr' =>
        rw [hga, hgb] at hgroups
        exact absurd hgroups.symm (number_lt hroom (hgrouped hb hgb))
    | some gr =>
      cases hgb : b.edge.candidate_group with
      | none =>
        rw [hga, hgb] at hgroups
        exact absurd hgroups (number_lt hroom (hgrouped ha hga))
      | some gr' =>
        rw [hga, hgb] at hgroups
        rw [number_inj (hgrouped ha hga) (hgrouped hb hgb) hgroups]
  rw [compareOn, hsame]
  exact ReflCmp.compare_self

/-- The first sort only numbers the groups. -/
theorem edges_canonicalize_direct {g : ResolvedGraph} (hroom : (canonical_numbering g).length < 2 ^ 32) :
    (canonicalize g).edges = (sort_by edge_order (g.edges.map (rename_edge (number g)))).mapIdx number_at := by
  rw [edges_canonicalize, sort_by_map_sort_by _ fun a ha b hb h => edge_order_of_number hroom ha hb h]

/-- Other names in the same order make no difference. -/
theorem canonicalize_rename {ρ : UInt32 → UInt32} {g : ResolvedGraph} (h : KeepsOrder ρ g) (hunused : Unused g) :
    canonicalize (rename_groups ρ g) = canonicalize g := by
  have hroom := hunused.length_lt
  have hroom' : (canonical_numbering (rename_groups ρ g)).length < 2 ^ 32 := by
    rwa [canonical_numbering_rename h, List.length_map]
  have hnumber : number (rename_groups ρ g) ∘ ρ = number g := funext fun gr => number_rename h gr
  have hedges : (rename_groups ρ g).edges.map (rename_edge (number (rename_groups ρ g))) =
      g.edges.map (rename_edge (number g)) := by
    rw [rename_groups, List.map_map]
    apply List.map_congr_left
    intro e _
    rw [Function.comp_apply, rename_edge, rename_edge, rename_edge]
    dsimp only
    rw [Option.map_map]
    exact congrArg (fun f : UInt32 → UInt32 => rename_edge f e) hnumber
  have hrows : (rename_groups ρ g).candidates.map (rename_row (number (rename_groups ρ g))) =
      g.candidates.map (rename_row (number g)) := by
    rw [rename_groups, List.map_map]
    apply List.map_congr_left
    intro c _
    exact congrArg (fun f : UInt32 → UInt32 => rename_row f c) hnumber
  have hedges' : (canonicalize (rename_groups ρ g)).edges = (canonicalize g).edges := by
    rw [edges_canonicalize_direct hroom', hedges, edges_canonicalize_direct hroom]
  have hrows' : (canonicalize (rename_groups ρ g)).candidates = (canonicalize g).candidates := by
    rw [candidates_canonicalize (rename_groups ρ g), hrows, candidates_canonicalize]
  exact congrArg₂ (fun edges candidates => { g with edges := edges, candidates := candidates }) hedges' hrows'

/-! ### What canonicalization is -/

theorem perm_edges_canonicalize (g : ResolvedGraph) :
    ((canonicalize g).edges.map (number_at 0)).Perm (g.edges.map fun e => number_at 0 (rename_edge (number g) e)) := by
  have hids : ∀ l : List EdgeWithProvenance, (l.mapIdx number_at).map (number_at 0) = l.map (number_at 0) := by
    intro l
    apply List.ext_getElem?
    intro i
    rw [List.getElem?_map, List.getElem?_mapIdx, List.getElem?_map, Option.map_map]
    rfl
  rw [edges_canonicalize, hids]
  refine ((perm_sort_by _).map _).trans ?_
  rw [List.map_map]
  exact (perm_sort_by _).map _

/-- Canonicalizing is done after one time. It sorts the edges and numbers them by their
places, numbers the groups densely by first appearance, those that only rows have behind
the others, keeps edges and rows of a group together and of different groups apart, and
does not look at the names of the groups but for their order at each source and among those
that only rows have. -/
theorem canonicalize_fixed_point (g : ResolvedGraph) :
    canonicalize (canonicalize g) = canonicalize g ∧
    ((canonicalize g).edges.Pairwise fun a b => (edge_cmp a.edge b.edge).isLE) ∧
    (∀ (i : Nat) (e : EdgeWithProvenance), (canonicalize g).edges[i]? = some e → e.edge.id = ⟨UInt32.ofNat i⟩) ∧
    (∃ k n, firsts ((canonicalize g).edges.filterMap fun e => e.edge.candidate_group) = counted k ∧
      ∀ gr, Grouped (canonicalize g) gr ↔ gr ∈ counted n) ∧
    (∃ ρ : UInt32 → UInt32, (∀ gr gr', Grouped g gr → Grouped g gr' → ρ gr = ρ gr' → gr = gr') ∧
      ((canonicalize g).edges.map (number_at 0)).Perm (g.edges.map fun e => number_at 0 (rename_edge ρ e)) ∧
      (canonicalize g).candidates.Perm (g.candidates.map (rename_row ρ))) ∧
    ∀ ρ, KeepsOrder ρ g → Unused g → canonicalize (rename_groups ρ g) = canonicalize g := by
  refine ⟨canonicalize_canonicalize g, edges_sorted_canonicalize g, ?_, ?_, ?_, fun ρ h hunused => canonicalize_rename h hunused⟩
  · intro i e h
    rw [edges_canonicalize, List.getElem?_mapIdx] at h
    obtain ⟨b, _, rfl⟩ := Option.map_eq_some_iff.mp h
    rfl
  · have hroom := length_le_of_nodup (nodup_canonical_numbering g)
    have hfirsts := (lower_before_canonicalize g).firsts_eq
    rw [carried_groups, sort_edges_canonicalize] at hfirsts
    exact ⟨_, _, hfirsts, fun gr => grouped_canonicalize.trans (mem_counted hroom).symm⟩
  · exact ⟨number g, fun gr gr' h h' heq => number_inj h h' heq, perm_edges_canonicalize g, perm_sort_by _⟩

/-- A graph with two rows whose groups no edge carries. -/
def two_rows : ResolvedGraph :=
  ⟨[], [], [⟨0, ⟨0⟩, 0⟩, ⟨1, ⟨1⟩, 0⟩], []⟩

/-- Swapping the names of two groups that no edge carries changes the canonical form. -/
theorem canonicalize_sees_edgeless_order :
    ¬ ∀ (g : ResolvedGraph) (ρ : UInt32 → UInt32), Function.Injective ρ →
      (∀ e ∈ g.edges, ∀ e' ∈ g.edges, e.edge.src = e'.edge.src → ∀ gr gr', e.edge.candidate_group = some gr →
        e'.edge.candidate_group = some gr' → gr < gr' → ρ gr < ρ gr') →
      canonicalize (rename_groups ρ g) = canonicalize g := by
  intro h
  have hsame := h two_rows (Equiv.swap 0 1) (Equiv.injective _) (by simp [two_rows])
  have hrows := congrArg (fun g => g.candidates.map Candidate.dst) hsame
  revert hrows
  decide +kernel

end cgx.index
