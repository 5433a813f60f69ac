import Cgx.Store.Placed

open cgx.core sorting buckets results Std

namespace cgx.store

/-! ### Candidate groups -/

theorem mem_foldl_push_group {edges : List EdgeRecord} {seen : List NodeId} {id : NodeId}
    (h : id ∈ edges.foldl push_group seen) : id ∈ seen ∨ ∃ e ∈ edges, e.src = id := by
  induction edges generalizing seen with
  | nil => exact .inl h
  | cons e rest ih =>
    rcases ih h with hpush | ⟨e', he', hsrc⟩
    · rw [push_group] at hpush
      split at hpush
      · split at hpush
        · rcases List.mem_append.mp hpush with hseen | hnew
          · exact .inl hseen
          · exact .inr ⟨e, List.mem_cons_self, (List.mem_singleton.mp hnew).symm⟩
        · exact .inl hpush
      · exact .inl hpush
    · exact .inr ⟨e', List.mem_cons_of_mem e he', hsrc⟩

/-- There are at most as many groups as edges that carry one. -/
theorem length_foldl_push_group (edges : List EdgeRecord) (seen : List NodeId) :
    (edges.foldl push_group seen).length ≤
      seen.length + edges.countP fun e => e.candidate_group.isSome := by
  induction edges generalizing seen with
  | nil => simp
  | cons e rest ih =>
    have hrest := ih (push_group seen e)
    have hpush : (push_group seen e).length ≤ seen.length + if e.candidate_group.isSome then 1 else 0 := by
      rw [push_group]
      cases e.candidate_group with
      | none => simp
      | some gr =>
        simp only [Option.isSome_some, if_true]
        split <;> simp
    rw [List.foldl_cons, List.countP_cons]
    omega

namespace LinkedGraph

variable {g : LinkedGraph}

/-- Where a group stands: the shard of its source, and its number there. -/
def group_place (g : LinkedGraph) (gr : Nat) : Place :=
  (g.shard_of g.group_keys[gr]!, ordinal g.group_keys gr)

theorem local_group_toNat (g : LinkedGraph) (gr : UInt32) :
    (g.local_group gr).toNat = ordinal g.group_keys gr.toNat := by
  have hle := ordinal_le g.group_keys gr.toNat
  have hlt := gr.toNat_lt
  rw [local_group, UInt32.toNat_ofNat_of_lt' (by rw [UInt32.size]; omega)]

theorem group_keys_length (g : LinkedGraph) : g.group_keys.length = g.group_sources.length := by
  rw [group_keys, List.length_map]

/-- A group has the key of the source of each of its edges. -/
theorem group_key_of_edge (hcanon : Canonical g) {e : EdgeRecord} (he : e ∈ g.edges) {gr : UInt32}
    (hgr : e.candidate_group = some gr) : g.group_keys[gr.toNat]? = some (g.key_at e.src) := by
  rw [group_keys, List.getElem?_map, group_sources, hcanon.groups.source he hgr]
  rfl

theorem group_key_mem (hcanon : Canonical g) {gr : Nat} (hgr : gr < g.group_sources.length) :
    g.group_keys[gr]! ∈ g.keys := by
  rw [getElem!_pos g.group_keys gr (by rwa [group_keys_length])]
  simp only [group_keys, List.getElem_map]
  apply key_at_mem
  rcases mem_foldl_push_group (List.getElem_mem hgr) with hnil | ⟨e, he, hsrc⟩
  · cases hnil
  · rw [← hsrc]
    exact (hcanon.edge_ends e he).1

/-- Groups at one place are one group. -/
theorem group_place_inj (hcanon : Canonical g) {a b : Nat} (ha : a < g.group_sources.length)
    (hb : b < g.group_sources.length) (h : g.group_place a = g.group_place b) : a = b := by
  rw [group_place, group_place, Prod.mk.injEq] at h
  have hkey := shard_of_inj (group_key_mem hcanon ha) (group_key_mem hcanon hb) h.1
  rw [← group_keys_length] at ha hb
  rw [getElem!_pos g.group_keys a ha, getElem!_pos g.group_keys b hb] at hkey
  exact ordinal_inj (by rw [List.getElem?_eq_getElem ha, hkey]) (List.getElem?_eq_getElem hb) h.2

theorem shard_keys_length_le (g : LinkedGraph) : g.shard_keys.length ≤ g.nodes.length := by
  rw [shard_keys, length_sort_by]
  have hle := (List.dedup_sublist g.keys).length_le
  rwa [keys, List.length_map] at hle

/-- The parts of a group's place fit their fields. -/
theorem group_place_lt (hcanon : Canonical g) {e : EdgeRecord} (he : e ∈ g.edges) {gr : UInt32}
    (hgr : e.candidate_group = some gr) :
    (g.group_place gr.toNat).1 < 2 ^ 32 ∧ (g.group_place gr.toNat).2 < 2 ^ 32 := by
  have hlt := (List.getElem?_eq_some_iff.mp (hcanon.groups.source he hgr)).1
  have hshard := shard_of_lt (group_key_mem hcanon hlt)
  have hkeys := g.shard_keys_length_le
  have hnodes := hcanon.nodes_length
  have hnum := ordinal_le g.group_keys gr.toNat
  have hgr := gr.toNat_lt
  exact ⟨by rw [group_place]; omega, by rw [group_place]; omega⟩

/-- Ungrouped edges leave the largest group number unused. -/
theorem group_sources_length_lt (hcanon : Canonical g) {e : EdgeRecord} (he : e ∈ g.edges)
    (hnone : e.candidate_group = none) : g.group_sources.length < 2 ^ 32 := by
  have hle := length_foldl_push_group g.edges []
  have hbound := hcanon.edges_length
  have hcount : (g.edges.countP fun e => e.candidate_group.isSome) < g.edges.length := by
    apply Nat.lt_of_le_of_ne List.countP_le_length
    intro heq
    have hsome := List.countP_eq_length.mp heq e he
    simp [hnone] at hsome
  rw [group_sources]
  simp only [List.length_nil] at hle
  omega

/-! ### The edges come back -/

/-- An edge as it is read from its shard, before groups and ids are numbered. -/
def read_back (g : LinkedGraph) (e : EdgeRecord) : Option Place × EdgeRecord :=
  (e.candidate_group.map fun gr => g.group_place gr.toNat, { e with id := ⟨0⟩, candidate_group := none })

/-- The shard an edge goes to. -/
def edge_shard (g : LinkedGraph) (e : EdgeRecord) : Nat :=
  g.shard_of (g.key_at e.src)

theorem edge_shard_lt (hcanon : Canonical g) {e : EdgeRecord} (he : e ∈ g.edges) :
    g.edge_shard e < g.shard_keys.length :=
  shard_of_lt (key_at_mem (hcanon.edge_ends e he).1)

end LinkedGraph

theorem edge_cmp_eq (a b : EdgeRecord) :
    edge_cmp a b = (edge_stem_cmp a b).then
      (compare (a.candidate_group.getD 4294967295) (b.candidate_group.getD 4294967295)) := by
  simp only [edge_cmp, edge_stem_cmp, compareLex, compareOn, Ordering.then_assoc]

theorem NodeId.eq_of_raw {a b : NodeId} (h : a.raw = b.raw) : a = b := by
  cases a
  cases b
  exact congrArg NodeId.mk h

theorem src_eq_of_stem {a b : EdgeRecord} (h : edge_stem_cmp a b = .eq) : a.src = b.src := by
  rw [edge_stem_cmp, compareLex_eq_eq] at h
  exact NodeId.eq_of_raw (LawfulEqCmp.eq_of_compare h.1)

instance : TransCmp edge_stem_cmp :=
  inferInstanceAs (TransCmp (compareLex _ (compareLex _ (compareLex _ _))))

instance : TransCmp group_cmp :=
  inferInstanceAs (TransCmp (compareLex _ _))

instance : TransCmp placed_edge_cmp :=
  have := trans_on edge_stem_cmp fun t : Option Place × EdgeRecord => t.2
  have := trans_on group_cmp fun t : Option Place × EdgeRecord => t.1
  inferInstanceAs (TransCmp (compareLex _ _))

theorem isLE_then {a b : Ordering} (ha : a.isLE) (hb : b.isLE) : (a.then b).isLE := by
  cases a
  · rfl
  · exact hb
  · cases ha

theorem group_cmp_some (a b : Place) :
    group_cmp (some a) (some b) = (compare a.1 b.1).then (compare a.2 b.2) := rfl

theorem group_cmp_some_none (a : Place) :
    group_cmp (some a) none = (compare a.1 4294967295).then (compare a.2 4294967295) := rfl

namespace LinkedGraph

variable {g : LinkedGraph}

/-- Among the edges of one source, local group numbers are ordered like the numbers
in the graph. -/
theorem group_cmp_isLE (hcanon : Canonical g) {a b : EdgeRecord} (ha : a ∈ g.edges) (hb : b ∈ g.edges)
    (hsrc : a.src = b.src)
    (h : (compare (a.candidate_group.getD 4294967295) (b.candidate_group.getD 4294967295)).isLE) :
    (group_cmp (g.read_back a).1 (g.read_back b).1).isLE := by
  rw [isLE_compare, UInt32.le_iff_toNat_le] at h
  cases hga : a.candidate_group with
  | none =>
    cases hgb : b.candidate_group with
    | none => simp [read_back, hga, hgb, group_cmp, compareLex, compareOn]
    | some gr =>
      -- A group numbered like "no group" needs more groups than there can be edges.
      have hlen := group_sources_length_lt hcanon ha hga
      have hlt := (List.getElem?_eq_some_iff.mp (hcanon.groups.source hb hgb)).1
      have hlt : gr.toNat < g.group_sources.length := hlt
      simp only [hga, hgb, Option.getD_none, Option.getD_some] at h
      have hmax : (4294967295 : UInt32).toNat = 4294967295 := rfl
      omega
  | some gr =>
    cases hgb : b.candidate_group with
    | none =>
      simp only [read_back, hga, hgb, Option.map_some, Option.map_none, group_cmp_some_none]
      obtain ⟨hshard, hnum⟩ := group_place_lt hcanon ha hga
      exact isLE_then (isLE_compare.mpr (by omega)) (isLE_compare.mpr (by omega))
    | some gr' =>
      simp only [hga, hgb, Option.getD_some] at h
      have hka := group_key_of_edge hcanon ha hga
      have hkb := group_key_of_edge hcanon hb hgb
      rw [← hsrc] at hkb
      have hkeys : g.group_keys[gr.toNat]! = g.group_keys[gr'.toNat]! := by
        rw [List.getElem!_eq_getElem?_getD, List.getElem!_eq_getElem?_getD, hka, hkb]
      have hordinal : ordinal g.group_keys gr.toNat ≤ ordinal g.group_keys gr'.toNat := by
        rcases Nat.lt_or_eq_of_le h with hlt | heq
        · exact Nat.le_of_lt (ordinal_lt hlt hka hkb)
        · rw [heq]
      simp only [read_back, hga, hgb, Option.map_some, group_cmp_some, group_place, hkeys]
      rw [Nat.compare_eq_eq.mpr rfl]
      exact isLE_compare.mpr hordinal

theorem pairwise_read_back (hcanon : Canonical g) :
    g.edges.Pairwise fun a b => (placed_edge_cmp (g.read_back a) (g.read_back b)).isLE := by
  apply hcanon.edges_sorted.imp_of_mem
  intro a b ha hb hab
  rw [edge_cmp_eq, Ordering.isLE_then_iff_or] at hab
  have hplaced : placed_edge_cmp (g.read_back a) (g.read_back b) =
      (edge_stem_cmp a b).then (group_cmp (g.read_back a).1 (g.read_back b).1) := rfl
  rw [hplaced, Ordering.isLE_then_iff_or]
  rcases hab with hlt | ⟨heq, hgroup⟩
  · exact .inl hlt
  · exact .inr ⟨heq, group_cmp_isLE hcanon ha hb (src_eq_of_stem heq) hgroup⟩

/-- Sorting what the shards hold puts the edges in canonical order. -/
theorem sort_read_back (hcanon : Canonical g) :
    sort_by placed_edge_cmp ((concat g.edge_shard g.shard_keys.length g.edges).map g.read_back) =
      g.edges.map g.read_back := by
  have htrans := trans_on placed_edge_cmp g.read_back
  rw [← map_sort_by g.read_back fun _ _ => rfl]
  congr 1
  apply sort_by_concat (pairwise_read_back hcanon) fun e he => edge_shard_lt hcanon he
  intro a _ b _ hab
  have hstem : edge_stem_cmp a b = .eq := (Ordering.then_eq_eq.mp hab).1
  rw [edge_shard, edge_shard, src_eq_of_stem hstem]

end LinkedGraph

end cgx.store
