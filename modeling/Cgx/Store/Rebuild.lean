import Cgx.Store.RoundTrip

open cgx.core sorting buckets results Std

namespace cgx.store

section

variable {g : LinkedGraph} {sk : List UInt64} {shards : List (String × Shard)}

/-! ### Reading one shard -/

theorem read_edge_ok (hcanon : Canonical g) (h : ShardsOf g sk shards) (hnodup : sk.Nodup)
    (hlen : sk.length = g.nodes.length) {e : EdgeRecord} (he : e ∈ g.edges) (oid : String) :
    read_edge (node_order shards) sk (g.edge_shard e) oid (g.stored_edge sk e) =
      .ok (g.read_back e) := by
  obtain ⟨hsrc, hdst⟩ := hcanon.edge_ends e he
  have hdense : dense (node_order shards) (g.edge_shard e, (g.stored_edge sk e).src.toNat) = some e.src :=
    dense_local_index hcanon h hsrc
  have hresolve : resolve sk (g.stored_edge sk e).dst = some e.dst :=
    resolve_stable_key hnodup (by omega)
  have hgroup : ((g.stored_edge sk e).candidate_group.map fun gr => (g.edge_shard e, gr.toNat)) =
      e.candidate_group.map fun gr => g.group_place gr.toNat := by
    cases hgr : e.candidate_group with
    | none => simp [LinkedGraph.stored_edge, StoredEdge.of, hgr]
    | some gr =>
      have hkey := LinkedGraph.group_key_of_edge hcanon he hgr
      simp only [LinkedGraph.stored_edge, StoredEdge.of, hgr, Option.map_some, LinkedGraph.group_place,
        LinkedGraph.local_group_toNat, LinkedGraph.edge_shard, List.getElem!_eq_getElem?_getD, hkey,
        Option.getD_some]
  rw [read_edge, hdense, hresolve]
  simp only [hgroup]
  rfl

namespace LinkedGraph

/-- A candidate row as it is read from its shard, before its group is numbered. -/
def row_back (g : LinkedGraph) (c : Candidate) : Place × NodeId × UInt32 :=
  (g.group_place c.candidate_group.toNat, c.dst, c.rank)

/-- The shard a candidate row goes to. -/
def candidate_shard (g : LinkedGraph) (c : Candidate) : Nat :=
  g.shard_of g.group_keys[c.candidate_group.toNat]!

theorem candidate_shard_lt (hcanon : Canonical g) {c : Candidate} (hc : c ∈ g.candidates) :
    g.candidate_shard c < g.shard_keys.length :=
  shard_of_lt (group_key_mem hcanon (hcanon.candidate_ends c hc).1)

end LinkedGraph

theorem read_candidate_ok (hcanon : Canonical g) (hnodup : sk.Nodup)
    (hlen : sk.length = g.nodes.length) {c : Candidate} (hc : c ∈ g.candidates) (oid : String) :
    read_candidate sk (g.candidate_shard c) oid (g.stored_candidate sk c) = .ok (g.row_back c) := by
  have hdst := (hcanon.candidate_ends c hc).2
  have hresolve : resolve sk (g.stored_candidate sk c).dst = some c.dst :=
    resolve_stable_key hnodup (by omega)
  rw [read_candidate, hresolve]
  simp only [LinkedGraph.stored_candidate, LinkedGraph.local_group_toNat]
  rfl

/-- What one shard holds, as it is read: its edges in order, its rows in some order. -/
theorem read_shard_ok (hcanon : Canonical g) (h : ShardsOf g sk shards) (hnodup : sk.Nodup)
    (hlen : sk.length = g.nodes.length) {si : Nat} {sh : String × Shard} (hsh : shards[si]? = some sh) :
    ∃ rows, read_shard (node_order shards) sk si sh =
        .ok ((g.edges.filter fun e => g.edge_shard e = si).map g.read_back, rows) ∧
      rows.Perm ((g.candidates.filter fun c => g.candidate_shard c = si).map g.row_back) := by
  have hsi : si < g.shard_keys.length := by
    rw [← h.length]
    exact (List.getElem?_eq_some_iff.mp hsh).1
  obtain ⟨oid, hat⟩ := h.shard_at hsi
  rw [hsh, Option.some.injEq] at hat
  subst hat
  have hedges : (g.shard sk g.shard_keys[si]).edges =
      (g.edges.filter fun e => g.edge_shard e = si).map (g.stored_edge sk) := by
    simp only [LinkedGraph.shard]
    congr 1
    apply List.filter_congr
    intro e he
    rw [decide_eq_decide]
    exact (LinkedGraph.shard_of_eq_iff (LinkedGraph.key_at_mem (hcanon.edge_ends e he).1) hsi).symm
  have hrows : (g.shard sk g.shard_keys[si]).candidates.Perm
      ((g.candidates.filter fun c => g.candidate_shard c = si).map (g.stored_candidate sk)) := by
    simp only [LinkedGraph.shard]
    apply (perm_sort_by _).trans
    apply List.Perm.of_eq
    congr 1
    apply List.filter_congr
    intro c hc
    rw [decide_eq_decide]
    have hgroup := (hcanon.candidate_ends c hc).1
    exact (LinkedGraph.shard_of_eq_iff (LinkedGraph.group_key_mem hcanon hgroup) hsi).symm
  have hread_edges : ((g.edges.filter fun e => g.edge_shard e = si).map (g.stored_edge sk)).mapM
      (read_edge (node_order shards) sk si oid) =
        .ok ((g.edges.filter fun e => g.edge_shard e = si).map g.read_back) := by
    apply mapM_map_ok
    intro e he
    obtain ⟨hmem, hei⟩ := List.mem_filter.mp he
    have hei : g.edge_shard e = si := by simpa using hei
    rw [← hei]
    exact read_edge_ok hcanon h hnodup hlen hmem oid
  have hread_rows : ((g.candidates.filter fun c => g.candidate_shard c = si).map
      (g.stored_candidate sk)).mapM (read_candidate sk si oid) =
        .ok ((g.candidates.filter fun c => g.candidate_shard c = si).map g.row_back) := by
    apply mapM_map_ok
    intro c hc
    obtain ⟨hmem, hci⟩ := List.mem_filter.mp hc
    have hci : g.candidate_shard c = si := by simpa using hci
    rw [← hci]
    exact read_candidate_ok hcanon hnodup hlen hmem oid
  obtain ⟨rows, hread, hperm⟩ := mapM_perm hrows.symm hread_rows
  refine ⟨rows, ?_, hperm.symm⟩
  rw [read_shard]
  simp only [hedges, hread_edges, hread]
  rfl

/-! ### Numbering the groups -/

namespace LinkedGraph

/-- The first `n` groups, by place. -/
def group_places (g : LinkedGraph) (n : Nat) : List Place :=
  (List.range n).map g.group_place

theorem group_places_succ (g : LinkedGraph) (n : Nat) :
    g.group_places (n + 1) = g.group_places n ++ [g.group_place n] := by
  simp [group_places, List.range_succ]

theorem nodup_group_places (hcanon : Canonical g) {n : Nat} (hn : n ≤ g.group_sources.length) :
    (g.group_places n).Nodup := by
  apply List.Nodup.map_on _ List.nodup_range
  intro a ha b hb hab
  rw [List.mem_range] at ha hb
  exact group_place_inj hcanon (by omega) (by omega) hab

/-- Groups are found again under their number. -/
theorem idxOf_group_place (hcanon : Canonical g) {n : Nat} (hn : n ≤ g.group_sources.length)
    {gr : Nat} (hgr : gr < n) : (g.group_places n).idxOf (g.group_place gr) = gr := by
  have hlt : gr < (g.group_places n).length := by simpa [group_places] using hgr
  have hat : (g.group_places n)[gr] = g.group_place gr := by simp [group_places]
  rw [← hat]
  exact (nodup_group_places hcanon hn).idxOf_getElem gr hlt

theorem mem_group_places {n gr : Nat} (hgr : gr < n) : g.group_place gr ∈ g.group_places n :=
  List.mem_map_of_mem (List.mem_range.mpr hgr)

theorem not_mem_group_places (hcanon : Canonical g) {n : Nat} (hn : n < g.group_sources.length) :
    g.group_place n ∉ g.group_places n := by
  intro hmem
  obtain ⟨gr, hgr, heq⟩ := List.mem_map.mp hmem
  rw [List.mem_range] at hgr
  have := group_place_inj hcanon (by omega) hn heq
  omega

end LinkedGraph

theorem EdgeRecord.eq_renumbered {e : EdgeRecord} {i : Nat} (hid : e.id.index = i)
    {group : Option UInt32} (hgroup : group = e.candidate_group) :
    { e with id := ⟨UInt32.ofNat i⟩, candidate_group := group } = e := by
  subst hgroup
  have hraw : (⟨UInt32.ofNat i⟩ : EdgeId) = e.id := by
    rw [← hid, EdgeId.index, UInt32.ofNat_toNat]
  rw [hraw]

/-- Numbering groups by first appearance, behind those of `seen`, restores their numbers. -/
theorem number_edges_read_back (hcanon : Canonical g) {edges : List EdgeRecord} {seen : List NodeId}
    {i : Nat} (hgroups : GroupsNumbered seen edges)
    (hids : ∀ (j : Nat) (e : EdgeRecord), edges[j]? = some e → e.id.index = i + j)
    (hle : (edges.foldl push_group seen).length ≤ g.group_sources.length) :
    number_edges i (g.group_places seen.length) (edges.map g.read_back) =
      (edges, g.group_places (edges.foldl push_group seen).length) := by
  induction edges generalizing seen i with
  | nil => rfl
  | cons e rest ih =>
    obtain ⟨hhead, hrest⟩ := hgroups
    have hid : e.id.index = i := hids 0 e rfl
    have hpush : (push_group seen e).length ≤ g.group_sources.length :=
      (foldl_push_group_grows rest (push_group seen e)).length_le.trans hle
    have hnext := ih hrest (i := i + 1) (by
      intro j m hm
      have := hids (j + 1) m (by simpa using hm)
      omega) hle
    rw [List.map_cons, LinkedGraph.read_back, List.foldl_cons]
    cases hgr : e.candidate_group with
    | none =>
      have hsame : push_group seen e = seen := by rw [push_group, hgr]
      rw [hsame] at hnext ⊢
      simp only [Option.map_none, number_edges, hnext]
      rw [EdgeRecord.eq_renumbered hid hgr.symm]
    | some gr =>
      obtain ⟨hgle, hsrc⟩ := hhead gr hgr
      have hglt := (List.getElem?_eq_some_iff.mp hsrc).1
      have hplaces : (if g.group_place gr.toNat ∈ g.group_places seen.length
          then g.group_places seen.length
          else g.group_places seen.length ++ [g.group_place gr.toNat]) =
            g.group_places (push_group seen e).length := by
        rw [push_group_of_some hgr] at hpush ⊢
        rcases Nat.lt_or_eq_of_le hgle with hlt | heq
        · rw [if_pos (LinkedGraph.mem_group_places hlt), if_neg (by omega)]
        · rw [if_pos heq, List.length_append, List.length_singleton] at hpush
          have hnew := LinkedGraph.not_mem_group_places (n := seen.length) hcanon (by omega)
          rw [if_pos heq, heq, if_neg hnew, List.length_append, List.length_singleton,
            LinkedGraph.group_places_succ]
      simp only [Option.map_some, number_edges, hplaces, hnext]
      rw [EdgeRecord.eq_renumbered hid]
      rw [hgr, LinkedGraph.idxOf_group_place hcanon hpush hglt, UInt32.ofNat_toNat]

theorem number_candidate_ok (hcanon : Canonical g) {c : Candidate} (hc : c ∈ g.candidates) :
    number_candidate shards (g.group_places g.group_sources.length) (g.row_back c) = .ok c := by
  have hgroup := (hcanon.candidate_ends c hc).1
  rw [number_candidate, LinkedGraph.row_back, if_pos (LinkedGraph.mem_group_places hgroup),
    LinkedGraph.idxOf_group_place hcanon (Nat.le_refl _) hgroup, UInt32.ofNat_toNat]

/-! ### The whole graph -/

theorem flatMap_parts {α β γ : Type} {F : α → List β} {G : α → List γ} {l : List α}
    {parts : List (List β × List γ)}
    (h : List.Forall₂ (fun a part => part.1 = F a ∧ part.2.Perm (G a)) l parts) :
    parts.flatMap Prod.fst = l.flatMap F ∧ (parts.flatMap Prod.snd).Perm (l.flatMap G) := by
  induction h with
  | nil => exact ⟨rfl, .refl _⟩
  | cons hpart _ ih =>
    simp only [List.flatMap_cons]
    exact ⟨by rw [hpart.1, ih.1], hpart.2.append ih.2⟩

/-- The shards together hold the edges of `g` in buckets, and its rows in some order. -/
theorem read_shards_ok (hcanon : Canonical g) (h : ShardsOf g sk shards) (hnodup : sk.Nodup)
    (hlen : sk.length = g.nodes.length) :
    ∃ parts, (shards.zipIdx.mapM fun sh => read_shard (node_order shards) sk sh.2 sh.1) = .ok parts ∧
      parts.flatMap Prod.fst =
        (concat g.edge_shard g.shard_keys.length g.edges).map g.read_back ∧
      (parts.flatMap Prod.snd).Perm (g.candidates.map g.row_back) := by
  have hshard : ∀ sh ∈ shards.zipIdx, ∃ part, read_shard (node_order shards) sk sh.2 sh.1 = .ok part ∧
      part.1 = ((g.edges.filter fun e => g.edge_shard e = sh.2).map g.read_back) ∧
        part.2.Perm ((g.candidates.filter fun c => g.candidate_shard c = sh.2).map g.row_back) := by
    intro sh hsh
    have hat := List.mem_zipIdx_iff_getElem?.mp hsh
    obtain ⟨rows, hok, hperm⟩ := read_shard_ok hcanon h hnodup hlen hat
    exact ⟨_, hok, rfl, hperm⟩
  obtain ⟨parts, hparts, hrel⟩ := mapM_forall₂ hshard
  obtain ⟨hedges, hrows⟩ := flatMap_parts hrel
  have hrange : shards.zipIdx.map Prod.snd = List.range g.shard_keys.length := by
    rw [List.zipIdx_map_snd, ← h.length, List.range_eq_range']
  refine ⟨parts, hparts, ?_, ?_⟩
  · rw [hedges, concat, List.map_flatMap, ← hrange, List.flatMap_map]
  · apply hrows.trans
    have hbuckets : (shards.zipIdx.flatMap fun sh =>
        (g.candidates.filter fun c => g.candidate_shard c = sh.2).map g.row_back) =
          (concat g.candidate_shard g.shard_keys.length g.candidates).map g.row_back := by
      rw [concat, List.map_flatMap, ← hrange, List.flatMap_map]
    rw [hbuckets]
    exact (perm_concat fun c hc => LinkedGraph.candidate_shard_lt hcanon hc).map _

theorem Candidate.eq_of_cmp {a b : Candidate} (h : candidate_cmp a b = .eq) : a = b := by
  rw [candidate_cmp, compareLex_eq_eq, compareLex_eq_eq] at h
  obtain ⟨hgroup, hrank, hdst⟩ := h
  cases a
  cases b
  simp only [Candidate.mk.injEq]
  exact ⟨LawfulEqCmp.eq_of_compare hgroup, NodeId.eq_of_raw (LawfulEqCmp.eq_of_compare hdst),
    LawfulEqCmp.eq_of_compare hrank⟩

/-- The shards of an accepted graph rebuild that graph, whatever names they are read under. -/
theorem graph_of_shards_ok {hasher : String → UInt32 → UInt64} (hcanon : Canonical g)
    (hkeys : stable_keys hasher (g.nodes.map NodeRecord.fqn) = .ok sk) (h : ShardsOf g sk shards) :
    graph_of_shards hasher shards = .ok g := by
  obtain ⟨hnodup, hlen⟩ := stable_keys_ok hkeys
  rw [List.length_map] at hlen
  obtain ⟨parts, hparts, hedges, hrows⟩ := read_shards_ok hcanon h hnodup hlen
  have hnumber : number_edges 0 [] (g.edges.map g.read_back) =
      (g.edges, g.group_places g.group_sources.length) :=
    number_edges_read_back hcanon hcanon.groups (by simpa using hcanon.edge_ids) (Nat.le_refl _)
  have hcandidates : (g.candidates.map g.row_back).mapM
      (number_candidate shards (g.group_places g.group_sources.length)) = .ok (g.candidates.map id) :=
    mapM_map_ok fun c hc => number_candidate_ok hcanon hc
  obtain ⟨candidates, hcands, hperm⟩ := mapM_perm hrows.symm hcandidates
  rw [List.map_id] at hperm
  have hsort : sort_by candidate_cmp candidates = g.candidates :=
    sort_by_eq_of_perm (fun a _ b _ => Candidate.eq_of_cmp) hcanon.candidates_sorted hperm.symm
  have hnodes := read_nodes hcanon h
  simp only [graph_of_shards, read_fqns hcanon h, hkeys, except_bind_ok, hparts, hedges,
    LinkedGraph.sort_read_back hcanon, hnumber, hcands, hsort, hnodes]
  rfl

/-- Every shard of a canonical graph passes the reader's check. -/
theorem shard_is_sorted (hcanon : Canonical g) (key : String) : (g.shard sk key).is_sorted = true := by
  rw [Shard.is_sorted, is_sorted_iff]
  simp only [LinkedGraph.shard]
  apply List.pairwise_map.mpr
  exact hcanon.nodes_sorted.filter _

end

end cgx.store
