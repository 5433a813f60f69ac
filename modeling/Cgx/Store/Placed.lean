import Mathlib.Data.List.Dedup
import Cgx.Store.Canonical

open cgx.core sorting buckets results Std

namespace cgx.store

/-! ### Stable keys -/

theorem stable_keys_from_ok {hasher : String → UInt32 → UInt64} {fqns : List String}
    {seen final : List (String × UInt64)} (hseen : (seen.map Prod.snd).Nodup)
    (h : stable_keys_from hasher seen fqns = .ok final) :
    (final.map Prod.snd).Nodup ∧ final.length = seen.length + fqns.length := by
  induction fqns generalizing seen with
  | nil =>
    cases h
    exact ⟨hseen, rfl⟩
  | cons fqn rest ih =>
    rw [stable_keys_from] at h
    split at h
    · cases h
    · rename_i hnone
      have hnew : hasher fqn (UInt32.ofNat ((seen.map Prod.fst).count fqn)) ∉ seen.map Prod.snd := by
        intro hmem
        obtain ⟨prev, hprev, heq⟩ := List.mem_map.mp hmem
        have hne := List.find?_eq_none.mp hnone prev hprev
        simp [heq] at hne
      obtain ⟨hnodup, hlen⟩ := ih (by
        rw [List.map_append, List.map_singleton]
        exact List.nodup_append.mpr ⟨hseen, List.nodup_singleton _, by
          intro a ha b hb
          rw [List.mem_singleton.mp hb]
          intro heq
          rw [heq] at ha
          exact hnew ha⟩) h
      refine ⟨hnodup, ?_⟩
      rw [hlen, List.length_append, List.length_singleton, List.length_cons]
      omega

/-- Accepted stable keys are distinct, one for each node. -/
theorem stable_keys_ok {hasher : String → UInt32 → UInt64} {fqns : List String} {sk : List UInt64}
    (h : stable_keys hasher fqns = .ok sk) : sk.Nodup ∧ sk.length = fqns.length := by
  rw [stable_keys] at h
  cases hfrom : stable_keys_from hasher [] fqns with
  | error e =>
    rw [hfrom] at h
    cases h
  | ok final =>
    rw [hfrom] at h
    cases h
    obtain ⟨hnodup, hlen⟩ := stable_keys_from_ok (by simp) hfrom
    exact ⟨hnodup, by simpa using hlen⟩

/-- A stable key finds its node again. -/
theorem resolve_stable_key {sk : List UInt64} (hnodup : sk.Nodup) {id : NodeId}
    (hlt : id.index < sk.length) : resolve sk sk[id.index]! = some id := by
  have hfind : sk.findIdx? (· = sk[id.index]!) = some id.index := by
    rw [List.findIdx?_eq_some_iff_getElem]
    refine ⟨hlt, by simp [hlt], ?_⟩
    intro j hj heq
    rw [getElem!_pos sk id.index hlt, decide_eq_true_iff] at heq
    have := (List.Nodup.getElem_inj_iff hnodup).mp heq
    omega
  rw [resolve, hfind, Option.map_some, Option.some.injEq]
  apply NodeId.ext_index
  exact NodeId.index_ofIndex id.index_lt

/-! ### Shard keys -/

namespace LinkedGraph

variable (g : LinkedGraph)

/-- The shard of a key. -/
def shard_of (key : String) : Nat :=
  g.shard_keys.idxOf key

theorem nodup_shard_keys : g.shard_keys.Nodup :=
  (perm_sort_by _).nodup_iff.mpr (List.nodup_dedup _)

theorem mem_shard_keys {key : String} : key ∈ g.shard_keys ↔ key ∈ g.keys := by
  rw [shard_keys, mem_sort_by, List.mem_dedup]

variable {g}

theorem shard_of_lt {key : String} (h : key ∈ g.keys) : g.shard_of key < g.shard_keys.length :=
  List.idxOf_lt_length_of_mem (g.mem_shard_keys.mpr h)

theorem shard_of_eq_iff {key : String} (h : key ∈ g.keys) {si : Nat} (hsi : si < g.shard_keys.length) :
    g.shard_of key = si ↔ key = g.shard_keys[si] := by
  constructor
  · intro heq
    have hat := List.getElem_idxOf (shard_of_lt h)
    rw [← hat]
    congr 1
  · intro heq
    rw [heq]
    exact g.nodup_shard_keys.idxOf_getElem si hsi

theorem shard_of_inj {a b : String} (ha : a ∈ g.keys) (hb : b ∈ g.keys)
    (h : g.shard_of a = g.shard_of b) : a = b := by
  have hlt := shard_of_lt hb
  rw [(shard_of_eq_iff ha hlt).mp h]
  exact ((shard_of_eq_iff hb hlt).mp rfl).symm

theorem node_key_mem {n : NodeRecord} (h : n ∈ g.nodes) : g.node_key n ∈ g.keys :=
  List.mem_map_of_mem h

theorem key_at_mem {id : NodeId} (h : id.index < g.nodes.length) : g.key_at id ∈ g.keys := by
  have hlt : id.index < g.keys.length := by rwa [keys, List.length_map]
  rw [key_at, getElem!_pos g.keys id.index hlt]
  exact List.getElem_mem hlt

end LinkedGraph

/-! ### The nodes come back -/

section

variable {g : LinkedGraph} {sk : List UInt64} {shards : List (String × Shard)}

namespace LinkedGraph

/-- The nodes with their places in the shards. -/
def placed_nodes (g : LinkedGraph) : List (Place × NodeRecord) :=
  places (fun n => g.shard_of (g.node_key n)) g.nodes

/-- The nodes of one shard, with their places. -/
theorem placed_nodes_filter {si : Nat} (hsi : si < g.shard_keys.length) :
    g.placed_nodes.filter (fun t => t.1.1 = si) =
      (g.nodes.filter fun n => g.node_key n = g.shard_keys[si]).mapIdx fun li n => ((si, li), n) := by
  rw [placed_nodes, places_filter]
  congr 1
  apply List.filter_congr
  intro n hn
  rw [decide_eq_decide]
  exact shard_of_eq_iff (node_key_mem hn) hsi

end LinkedGraph

def store_tagged (t : Place × NodeRecord) : Place × StoredNode :=
  (t.1, .of t.2)

/-- The shards of `g`, under any names. -/
def ShardsOf (g : LinkedGraph) (sk : List UInt64) (shards : List (String × Shard)) : Prop :=
  shards.map Prod.snd = g.shard_keys.map (g.shard sk)

theorem ShardsOf.length (h : ShardsOf g sk shards) : shards.length = g.shard_keys.length := by
  have hlen := congrArg List.length h
  simpa using hlen

theorem ShardsOf.shard_at (h : ShardsOf g sk shards) {si : Nat} (hsi : si < g.shard_keys.length) :
    ∃ oid, shards[si]? = some (oid, g.shard sk g.shard_keys[si]) := by
  have hat := congrArg (fun l => l[si]?) h
  simp only [List.getElem?_map, List.getElem?_eq_getElem hsi, Option.map_some] at hat
  obtain ⟨⟨oid, sh⟩, hsh, heq⟩ := Option.map_eq_some_iff.mp hat
  exact ⟨oid, by rw [hsh, ← heq]⟩

/-- Reading the shards one after the other reads the buckets of the nodes. -/
theorem shard_places_eq (h : ShardsOf g sk shards) :
    shard_places shards =
      (concat (fun t => t.1.1) g.shard_keys.length g.placed_nodes).map store_tagged := by
  rw [shard_places, concat, List.map_flatMap, List.flatMap]
  congr 1
  apply List.ext_getElem?
  intro si
  by_cases hsi : si < g.shard_keys.length
  · obtain ⟨oid, hat⟩ := h.shard_at hsi
    rw [List.getElem?_mapIdx, List.getElem?_map, List.getElem?_range hsi, hat, Option.map_some,
      Option.map_some, LinkedGraph.placed_nodes_filter hsi, LinkedGraph.shard]
    congr 1
    apply List.ext_getElem?
    intro li
    simp only [List.getElem?_mapIdx, List.getElem?_map, Option.map_map]
    rfl
  · rw [List.getElem?_eq_none (by simpa [h.length] using hsi),
      List.getElem?_eq_none (by simpa using hsi)]

theorem pairwise_placed_nodes (hcanon : Canonical g) :
    g.placed_nodes.Pairwise fun a b => (node_cmp a.2 b.2).isLE := by
  have hsorted := hcanon.nodes_sorted
  rw [← places_map_snd (fun n => g.shard_of (g.node_key n)) g.nodes] at hsorted
  exact List.pairwise_map.mp hsorted

instance : TransCmp fun a b : Place × NodeRecord => node_cmp a.2 b.2 :=
  trans_on node_cmp Prod.snd

theorem fqn_eq_of_node_cmp {a b : NodeRecord} (h : node_cmp a b = .eq) : a.fqn = b.fqn := by
  rw [node_cmp, compareLex_eq_eq, compareLex_eq_eq] at h
  exact LawfulEqCmp.eq_of_compare h.2.2

/-- The nodes are read in their canonical order, with their places. -/
theorem node_order_eq (hcanon : Canonical g) (h : ShardsOf g sk shards) :
    node_order shards = g.placed_nodes.map store_tagged := by
  have hmap : ∀ l : List (Place × NodeRecord),
      (sort_by (fun a b => node_cmp a.2 b.2) l).map store_tagged =
        sort_by (fun a b => stored_cmp a.2 b.2) (l.map store_tagged) :=
    map_sort_by store_tagged fun _ _ => rfl
  rw [node_order, shard_places_eq h, ← hmap]
  congr 1
  have hplace : ∀ t ∈ g.placed_nodes, t.1.1 = g.shard_of (g.node_key t.2) ∧ t.2 ∈ g.nodes := by
    intro t ht
    obtain ⟨i, hi, rfl⟩ := List.mem_mapIdx.mp ht
    exact ⟨rfl, List.getElem_mem hi⟩
  apply sort_by_concat (pairwise_placed_nodes hcanon)
  · intro t ht
    rw [(hplace t ht).1]
    exact LinkedGraph.shard_of_lt (LinkedGraph.node_key_mem (hplace t ht).2)
  · intro a ha b hb hab
    rw [(hplace a ha).1, (hplace b hb).1, LinkedGraph.node_key, LinkedGraph.node_key,
      fqn_eq_of_node_cmp hab]

theorem placed_nodes_getElem? {i : Nat} {n : NodeRecord} (h : g.nodes[i]? = some n) :
    g.placed_nodes[i]? =
      some ((g.shard_of (g.node_key n), ordinal (g.nodes.map fun n => g.shard_of (g.node_key n)) i), n) := by
  rw [LinkedGraph.placed_nodes, places, List.getElem?_mapIdx, h]
  rfl

/-- The nodes come back with their ids. -/
theorem read_nodes (hcanon : Canonical g) (h : ShardsOf g sk shards) :
    ((node_order shards).mapIdx fun i t => t.2.into_record (.ofIndex i)) = g.nodes := by
  rw [node_order_eq hcanon h]
  apply List.ext_getElem?
  intro i
  rw [List.getElem?_mapIdx, List.getElem?_map]
  cases hi : g.nodes[i]? with
  | none =>
    have hlen := List.getElem?_eq_none_iff.mp hi
    have hnone : g.placed_nodes[i]? = none := by
      rw [List.getElem?_eq_none_iff, LinkedGraph.placed_nodes, places, List.length_mapIdx]
      exact hlen
    rw [hnone]
    rfl
  | some n =>
    have hlt := (List.getElem?_eq_some_iff.mp hi).1
    have hid : NodeId.ofIndex i = n.id := by
      apply NodeId.ext_index
      have hbound := hcanon.nodes_length
      rw [NodeId.index_ofIndex (by omega), hcanon.node_ids i n hi]
    rw [placed_nodes_getElem? hi, Option.map_some, Option.map_some, hid]
    rfl

/-- The stable keys of the nodes read are those of the nodes written. -/
theorem read_fqns (hcanon : Canonical g) (h : ShardsOf g sk shards) :
    ((node_order shards).map fun t => t.2.fqn) = g.nodes.map NodeRecord.fqn := by
  have hnodes := places_map_snd (fun n => g.shard_of (g.node_key n)) g.nodes
  conv_rhs => rw [← hnodes]
  rw [node_order_eq hcanon h, List.map_map, List.map_map]
  rfl

/-- The place of a node in its shard leads back to its id. -/
theorem dense_local_index (hcanon : Canonical g) (h : ShardsOf g sk shards) {id : NodeId}
    (hid : id.index < g.nodes.length) :
    dense (node_order shards) (g.shard_of (g.key_at id), (g.local_index id).toNat) = some id := by
  have hn := List.getElem?_eq_getElem hid
  have hlt : id.index < g.keys.length := by rwa [LinkedGraph.keys, List.length_map]
  have hkey : g.key_at id = g.node_key g.nodes[id.index] := by
    rw [LinkedGraph.key_at, getElem!_pos g.keys id.index hlt]
    simp [LinkedGraph.keys]
  have hordinal : ordinal (g.nodes.map fun n => g.shard_of (g.node_key n)) id.index =
      (g.local_index id).toNat := by
    have hmap : (g.nodes.map fun n => g.shard_of (g.node_key n)) = g.keys.map g.shard_of := by
      rw [LinkedGraph.keys, List.map_map]
      rfl
    have hle := ordinal_le g.keys id.index
    have hbound := id.index_lt
    rw [hmap, ordinal_map fun a ha b hb => LinkedGraph.shard_of_inj ha hb, LinkedGraph.local_index,
      UInt32.toNat_ofNat_of_lt' (by rw [UInt32.size]; omega)]
  have hfind := places_find (placed_nodes_getElem? hn)
  rw [hordinal, ← hkey] at hfind
  rw [node_order_eq hcanon h, dense, List.findIdx?_map]
  have hsame : ((fun t : Place × StoredNode =>
      decide (t.1 = (g.shard_of (g.key_at id), (g.local_index id).toNat))) ∘ store_tagged) =
        fun t => decide (t.1 = (g.shard_of (g.key_at id), (g.local_index id).toNat)) := rfl
  rw [hsame, LinkedGraph.placed_nodes, hfind, Option.map_some, Option.some.injEq]
  apply NodeId.ext_index
  exact NodeId.index_ofIndex id.index_lt

end

end cgx.store
