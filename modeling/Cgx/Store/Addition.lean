import Cgx.Store.Put

/-! Adding functions to a stored graph. -/

open cgx.core sorting buckets

namespace cgx.store

/-! ### Shard keys -/

/-- `s` is `fqn` or a `::`-prefix of it. -/
def IsPrefix (s fqn : String) : Prop :=
  s = fqn ∨ ∃ rest, fqn = s ++ "::" ++ rest

theorem IsPrefix.parent {fqn s : String} {before after : List Char} (h : IsPrefix s fqn)
    (hsplit : rsplit_once s.toList = some (before, after)) : IsPrefix (String.ofList before) fqn := by
  have hs : s = String.ofList before ++ "::" ++ String.ofList after := by
    apply String.toList_injective
    rw [(rsplit_once_eq_some hsplit).1]
    simp
  right
  cases h with
  | inl heq => exact ⟨String.ofList after, by rw [← heq, hs]⟩
  | inr hrest =>
    obtain ⟨rest, hrest⟩ := hrest
    exact ⟨String.ofList after ++ "::" ++ rest, by rw [hrest, hs]; simp only [String.append_assoc]⟩

theorem owning_key_from_congr {cs cs' : List String} {fqn : String}
    (h : ∀ s, IsPrefix s fqn → (s ∈ cs ↔ s ∈ cs')) (fuel : Nat) {s : String} (hs : IsPrefix s fqn) :
    owning_key_from cs fqn fuel s = owning_key_from cs' fqn fuel s := by
  induction fuel generalizing s with
  | zero => rfl
  | succ fuel ih =>
    rw [owning_key_from, owning_key_from]
    by_cases hmem : s ∈ cs
    · rw [if_pos hmem, if_pos ((h s hs).mp hmem)]
    · rw [if_neg hmem, if_neg (mt (h s hs).mpr hmem)]
      cases hsplit : rsplit_once s.toList with
      | none => rfl
      | some parts => exact ih (hs.parent hsplit)

/-- The shard key of a name depends on which of its prefixes are callables. -/
theorem owning_key_congr {cs cs' : List String} {fqn : String}
    (h : ∀ s, IsPrefix s fqn → (s ∈ cs ↔ s ∈ cs')) : owning_key fqn cs = owning_key fqn cs' :=
  owning_key_from_congr h _ (.inl rfl)

/-! ### Stable keys -/

theorem stable_keys_from_getElem? {hasher : String → UInt32 → UInt64} (before : List String) {fqns : List String}
    {seen final : List (String × UInt64)} (hseen : seen.map Prod.fst = before)
    (hkeys : ∀ i : Nat, ∀ p, seen[i]? = some p → p.2 = hasher p.1 (UInt32.ofNat (ordinal before i)))
    (h : stable_keys_from hasher seen fqns = .ok final) :
    final.map Prod.fst = before ++ fqns ∧ ∀ i : Nat, ∀ p, final[i]? = some p →
      p.2 = hasher p.1 (UInt32.ofNat (ordinal (before ++ fqns) i)) := by
  induction fqns generalizing before seen with
  | nil =>
    cases h
    rw [List.append_nil]
    exact ⟨hseen, hkeys⟩
  | cons fqn rest ih =>
    rw [stable_keys_from] at h
    split at h
    · cases h
    · rw [List.append_cons]
      refine ih _ (by rw [List.map_append, hseen]; rfl) ?_ h
      intro i p hp
      have hlen : seen.length = before.length := by rw [← hseen, List.length_map]
      rcases Nat.lt_trichotomy i seen.length with hlt | heq | hgt
      · rw [List.getElem?_append_left hlt] at hp
        rw [ordinal_append _ (by omega)]
        exact hkeys i p hp
      · rw [heq, List.getElem?_concat_length] at hp
        cases hp
        rw [heq, hlen, ordinal_of_getElem? List.getElem?_concat_length, List.take_left, hseen]
      · rw [List.getElem?_eq_none (by simp; omega)] at hp
        cases hp

/-- The stable key of a node is hashed from its FQN and its rank among the nodes of that
FQN. -/
theorem stable_keys_getElem? {hasher : String → UInt32 → UInt64} {fqns : List String} {sk : List UInt64}
    (h : stable_keys hasher fqns = .ok sk) {i : Nat} {fqn : String} (hi : fqns[i]? = some fqn) :
    sk[i]? = some (hasher fqn (UInt32.ofNat (ordinal fqns i))) := by
  rw [stable_keys] at h
  cases hfrom : stable_keys_from hasher [] fqns with
  | error e =>
    rw [hfrom] at h
    cases h
  | ok final =>
    rw [hfrom] at h
    cases h
    obtain ⟨hfqns, hkeys⟩ := stable_keys_from_getElem? [] rfl (by simp) hfrom
    rw [List.nil_append] at hfqns hkeys
    rw [← hfqns, List.getElem?_map, Option.map_eq_some_iff] at hi
    obtain ⟨p, hp, rfl⟩ := hi
    rw [List.getElem?_map, hp, Option.map_some, hkeys i p hp]

/-! ### Additions -/

namespace LinkedGraph

def fqns (g : LinkedGraph) : List String :=
  g.nodes.map NodeRecord.fqn

section

variable (g g' : LinkedGraph)

/-- The node behind an id of `g'` has the FQN of a node of `g`. -/
def is_old (id : NodeId) : Bool :=
  g'.fqns[id.index]?.any (· ∈ g.fqns)

/-- The id in `g` of a node of `g'` that is in `g`. -/
def old_id (id : NodeId) : NodeId :=
  .ofIndex ((g'.fqns.take id.index).countP (· ∈ g.fqns))

/-- The source of a group of `g'` is in `g`. -/
def is_old_group (gr : UInt32) : Bool :=
  g'.group_sources[gr.toNat]?.any (g.is_old g')

/-- The number in `g` of a group of `g'` whose source is in `g`. -/
def old_group (gr : UInt32) : UInt32 :=
  .ofNat ((g'.group_sources.take gr.toNat).countP (g.is_old g'))

def old_edge (e : EdgeRecord) : EdgeRecord :=
  { e with
    id := default, src := g.old_id g' e.src, dst := g.old_id g' e.dst,
    candidate_group := e.candidate_group.map (g.old_group g') }

def old_candidate (c : Candidate) : Candidate :=
  { c with candidate_group := g.old_group g' c.candidate_group, dst := g.old_id g' c.dst }

/-- `g'` adds to `g` nodes with new FQNs, and edges and candidate groups whose sources are
such nodes: without these it is `g`, up to numbering. The new nodes do not bear on the
shards of `g`. -/
structure Addition : Prop where
  nodes : (g'.nodes.filter fun n => n.fqn ∈ g.fqns).map StoredNode.of = g.nodes.map StoredNode.of
  edges : (g'.edges.filter fun e => g.is_old g' e.src).map (g.old_edge g') =
    g.edges.map fun e => { e with id := default }
  edge_targets : ∀ e ∈ g'.edges, g.is_old g' e.src = true → g.is_old g' e.dst = true
  candidates : ((g'.candidates.filter fun c => g.is_old_group g' c.candidate_group).map
    (g.old_candidate g')).Perm g.candidates
  candidate_targets : ∀ c ∈ g'.candidates, g.is_old_group g' c.candidate_group = true → g.is_old g' c.dst = true
  callables : ∀ s ∈ g'.callables, s ∉ g.fqns → ∀ fqn ∈ g.fqns, ¬ IsPrefix s fqn
  unowned : ∀ n ∈ g'.nodes, n.fqn ∉ g.fqns → g'.node_key n ∉ g.keys

end

variable {g g' : LinkedGraph}

/-! ### What an addition keeps -/

theorem Addition.mem_nodes (h : g.Addition g') {s : StoredNode} :
    (∃ n ∈ g.nodes, StoredNode.of n = s) ↔ ∃ n ∈ g'.nodes, n.fqn ∈ g.fqns ∧ StoredNode.of n = s := by
  have hmem : s ∈ g.nodes.map StoredNode.of ↔
      s ∈ (g'.nodes.filter fun n => n.fqn ∈ g.fqns).map StoredNode.of := by
    rw [h.nodes]
  simpa only [List.mem_map, List.mem_filter, decide_eq_true_eq, and_assoc] using hmem

/-- The callables above a name of `g` are the same. -/
theorem Addition.mem_callables (h : g.Addition g') {fqn s : String} (hfqn : fqn ∈ g.fqns)
    (hs : IsPrefix s fqn) : s ∈ g'.callables ↔ s ∈ g.callables := by
  constructor
  · intro hmem
    have hold : s ∈ g.fqns := by
      by_contra hnew
      exact h.callables s hmem hnew fqn hfqn hs
    obtain ⟨n, hn, rfl⟩ := List.mem_map.mp hmem
    obtain ⟨hn, hcallable⟩ := List.mem_filter.mp hn
    obtain ⟨m, hm, heq⟩ := h.mem_nodes.mpr ⟨n, hn, hold, rfl⟩
    have hkind : m.kind = n.kind := congrArg StoredNode.kind heq
    have hname : m.fqn = n.fqn := congrArg StoredNode.fqn heq
    rw [← hname]
    exact List.mem_map_of_mem (List.mem_filter.mpr ⟨hm, by rw [hkind]; exact hcallable⟩)
  · intro hmem
    obtain ⟨n, hn, rfl⟩ := List.mem_map.mp hmem
    obtain ⟨hn, hcallable⟩ := List.mem_filter.mp hn
    obtain ⟨m, hm, _, heq⟩ := h.mem_nodes.mp ⟨n, hn, rfl⟩
    have hkind : m.kind = n.kind := congrArg StoredNode.kind heq
    have hname : m.fqn = n.fqn := congrArg StoredNode.fqn heq
    rw [← hname]
    exact List.mem_map_of_mem (List.mem_filter.mpr ⟨hm, by rw [hkind]; exact hcallable⟩)

theorem Addition.owning_key (h : g.Addition g') {fqn : String} (hfqn : fqn ∈ g.fqns) :
    owning_key fqn g'.callables = owning_key fqn g.callables :=
  owning_key_congr fun _ hs => h.mem_callables hfqn hs

/-- A node of `g'` goes to a shard of `g` when it is in `g`. -/
theorem Addition.node_key_mem_iff (h : g.Addition g') {n : NodeRecord} (hn : n ∈ g'.nodes) :
    g'.node_key n ∈ g.keys ↔ n.fqn ∈ g.fqns := by
  constructor
  · intro hkey
    by_contra hnew
    exact h.unowned n hn hnew hkey
  · intro hold
    obtain ⟨m, hm, heq⟩ := h.mem_nodes.mpr ⟨n, hn, hold, rfl⟩
    have hname : m.fqn = n.fqn := congrArg StoredNode.fqn heq
    rw [node_key, h.owning_key hold, ← hname]
    exact List.mem_map_of_mem hm

theorem fqns_eq_of (g : LinkedGraph) : g.fqns = (g.nodes.map StoredNode.of).map StoredNode.fqn := by
  rw [List.map_map]
  rfl

theorem Addition.filter_fqns (h : g.Addition g') : g'.fqns.filter (· ∈ g.fqns) = g.fqns := by
  conv_rhs => rw [fqns_eq_of, ← h.nodes, List.map_map]
  have hfqns : g'.fqns = g'.nodes.map NodeRecord.fqn := rfl
  rw [hfqns, List.filter_map]
  rfl

theorem Addition.filter_keys (h : g.Addition g') : g'.keys.filter (· ∈ g.keys) = g.keys := by
  have hkeys : g.keys = (g.nodes.map StoredNode.of).map fun n => store.owning_key n.fqn g.callables := by
    rw [List.map_map]
    rfl
  conv_rhs => rw [hkeys, ← h.nodes, List.map_map]
  have hkeys' : g'.keys = g'.nodes.map g'.node_key := rfl
  rw [hkeys', List.filter_map]
  have hfilter : g'.nodes.filter ((fun key => decide (key ∈ g.keys)) ∘ g'.node_key) =
      g'.nodes.filter fun n => n.fqn ∈ g.fqns := by
    refine List.filter_congr fun n hn => ?_
    simp only [Function.comp_apply, h.node_key_mem_iff hn]
  rw [hfilter]
  refine List.map_congr_left fun n hn => ?_
  exact h.owning_key (by simpa using (List.mem_filter.mp hn).2)

/-- As many nodes of `g` come before a node of `g'` as shard keys of `g`. -/
theorem Addition.countP_keys (h : g.Addition g') (i : Nat) :
    (g'.keys.take i).countP (· ∈ g.keys) = (g'.fqns.take i).countP (· ∈ g.fqns) := by
  have hkeys : g'.keys = g'.nodes.map g'.node_key := rfl
  have hfqns : g'.fqns = g'.nodes.map NodeRecord.fqn := rfl
  rw [hkeys, hfqns, ← List.map_take, ← List.map_take, List.countP_map, List.countP_map]
  refine List.countP_congr fun n hn => ?_
  simp only [Function.comp_apply, decide_eq_true_eq, h.node_key_mem_iff (List.mem_of_mem_take hn)]

theorem is_old_iff {id : NodeId} : g.is_old g' id = true ↔ ∃ fqn ∈ g.fqns, g'.fqns[id.index]? = some fqn := by
  rw [is_old]
  cases g'.fqns[id.index]? <;> simp

theorem index_old_id (id : NodeId) :
    (g.old_id g' id).index = (g'.fqns.take id.index).countP (· ∈ g.fqns) := by
  have hle := (List.countP_le_length (p := (· ∈ g.fqns)) (l := g'.fqns.take id.index)).trans (List.length_take_le ..)
  have hlt := id.index_lt
  exact NodeId.index_ofIndex (by omega)

/-- A node that is in `g` has its FQN and its shard key at both ids. -/
theorem Addition.at_old_id (h : g.Addition g') {id : NodeId} (hold : g.is_old g' id = true) :
    ∃ fqn ∈ g.fqns, ∃ key ∈ g.keys, g'.fqns[id.index]? = some fqn ∧ g.fqns[(g.old_id g' id).index]? = some fqn ∧
      g'.keys[id.index]? = some key ∧ g.keys[(g.old_id g' id).index]? = some key := by
  obtain ⟨fqn, hfqn, hat⟩ := is_old_iff.mp hold
  have hat' := hat
  rw [show g'.fqns = g'.nodes.map NodeRecord.fqn from rfl, List.getElem?_map, Option.map_eq_some_iff] at hat'
  obtain ⟨n, hn, hname⟩ := hat'
  have hkey : g'.node_key n ∈ g.keys := by
    rw [h.node_key_mem_iff (List.mem_of_getElem? hn), hname]
    exact hfqn
  have hkeyat : g'.keys[id.index]? = some (g'.node_key n) := by
    rw [show g'.keys = g'.nodes.map g'.node_key from rfl, List.getElem?_map, hn, Option.map_some]
  refine ⟨fqn, hfqn, g'.node_key n, hkey, hat, ?_, hkeyat, ?_⟩
  · rw [index_old_id]
    have hfilter := getElem?_filter (p := (· ∈ g.fqns)) hat (decide_eq_true hfqn)
    rwa [h.filter_fqns] at hfilter
  · rw [index_old_id, ← h.countP_keys]
    have hfilter := getElem?_filter (p := (· ∈ g.keys)) hkeyat (decide_eq_true hkey)
    rwa [h.filter_keys] at hfilter

theorem key_at_of_getElem? {id : NodeId} {key : String} (h : g.keys[id.index]? = some key) :
    g.key_at id = key := by
  rw [key_at, getElem!_def, h]

theorem Addition.key_at (h : g.Addition g') {id : NodeId} (hold : g.is_old g' id = true) :
    g.key_at (g.old_id g' id) = g'.key_at id := by
  obtain ⟨_, _, key, _, _, _, hkey', hkey⟩ := h.at_old_id hold
  rw [key_at_of_getElem? hkey, key_at_of_getElem? hkey']

/-- A node goes to a shard of `g` when it is in `g`. -/
theorem Addition.key_at_mem_iff (h : g.Addition g') {id : NodeId} (hid : id.index < g'.nodes.length) :
    g'.key_at id ∈ g.keys ↔ g.is_old g' id = true := by
  have hn := List.getElem?_eq_getElem hid
  have hkey : g'.keys[id.index]? = some (g'.node_key g'.nodes[id.index]) := by
    rw [show g'.keys = g'.nodes.map g'.node_key from rfl, List.getElem?_map, hn, Option.map_some]
  have hfqn : g'.fqns[id.index]? = some g'.nodes[id.index].fqn := by
    rw [show g'.fqns = g'.nodes.map NodeRecord.fqn from rfl, List.getElem?_map, hn, Option.map_some]
  rw [key_at_of_getElem? hkey, h.node_key_mem_iff (List.getElem_mem hid), is_old, hfqn, Option.any_some,
    decide_eq_true_eq]

theorem Addition.local_index (h : g.Addition g') {id : NodeId} (hold : g.is_old g' id = true) :
    g.local_index (g.old_id g' id) = g'.local_index id := by
  obtain ⟨_, _, key, hmem, _, _, hkey', _⟩ := h.at_old_id hold
  have hfilter := ordinal_filter (p := (· ∈ g.keys)) hkey' (decide_eq_true hmem)
  rw [h.filter_keys, h.countP_keys, ← index_old_id] at hfilter
  rw [LinkedGraph.local_index, LinkedGraph.local_index, hfilter]

/-- A node that is in `g` has its stable key in both graphs. -/
theorem Addition.stable_key (h : g.Addition g') {hasher : String → UInt32 → UInt64} {sk sk' : List UInt64}
    (hsk : stable_keys hasher g.fqns = .ok sk) (hsk' : stable_keys hasher g'.fqns = .ok sk') {id : NodeId}
    (hold : g.is_old g' id = true) : sk[(g.old_id g' id).index]! = sk'[id.index]! := by
  obtain ⟨fqn, hmem, _, _, hfqn', hfqn, _, _⟩ := h.at_old_id hold
  have hfilter := ordinal_filter (p := (· ∈ g.fqns)) hfqn' (decide_eq_true hmem)
  rw [h.filter_fqns, ← index_old_id] at hfilter
  rw [getElem!_def, getElem!_def, stable_keys_getElem? hsk hfqn, stable_keys_getElem? hsk' hfqn', hfilter]

/-! ### Groups -/

theorem is_old_group_iff {gr : UInt32} :
    g.is_old_group g' gr = true ↔ ∃ id, g'.group_sources[gr.toNat]? = some id ∧ g.is_old g' id = true := by
  rw [is_old_group]
  cases g'.group_sources[gr.toNat]? <;> simp

theorem toNat_old_group (gr : UInt32) :
    (g.old_group g' gr).toNat = (g'.group_sources.take gr.toNat).countP (g.is_old g') := by
  have hle := (List.countP_le_length (p := g.is_old g') (l := g'.group_sources.take gr.toNat)).trans
    (List.length_take_le ..)
  have hlt := gr.toNat_lt
  exact UInt32.toNat_ofNat_of_lt' (by rw [UInt32.size]; omega)

/-- An edge whose source is new notes no source of `g`. -/
theorem filter_push_new {seen : List NodeId} {e : EdgeRecord} (hsrc : g.is_old g' e.src = false) :
    (push_group seen e).filter (g.is_old g') = seen.filter (g.is_old g') := by
  have hdrop : (seen ++ [e.src]).filter (g.is_old g') = seen.filter (g.is_old g') := by
    rw [List.filter_append, List.filter_cons_of_neg (by rw [hsrc]; exact Bool.false_ne_true), List.filter_nil,
      List.append_nil]
  rw [push_group]
  split
  · split
    · exact hdrop
    · rfl
  · rfl

/-- An edge whose source is in `g` notes it in both graphs or in none. -/
theorem push_old {seen : List NodeId} {e : EdgeRecord} (hsrc : g.is_old g' e.src = true)
    (hgroup : ∀ gr, e.candidate_group = some gr →
      gr.toNat ≤ seen.length ∧ (push_group seen e)[gr.toNat]? = some e.src)
    (hseen : push_group seen e <+: g'.group_sources) :
    push_group ((seen.filter (g.is_old g')).map (g.old_id g')) (g.old_edge g' e) =
      ((push_group seen e).filter (g.is_old g')).map (g.old_id g') := by
  cases hgr : e.candidate_group with
  | none => simp only [push_group, old_edge, hgr, Option.map_none]
  | some gr =>
    obtain ⟨hle, hat⟩ := hgroup gr hgr
    have hgroup : (g.old_edge g' e).candidate_group = some (g.old_group g' gr) := by
      simp only [old_edge, hgr, Option.map_some]
    have htake : g'.group_sources.take gr.toNat = seen.take gr.toNat := by
      obtain ⟨later, hlater⟩ := (push_group_grows seen e).trans hseen
      rw [← hlater, List.take_append_of_le_length hle]
    rw [push_group_of_some hgroup, push_group_of_some hgr, toNat_old_group, htake, List.length_map,
      ← List.countP_eq_length_filter]
    by_cases hnew : gr.toNat = seen.length
    · rw [if_pos (by rw [hnew, List.take_length]), if_pos hnew, List.filter_append, List.filter_cons_of_pos hsrc,
        List.filter_nil, List.map_append]
      rfl
    · -- The group has been noted, so its source counts among those before.
      rw [push_group_of_some hgr, if_neg hnew] at hat
      obtain ⟨hlt, hsource⟩ := List.getElem?_eq_some_iff.mp hat
      have hsplit : seen.take gr.toNat ++ e.src :: seen.drop (gr.toNat + 1) = seen := by
        rw [← hsource, ← List.drop_eq_getElem_cons hlt, List.take_append_drop]
      have hcount : seen.countP (g.is_old g') = (seen.take gr.toNat).countP (g.is_old g') +
          ((seen.drop (gr.toNat + 1)).countP (g.is_old g') + 1) := by
        conv_lhs => rw [← hsplit]
        rw [List.countP_append, List.countP_cons_of_pos hsrc]
      rw [if_neg (by omega), if_neg hnew]

/-- The sources noted while only the edges of `g` are read. -/
theorem foldl_push_old {edges : List EdgeRecord} {seen : List NodeId} (hgroups : GroupsNumbered seen edges)
    (hall : edges.foldl push_group seen = g'.group_sources) :
    ((edges.filter fun e => g.is_old g' e.src).map (g.old_edge g')).foldl push_group
        ((seen.filter (g.is_old g')).map (g.old_id g')) =
      (g'.group_sources.filter (g.is_old g')).map (g.old_id g') := by
  induction edges generalizing seen with
  | nil =>
    rw [← hall]
    rfl
  | cons e rest ih =>
    obtain ⟨hhead, hrest⟩ := hgroups
    have hnext := ih hrest hall
    have hseen : push_group seen e <+: g'.group_sources := by
      rw [← hall]
      exact foldl_push_group_grows rest _
    cases hsrc : g.is_old g' e.src with
    | false =>
      rw [filter_push_new hsrc] at hnext
      rwa [List.filter_cons_of_neg (by rw [hsrc]; exact Bool.false_ne_true)]
    | true =>
      rw [List.filter_cons_of_pos (by exact hsrc), List.map_cons, List.foldl_cons, push_old hsrc hhead hseen]
      exact hnext

theorem Addition.group_sources (h : g.Addition g') (hcanon : Canonical g') :
    g.group_sources = (g'.group_sources.filter (g.is_old g')).map (g.old_id g') := by
  have herase : ∀ (edges : List EdgeRecord) (seen : List NodeId),
      (edges.map fun e => { e with id := default }).foldl push_group seen = edges.foldl push_group seen := by
    intro edges seen
    rw [List.foldl_map]
    rfl
  rw [LinkedGraph.group_sources, ← herase, ← h.edges]
  exact foldl_push_old hcanon.groups rfl

theorem index_lt_of_group_source (hcanon : Canonical g) {id : NodeId} (h : id ∈ g.group_sources) :
    id.index < g.nodes.length := by
  cases mem_foldl_push_group h with
  | inl hnil => cases hnil
  | inr hedge =>
    obtain ⟨e, he, rfl⟩ := hedge
    exact (hcanon.edge_ends e he).1

theorem Addition.filter_group_keys (h : g.Addition g') (hcanon : Canonical g') :
    g'.group_keys.filter (· ∈ g.keys) = g.group_keys := by
  have hkeys : g'.group_keys = g'.group_sources.map g'.key_at := rfl
  conv_rhs => rw [group_keys, h.group_sources hcanon, List.map_map]
  rw [hkeys, List.filter_map]
  have hfilter : g'.group_sources.filter ((fun key => decide (key ∈ g.keys)) ∘ g'.key_at) =
      g'.group_sources.filter (g.is_old g') := by
    refine List.filter_congr fun id hid => ?_
    rw [Bool.eq_iff_iff, Function.comp_apply, decide_eq_true_eq]
    exact h.key_at_mem_iff (index_lt_of_group_source hcanon hid)
  rw [hfilter]
  refine List.map_congr_left fun id hid => ?_
  exact (h.key_at (List.mem_filter.mp hid).2).symm

theorem Addition.countP_group_keys (h : g.Addition g') (hcanon : Canonical g') (i : Nat) :
    (g'.group_keys.take i).countP (· ∈ g.keys) = (g'.group_sources.take i).countP (g.is_old g') := by
  have hkeys : g'.group_keys = g'.group_sources.map g'.key_at := rfl
  rw [hkeys, ← List.map_take, List.countP_map]
  refine List.countP_congr fun id hid => ?_
  rw [Function.comp_apply, decide_eq_true_eq]
  exact h.key_at_mem_iff (index_lt_of_group_source hcanon (List.mem_of_mem_take hid))

/-- A group whose source is in `g` has its shard key at both numbers. -/
theorem Addition.at_old_group (h : g.Addition g') (hcanon : Canonical g') {gr : UInt32}
    (hold : g.is_old_group g' gr = true) : ∃ key ∈ g.keys, g'.group_keys[gr.toNat]? = some key ∧
      g.group_keys[(g.old_group g' gr).toNat]? = some key := by
  obtain ⟨id, hid, hold⟩ := is_old_group_iff.mp hold
  have hkey : g'.group_keys[gr.toNat]? = some (g'.key_at id) := by
    rw [show g'.group_keys = g'.group_sources.map g'.key_at from rfl, List.getElem?_map, hid, Option.map_some]
  have hmem : g'.key_at id ∈ g.keys :=
    (h.key_at_mem_iff (index_lt_of_group_source hcanon (List.mem_of_getElem? hid))).mpr hold
  refine ⟨g'.key_at id, hmem, hkey, ?_⟩
  have hfilter := getElem?_filter (p := (· ∈ g.keys)) hkey (decide_eq_true hmem)
  rwa [h.filter_group_keys hcanon, h.countP_group_keys hcanon, ← toNat_old_group] at hfilter

theorem Addition.local_group (h : g.Addition g') (hcanon : Canonical g') {gr : UInt32}
    (hold : g.is_old_group g' gr = true) : g.local_group (g.old_group g' gr) = g'.local_group gr := by
  obtain ⟨key, hmem, hkey', _⟩ := h.at_old_group hcanon hold
  have hfilter := ordinal_filter (p := (· ∈ g.keys)) hkey' (decide_eq_true hmem)
  rw [h.filter_group_keys hcanon, h.countP_group_keys hcanon, ← toNat_old_group] at hfilter
  rw [LinkedGraph.local_group, LinkedGraph.local_group, hfilter]

/-! ### Shards stay -/

section

variable {sk sk' : List UInt64} {hasher : String → UInt32 → UInt64} {key : String}

theorem Addition.shard_nodes (h : g.Addition g') (hkey : key ∈ g.keys) :
    (g'.nodes.filter fun n => g'.node_key n = key).map StoredNode.of =
      (g.nodes.filter fun n => g.node_key n = key).map StoredNode.of := by
  have hstored : (g.nodes.filter fun n => g.node_key n = key).map StoredNode.of =
      (g.nodes.map StoredNode.of).filter fun n => store.owning_key n.fqn g.callables = key := by
    rw [List.filter_map]
    rfl
  rw [hstored, ← h.nodes, List.filter_map, List.filter_filter]
  congr 1
  refine List.filter_congr fun n hn => ?_
  rw [Bool.eq_iff_iff, Bool.and_eq_true, decide_eq_true_eq, decide_eq_true_eq, Function.comp_apply,
    decide_eq_true_eq]
  constructor
  · intro heq
    have hold := (h.node_key_mem_iff hn).mp (by rw [heq]; exact hkey)
    refine ⟨?_, hold⟩
    rw [← heq, node_key, h.owning_key hold]
    rfl
  · rintro ⟨heq, hold⟩
    rw [← heq, node_key, h.owning_key hold]
    rfl

theorem Addition.stored_edge (h : g.Addition g') (hcanon : Canonical g')
    (hsk : stable_keys hasher g.fqns = .ok sk) (hsk' : stable_keys hasher g'.fqns = .ok sk') {e : EdgeRecord}
    (he : e ∈ g'.edges) (hold : g.is_old g' e.src = true) :
    g.stored_edge sk (g.old_edge g' e) = g'.stored_edge sk' e := by
  have hdst := h.stable_key hsk hsk' (h.edge_targets e he hold)
  have hgroup : (e.candidate_group.map (g.old_group g')).map g.local_group =
      e.candidate_group.map g'.local_group := by
    cases hgr : e.candidate_group with
    | none => rfl
    | some gr =>
      have hsource : g'.group_sources[gr.toNat]? = some e.src := hcanon.groups.source he hgr
      simp only [Option.map_some]
      rw [h.local_group hcanon (is_old_group_iff.mpr ⟨e.src, hsource, hold⟩)]
  simp only [LinkedGraph.stored_edge, old_edge, h.local_index hold, hdst, hgroup]
  rfl

theorem Addition.shard_edges (h : g.Addition g') (hcanon : Canonical g')
    (hsk : stable_keys hasher g.fqns = .ok sk) (hsk' : stable_keys hasher g'.fqns = .ok sk')
    (hkey : key ∈ g.keys) :
    (g'.edges.filter fun e => g'.key_at e.src = key).map (g'.stored_edge sk') =
      (g.edges.filter fun e => g.key_at e.src = key).map (g.stored_edge sk) := by
  have hstored : (g.edges.filter fun e => g.key_at e.src = key).map (g.stored_edge sk) =
      ((g.edges.map fun e => { e with id := default }).filter fun e => g.key_at e.src = key).map
        (g.stored_edge sk) := by
    rw [List.filter_map, List.map_map]
    rfl
  rw [hstored, ← h.edges, List.filter_map, List.filter_filter, List.map_map]
  have hfilter : (g'.edges.filter fun e => g'.key_at e.src = key) =
      g'.edges.filter fun e =>
        ((fun e : EdgeRecord => decide (g.key_at e.src = key)) ∘ g.old_edge g') e && g.is_old g' e.src := by
    refine List.filter_congr fun e he => ?_
    rw [Bool.eq_iff_iff, Bool.and_eq_true, decide_eq_true_eq, Function.comp_apply, decide_eq_true_eq]
    constructor
    · intro heq
      have hold := (h.key_at_mem_iff (hcanon.edge_ends e he).1).mp (by rw [heq]; exact hkey)
      exact ⟨(h.key_at hold).trans heq, hold⟩
    · rintro ⟨heq, hold⟩
      exact (h.key_at hold).symm.trans heq
  rw [hfilter]
  refine List.map_congr_left fun e he => ?_
  obtain ⟨he, hboth⟩ := List.mem_filter.mp he
  exact (h.stored_edge hcanon hsk hsk' he (Bool.and_eq_true _ _ ▸ hboth).2).symm

theorem group_key_eq_of_getElem? {gr : UInt32} (h : g.group_keys[gr.toNat]? = some key) :
    g.group_keys[gr.toNat]! = key := by
  rw [getElem!_def, h]

theorem StoredCandidate.eq_of_cmp {a b : StoredCandidate} (h : stored_candidate_cmp a b = .eq) : a = b := by
  rw [stored_candidate_cmp, compareLex_eq_eq, compareLex_eq_eq] at h
  obtain ⟨hgroup, hrank, hdst⟩ := h
  cases a
  cases b
  simp only [StoredCandidate.mk.injEq]
  exact ⟨Std.LawfulEqCmp.eq_of_compare hgroup, Std.LawfulEqCmp.eq_of_compare hdst,
    Std.LawfulEqCmp.eq_of_compare hrank⟩

instance : Std.TransCmp stored_candidate_cmp :=
  inferInstanceAs (Std.TransCmp (compareLex _ _))

/-- The rows of a shard of `g` are those of the groups it holds in both graphs. -/
theorem Addition.shard_candidates (h : g.Addition g') (hcanon : Canonical g')
    (hsk : stable_keys hasher g.fqns = .ok sk) (hsk' : stable_keys hasher g'.fqns = .ok sk')
    (hkey : key ∈ g.keys) :
    ((g'.candidates.filter fun c => g'.group_keys[c.candidate_group.toNat]! = key).map
      (g'.stored_candidate sk')).Perm
        ((g.candidates.filter fun c => g.group_keys[c.candidate_group.toNat]! = key).map
          (g.stored_candidate sk)) := by
  refine .trans (.of_eq ?_) ((h.candidates.filter _).map _)
  rw [List.filter_map, List.filter_filter, List.map_map]
  have hfilter : (g'.candidates.filter fun c => g'.group_keys[c.candidate_group.toNat]! = key) =
      g'.candidates.filter fun c =>
        ((fun c : Candidate => decide (g.group_keys[c.candidate_group.toNat]! = key)) ∘ g.old_candidate g') c &&
          g.is_old_group g' c.candidate_group := by
    refine List.filter_congr fun c hc => ?_
    rw [Bool.eq_iff_iff, Bool.and_eq_true, decide_eq_true_eq, Function.comp_apply, decide_eq_true_eq]
    have hgroup := (hcanon.candidate_ends c hc).1
    have hsource := List.getElem?_eq_getElem hgroup
    have hat : g'.group_keys[c.candidate_group.toNat]? =
        some (g'.key_at g'.group_sources[c.candidate_group.toNat]) := by
      rw [show g'.group_keys = g'.group_sources.map g'.key_at from rfl, List.getElem?_map, hsource, Option.map_some]
    constructor
    · intro heq
      have hmem : g'.key_at g'.group_sources[c.candidate_group.toNat] ∈ g.keys := by
        rwa [← group_key_eq_of_getElem? hat, heq]
      have hold := is_old_group_iff.mpr ⟨_, hsource,
        (h.key_at_mem_iff (index_lt_of_group_source hcanon (List.getElem_mem hgroup))).mp hmem⟩
      obtain ⟨key', _, hkey', hkey⟩ := h.at_old_group hcanon hold
      refine ⟨?_, hold⟩
      rw [old_candidate, group_key_eq_of_getElem? hkey, ← group_key_eq_of_getElem? hkey', heq]
    · rintro ⟨heq, hold⟩
      obtain ⟨key', _, hkey', hkey⟩ := h.at_old_group hcanon hold
      rw [old_candidate, group_key_eq_of_getElem? hkey] at heq
      rw [group_key_eq_of_getElem? hkey', heq]
  rw [hfilter]
  refine List.map_congr_left fun c hc => ?_
  obtain ⟨hc, hboth⟩ := List.mem_filter.mp hc
  have hold := (Bool.and_eq_true _ _ ▸ hboth).2
  have hdst := h.stable_key hsk hsk' (h.candidate_targets c hc hold)
  simp only [Function.comp_apply, LinkedGraph.stored_candidate, old_candidate, h.local_group hcanon hold, hdst]

/-- Every shard of `g` is a shard of `g'`. -/
theorem Addition.shard (h : g.Addition g') (hcanon : Canonical g') (hsk : stable_keys hasher g.fqns = .ok sk)
    (hsk' : stable_keys hasher g'.fqns = .ok sk') (hkey : key ∈ g.keys) : g'.shard sk' key = g.shard sk key := by
  have hrows := sort_by_eq_of_perm (fun a _ b _ => StoredCandidate.eq_of_cmp)
    (pairwise_sort_by _)
      ((h.shard_candidates hcanon hsk hsk' hkey).trans (perm_sort_by _).symm)
  rw [LinkedGraph.shard, LinkedGraph.shard, h.shard_nodes hkey, h.shard_edges hcanon hsk hsk' hkey, hrows]

theorem Addition.keys_subset (h : g.Addition g') (hkey : key ∈ g.keys) : key ∈ g'.keys := by
  rw [← h.filter_keys] at hkey
  exact (List.mem_filter.mp hkey).1

end

end LinkedGraph

section

variable {Bytes : Type} (c : Codec Bytes)

/-- The shard objects that storing a graph writes: their keys and their bytes. -/
def written_shards (g : LinkedGraph) : Except StoreError (List (String × Bytes)) := do
  check_canonical g
  let sk ← stable_keys c.stable_key g.fqns
  return (g.shards sk).map fun sh => (sh.1, c.encode_shard sh.2)

theorem written_shards_ok {g : LinkedGraph} {written : List (String × Bytes)}
    (h : written_shards c g = .ok written) : check_canonical g = .ok () ∧
      ∃ sk, stable_keys c.stable_key g.fqns = .ok sk ∧
        written = (g.shards sk).map fun sh => (sh.1, c.encode_shard sh.2) := by
  rw [written_shards] at h
  cases hcheck : check_canonical g with
  | error e =>
    rw [hcheck] at h
    cases h
  | ok _ =>
    cases hsk : stable_keys c.stable_key g.fqns with
    | error e =>
      rw [hcheck, hsk] at h
      cases h
    | ok sk =>
      rw [hcheck, hsk] at h
      cases h
      exact ⟨rfl, sk, rfl, rfl⟩

variable [Inhabited Bytes] {c}

/-- A put that succeeds writes its shards under their keys: the objects it stores are their
bytes and the manifest, which names them in order. -/
theorem put_graph_written_shards {s : Session Bytes} {key : String} {created_rev : Option String}
    {g : LinkedGraph} (h : (put_graph c s key created_rev g).2 = .ok ()) :
    ∃ written sk, written_shards c g = .ok written ∧
      put_objects c key created_rev g sk =
        written.map Prod.snd ++ [c.encode_manifest (manifest_of c key created_rev g sk)] ∧
      (manifest_of c key created_rev g sk).shards = written.map fun sh => ⟨sh.1, c.of_bytes sh.2⟩ := by
  obtain ⟨hcheck, sk, hsk⟩ := put_graph_ok h
  refine ⟨(g.shards sk).map fun sh => (sh.1, c.encode_shard sh.2), sk, ?_, ?_, ?_⟩
  · rw [written_shards, hcheck, LinkedGraph.fqns, hsk]
    rfl
  · rw [put_objects, List.map_map]
    rfl
  · rw [manifest_of, List.map_map]
    rfl

/-- Adding functions that do not bear on the shards of a graph writes each of these shards
under the same key with the same bytes. -/
theorem shards_stay {g g' : LinkedGraph} (hadd : g.Addition g') {s s' : Session Bytes} {key key' : String}
    {created_rev created_rev' : Option String} (hput : (put_graph c s key created_rev g).2 = .ok ())
    (hput' : (put_graph c s' key' created_rev' g').2 = .ok ()) :
    ∃ written written', written_shards c g = .ok written ∧ written_shards c g' = .ok written' ∧
      ∀ sh ∈ written, sh ∈ written' := by
  obtain ⟨written, _, hwritten, _⟩ := put_graph_written_shards hput
  obtain ⟨written', _, hwritten', _⟩ := put_graph_written_shards hput'
  refine ⟨written, written', hwritten, hwritten', ?_⟩
  obtain ⟨_, sk, hsk, rfl⟩ := written_shards_ok c hwritten
  obtain ⟨hcheck', sk', hsk', rfl⟩ := written_shards_ok c hwritten'
  intro sh hsh
  obtain ⟨⟨key, shard⟩, hmem, rfl⟩ := List.mem_map.mp hsh
  obtain ⟨key, hkey, heq⟩ := List.mem_map.mp hmem
  cases heq
  have hkeys := (g.mem_shard_keys).mp hkey
  rw [← hadd.shard (canonical_of_check hcheck') hsk hsk' hkeys]
  exact List.mem_map_of_mem (List.mem_map_of_mem ((g'.mem_shard_keys).mpr (hadd.keys_subset hkeys)))

end

/-! ### A caller in front -/

namespace sample

/-- A caller of `f`, in front of it. -/
def caller : NodeRecord := { node with fqn := "e" }

def call : EdgeRecord := { (default : EdgeRecord) with src := ⟨0⟩, dst := ⟨1⟩ }

def called : LinkedGraph := ⟨[caller, { node with id := ⟨1⟩ }], [call], []⟩

theorem called_addition : graph.Addition called where
  nodes := by decide
  edges := by decide
  edge_targets := by decide
  candidates := .nil
  candidate_targets := by decide
  callables := by
    intro s hs hnew fqn hfqn hprefix
    have hs : s = "e" := by
      have hs : s ∈ ["e", "f"] := hs
      have hnew : s ∉ ["f"] := hnew
      simp only [List.mem_cons, List.not_mem_nil, or_false] at hs hnew
      exact hs.resolve_right hnew
    have hfqn : fqn = "f" := List.mem_singleton.mp hfqn
    subst hs hfqn
    obtain h | ⟨rest, h⟩ := hprefix
    · exact absurd h (by decide)
    · have hhead := congrArg (fun s : String => s.toList.head?) h
      simp at hhead
  unowned := by decide

def caller_shard : Shard := ⟨[.of caller], [.of call 0 7148732374036024318 none], []⟩

def caller_oid : String := "3d528458025e9eb8b8d3b0c1df243fd3661d891f"

/-- The digests of the contents that occur here too. -/
def caller_digest (b : Content) : String :=
  if b = .shard caller_shard then caller_oid
  else if b = .manifest ⟨2, "b", none, [⟨"e", caller_oid⟩, ⟨"f", shard_oid⟩]⟩ then
    "dafcedc559b6e25b1074a7441efc9a7ee3f81591"
  else digest b

def caller_codec : Codec Content where
  __ := codec
  len
    | .shard sh => 33 + 24 * sh.edges.length
    | b => codec.len b
  of_bytes := caller_digest
  stable_key fqn ord := if fqn = "e" ∧ ord = 0 then 7518400118112004305 else codec.stable_key fqn ord
  of_bytes_hex b := by
    rw [caller_digest, ← List.all_eq_true]
    split
    · decide
    · split
      · decide
      · rw [List.all_eq_true]
        exact digest_hex b

theorem shards_stay_one : ∃ written written', written_shards caller_codec graph = .ok written ∧
    written_shards caller_codec called = .ok written' ∧ ∀ sh ∈ written, sh ∈ written' := by
  have hput : (put_graph caller_codec (.start no_files) "a" none graph).2 = .ok () := by decide
  have hput' : (put_graph caller_codec (.start no_files) "b" none called).2 = .ok () := by decide
  exact shards_stay called_addition hput hput'

end sample

end cgx.store
