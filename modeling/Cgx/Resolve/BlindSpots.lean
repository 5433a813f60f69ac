import Cgx.Resolve.Placeholders

open cgx.core cgx.frontend sorting

namespace cgx.resolve

/-! ### The candidates of a reference -/

/-- The definitions of the inputs, as a graph without edges. -/
def definitions (inputs : List FileInput) : ResolvedGraph :=
  ⟨build_nodes inputs, [], [], []⟩

/-- Whether some definition can be what the call of a reference reaches. -/
def Site.has_candidate (inputs : List FileInput) (site : Site) : Bool :=
  (build_nodes inputs).any
    (is_compatible (definitions inputs) (lang_of (definitions inputs) site.caller_id) (site.raw.arity.map UInt8.toNat))

/-- The nodes of a graph that the call of a reference may reach. -/
def Site.candidates (g : ResolvedGraph) (inputs : List FileInput) (opts : LinkOpts) (site : Site) : List NodeId :=
  compatible g (lang_of g (linked_id inputs opts site.caller_id)) (site.raw.arity.map UInt8.toNat)

/-- The calls of a reference: one to each candidate, with its own condition and statement. -/
def Site.sig_calls (g : ResolvedGraph) (inputs : List FileInput) (opts : LinkOpts) (site : Site) : List SigCall :=
  (site.candidates g inputs opts).map fun dst =>
    ⟨some (site.key inputs opts), dst, site.raw.edge_condition, some site.raw.stmt_index⟩

variable {env : LinkEnv} {inputs : List FileInput} {opts : LinkOpts}

theorem parse_arity_indirect_rule (raw : RawRef) : parse_arity (indirect_rule raw) = raw.arity.map UInt8.toNat := by
  have hstrip : ∀ text, strip_prefix "indirect:" ("indirect:" ++ text) = some text := by
    intro text
    rw [ strip_prefix, String.toList_append, if_pos (List.isPrefixOf_iff_prefix.mpr (List.prefix_append _ _)),
      ← String.length_toList, List.drop_left, String.ofList_toList]
  rw [indirect_rule, parse_arity, hstrip, Option.bind_some]
  cases raw.arity with
  | none => decide
  | some a => exact parse_usize_to_string (Nat.lt_trans a.toNat_lt (by omega))

/-- The edge of a placeholder is replaced by the calls of its reference. -/
theorem calls_for_placeholder {g : ResolvedGraph} {site : Site} (hkind : is_indirect site.raw.kind = true) :
    calls_for g (linked_edge inputs opts (placeholder_edge site)) = site.sig_calls g inputs opts := by
  have hcall := is_call_of_indirect ((is_indirect_kind_edge_kind _ false).trans hkind)
  have hkey : site_key (linked_edge inputs opts (placeholder_edge site)) = some (site.key inputs opts) := by
    simp only [site_key, linked_edge, placeholder_edge, edge_of, hcall, if_true]
    rfl
  have harity : parse_arity (linked_edge inputs opts (placeholder_edge site)).edge.rule =
      site.raw.arity.map UInt8.toNat := parse_arity_indirect_rule site.raw
  rw [calls_for, harity, Site.sig_calls]
  refine List.map_congr_left fun dst _ => ?_
  rw [call_to, sig_call, hkey]
  rfl

/-- The candidates depend on the nodes only. -/
theorem compatible_congr {g g' : ResolvedGraph} (h : g.nodes = g'.nodes) : compatible g = compatible g' := by
  obtain ⟨nodes, edges, candidates, unresolved⟩ := g
  obtain rfl : nodes = g'.nodes := h
  rfl

theorem lang_of_congr {g g' : ResolvedGraph} (h : g.nodes = g'.nodes) : lang_of g = lang_of g' := by
  obtain ⟨nodes, edges, candidates, unresolved⟩ := g
  obtain rfl : nodes = g'.nodes := h
  rfl

theorem candidates_congr {g g' : ResolvedGraph} (h : g.nodes = g'.nodes) (site : Site) :
    site.candidates g inputs opts = site.candidates g' inputs opts := by
  rw [Site.candidates, Site.candidates, compatible_congr h, lang_of_congr h]

theorem mem_compatible {g : ResolvedGraph} {lang : String} {arity : Option Nat} {id : NodeId} :
    id ∈ compatible g lang arity ↔ ∃ n ∈ g.nodes, is_compatible g lang arity n = true ∧ n.node.id = id := by
  simp only [compatible, canonicalize_candidate_dsts, mem_sort_by, List.mem_dedup, List.mem_map, List.mem_filter,
    and_assoc]

theorem compatible_ne_nil {g : ResolvedGraph} {lang : String} {arity : Option Nat} :
    compatible g lang arity ≠ [] ↔ ∃ n ∈ g.nodes, is_compatible g lang arity n = true := by
  constructor
  · intro hne
    obtain ⟨id, hid⟩ := List.exists_mem_of_ne_nil _ hne
    obtain ⟨n, hn, hcompatible, _⟩ := mem_compatible.mp hid
    exact ⟨n, hn, hcompatible⟩
  · rintro ⟨n, hn, hcompatible⟩
    exact List.ne_nil_of_mem (mem_compatible.mpr ⟨n, hn, hcompatible, rfl⟩)

/-! ### The nodes of the linked graph -/

/-- What neither looks at the id nor at the counters of a node holds of some linked node if
and only if it holds of a staged one. -/
theorem exists_node_link {p : NodeWithProvenance → Prop}
    (hp : ∀ n id unresolved narrowing, p (stamp unresolved narrowing { n with node := { n.node with id := id } }) ↔ p n) :
    (∃ n ∈ (link env inputs opts).nodes, p n) ↔ ∃ n ∈ staged_nodes inputs opts, p n := by
  obtain ⟨narrowing, hnodes⟩ := link_nodes env inputs opts
  rw [hnodes, assign_ids_placed]
  constructor
  · rintro ⟨_, hn, h⟩
    obtain ⟨m, hm, rfl⟩ := List.mem_map.mp hn
    obtain ⟨i, hi, rfl⟩ := List.mem_mapIdx.mp hm
    exact ⟨_, mem_sort_by.mp (List.getElem_mem hi), (hp _ _ _ _).mp h⟩
  · rintro ⟨n, hn, h⟩
    have hsorted : n ∈ sort_by node_order (staged_nodes inputs opts) := mem_sort_by.mpr hn
    obtain ⟨i, hi, rfl⟩ := List.getElem_of_mem hsorted
    exact ⟨_, List.mem_map_of_mem (List.mem_mapIdx.mpr ⟨i, hi, rfl⟩), (hp _ _ _ _).mpr h⟩

/-- Value nodes are variables. -/
theorem link_values_kind {n : NodeWithProvenance} (hn : n ∈ link_values inputs opts) : n.node.kind = .Variable := by
  rw [link_values] at hn
  split at hn
  · obtain ⟨i, hi, rfl⟩ := List.mem_mapIdx.mp hn
    obtain ⟨stage, _, heq⟩ := List.mem_map.mp (mem_sort_by.mp (List.getElem_mem hi))
    rw [← heq]
    rfl
  · cases hn

/-- A node that is no variable is a definition. -/
theorem exists_staged_node {p : NodeWithProvenance → Prop} (hvalue : ∀ n, n.node.kind = .Variable → ¬ p n) :
    (∃ n ∈ staged_nodes inputs opts, p n) ↔ ∃ n ∈ build_nodes inputs, p n := by
  constructor
  · rintro ⟨n, hn, h⟩
    cases List.mem_append.mp hn with
    | inl hdef => exact ⟨n, hdef, h⟩
    | inr hvar => exact absurd h (hvalue n (link_values_kind hvar))
  · rintro ⟨n, hn, h⟩
    exact ⟨n, List.mem_append_left _ hn, h⟩

theorem is_function_value_link (n : NodeWithProvenance) :
    is_function_value (link env inputs opts) n = is_function_value (definitions inputs) n := by
  have htype : ∀ parent, ((link env inputs opts).nodes.any fun t => decide (t.node.kind = .Type) && decide (t.node.fqn = parent)) =
      (definitions inputs).nodes.any fun t => decide (t.node.kind = .Type) && decide (t.node.fqn = parent) := by
    intro parent
    rw [Bool.eq_iff_iff, List.any_eq_true, List.any_eq_true, exists_node_link, exists_staged_node]
    · rfl
    · intro n hkind h
      rw [hkind] at h
      cases h
    · intro n id unresolved narrowing
      rfl
  rw [is_function_value, is_function_value]
  simp only [htype]

/-- The ids of dense nodes are distinct. -/
theorem nodup_ids {nodes : List NodeWithProvenance} (hlength : nodes.length ≤ 2 ^ 32)
    (hids : ∀ (q : Nat) (n : NodeWithProvenance), nodes[q]? = some n → n.node.id = .ofIndex q) :
    (nodes.map fun n => n.node.id).Nodup := by
  rw [List.Nodup, List.pairwise_map, List.pairwise_iff_getElem]
  intro i j hi hj hlt heq
  rw [hids i _ (List.getElem?_eq_getElem hi), hids j _ (List.getElem?_eq_getElem hj)] at heq
  have hindex := congrArg NodeId.index heq
  rw [NodeId.index_ofIndex (by omega), NodeId.index_ofIndex (by omega)] at hindex
  omega

theorem nodup_link_ids (hnodes : (link env inputs opts).nodes.length ≤ 2 ^ 32) :
    ((link env inputs opts).nodes.map fun n => n.node.id).Nodup := by
  refine nodup_ids hnodes fun q n hq => ?_
  obtain ⟨_, _, _, rfl⟩ := link_node_at hq
  rfl

theorem nodup_staged_ids (hlength : (staged_nodes inputs opts).length ≤ 2 ^ 32) :
    ((staged_nodes inputs opts).map fun n => n.node.id).Nodup :=
  nodup_ids hlength fun _ _ => staged_node_id

/-- The language of an id is the one of its node. -/
theorem lang_of_node {g : ResolvedGraph} (hids : (g.nodes.map fun n => n.node.id).Nodup) {n : NodeWithProvenance}
    (hn : n ∈ g.nodes) : lang_of g n.node.id = n.node.lang := by
  have hsome : (g.nodes.reverse.find? fun m => m.node.id = n.node.id).isSome := by
    rw [List.find?_isSome]
    exact ⟨n, List.mem_reverse.mpr hn, decide_eq_true rfl⟩
  obtain ⟨m, hm⟩ := Option.isSome_iff_exists.mp hsome
  have hfound := List.find?_some hm
  have hid : m.node.id = n.node.id := of_decide_eq_true hfound
  have hsame : m = n :=
    List.inj_on_of_nodup_map hids (List.mem_reverse.mp (List.mem_of_find?_eq_some hm)) hn hid
  rw [lang_of, hm, Option.map_some, Option.getD_some, hsame]

/-- The node of a caller before the final sort, and after it. -/
theorem Site.WellPlaced.linked_caller {site : Site} (h : site.WellPlaced inputs)
    (hnodes : (link env inputs opts).nodes.length ≤ 2 ^ 32) :
    ∃ n ∈ build_nodes inputs, ∃ m ∈ (link env inputs opts).nodes, n.node.id = site.caller_id ∧
      m.node.id = linked_id inputs opts site.caller_id ∧ m.node.lang = n.node.lang := by
  obtain ⟨n, hfind, hid⟩ := Option.map_eq_some_iff.mp h.caller_id
  have hn := List.mem_reverse.mp (List.mem_of_find?_eq_some hfind)
  obtain ⟨m, narrowing, hm, hstamp⟩ := node_of_linked_id hnodes (List.mem_append_left (link_values inputs opts) hn)
  have hmid : m.node.id = linked_id inputs opts site.caller_id := by
    rw [hstamp, ← hid]
    rfl
  refine ⟨n, hn, m, List.mem_of_find?_eq_some hm, hid, hmid, ?_⟩
  rw [hstamp]
  rfl

theorem lang_of_link {site : Site} (h : site.WellPlaced inputs) (hnodes : (link env inputs opts).nodes.length ≤ 2 ^ 32) :
    lang_of (link env inputs opts) (linked_id inputs opts site.caller_id) =
      lang_of (definitions inputs) site.caller_id := by
  obtain ⟨n, hn, m, hm, hid, hmid, hlang⟩ := h.linked_caller hnodes
  have hstaged := nodup_staged_ids (staged_nodes_length hnodes)
  rw [staged_nodes, List.map_append] at hstaged
  rw [← hmid, lang_of_node (nodup_link_ids hnodes) hm, hlang, ← hid]
  exact (lang_of_node (g := definitions inputs) (List.nodup_append.mp hstaged).1 hn).symm

/-- A call has a candidate in the linked graph if some definition is one. -/
theorem candidates_ne_nil {site : Site} (h : site.WellPlaced inputs)
    (hnodes : (link env inputs opts).nodes.length ≤ 2 ^ 32) :
    site.candidates (link env inputs opts) inputs opts ≠ [] ↔ site.has_candidate inputs = true := by
  rw [Site.candidates, compatible_ne_nil, Site.has_candidate, List.any_eq_true, lang_of_link h hnodes, exists_node_link,
    exists_staged_node]
  · simp only [is_compatible, is_function_value_link]
  · intro n hkind hcompatible
    rw [is_compatible, is_function_value, hkind] at hcompatible
    cases hcompatible
  · intro n id unresolved narrowing
    rfl

/-- Different definitions keep different ids. -/
theorem linked_id_inj (hlength : (staged_nodes inputs opts).length ≤ 2 ^ 32) {a b : NodeWithProvenance}
    (ha : a ∈ staged_nodes inputs opts) (hb : b ∈ staged_nodes inputs opts)
    (h : linked_id inputs opts a.node.id = linked_id inputs opts b.node.id) : a = b := by
  have hsorted : ∀ n ∈ staged_nodes inputs opts, n ∈ sort_by node_order (staged_nodes inputs opts) :=
    fun _ hn => mem_sort_by.mpr hn
  obtain ⟨i, hi⟩ := List.mem_iff_getElem?.mp (hsorted a ha)
  obtain ⟨j, hj⟩ := List.mem_iff_getElem?.mp (hsorted b hb)
  have hilt := (List.getElem?_eq_some_iff.mp hi).1
  have hjlt := (List.getElem?_eq_some_iff.mp hj).1
  rw [length_sort_by] at hilt hjlt
  rw [linked_id_place hlength hi, linked_id_place hlength hj] at h
  have hindex := congrArg NodeId.index h
  rw [NodeId.index_ofIndex (by omega), NodeId.index_ofIndex (by omega)] at hindex
  rw [hindex, hj] at hi
  exact (Option.some.inj hi).symm

/-! ### The calls that are settled -/

/-- The dangling references charged to a node that its `unresolved_calls` counts. -/
def charged_calls (g : ResolvedGraph) (n : NodeWithProvenance) : Nat :=
  (g.unresolved.filter fun r => r.caller = n.node.id).countP UnresolvedRef.is_unresolved

/-- The calls of a node that stood at a placeholder and have no candidate. -/
def unmatched_calls (g : ResolvedGraph) (inputs : List FileInput) (opts : LinkOpts) (n : NodeWithProvenance) : Nat :=
  (placeholders inputs).countP fun site =>
    decide (linked_id inputs opts site.caller_id = n.node.id) && (site.candidates g inputs opts).isEmpty

section

variable (narrow : List FileInput → SymbolTable → Site → Narrowed) (budget : Nat) (inputs : List FileInput) (opts : LinkOpts)

/-- The graph after the link and the signature pass. -/
def sig_linked : ResolvedGraph :=
  (run_sig (link (linker narrow opts budget) inputs opts)).1

/-- No placeholder is left, and none vanished silently: each is replaced by an edge for each
of its candidates, and where there is none, its caller counts the call. -/
structure IndirectsSettled : Prop where
  gone : ∀ e ∈ (sig_linked narrow budget inputs opts).edges, is_placeholder e = false
  replaced : (sig_calls (sig_linked narrow budget inputs opts)).Perm
    ((placeholders inputs).flatMap (Site.sig_calls (sig_linked narrow budget inputs opts) inputs opts))
  counted : ∀ n ∈ (sig_linked narrow budget inputs opts).nodes,
    n.node.unresolved_calls.toNat =
      charged_calls (sig_linked narrow budget inputs opts) n +
        unmatched_calls (sig_linked narrow budget inputs opts) inputs opts n

end

section

variable {narrow : List FileInput → SymbolTable → Site → Narrowed} {budget : Nat}

theorem unresolved_run_sig (g : ResolvedGraph) : (run_sig g).1.unresolved = g.unresolved := by
  rw [run_sig]
  split <;> rfl

/-- The counter of a linked node is that of the dangling references charged to it. -/
theorem link_unresolved_calls (hrefs : (link env inputs opts).unresolved.length < 2 ^ 32) {n : NodeWithProvenance}
    (hn : n ∈ (link env inputs opts).nodes) :
    n.node.unresolved_calls.toNat = charged_calls (link env inputs opts) n := by
  obtain ⟨p, hp⟩ := List.mem_iff_getElem?.mp hn
  obtain ⟨t, narrowing, ht, rfl⟩ := link_node_at hp
  have hfresh := fresh_placed inputs opts t (List.mem_of_getElem? ht)
  exact (stamp_counters hrefs narrowing (n := { t.2 with node := { t.2.node with id := .ofIndex p } }) hfresh).1

theorem placed_of_placeholder {site : Site} (h : site ∈ placeholders inputs) : site.WellPlaced inputs :=
  well_placed_of_mem (List.mem_filter.mp h).1

theorem kind_of_placeholder {site : Site} (h : site ∈ placeholders inputs) : is_indirect site.raw.kind = true := by
  have hplaceholder := (List.mem_filter.mp h).2
  rw [Site.is_placeholder] at hplaceholder
  split at hplaceholder
  · exact (Bool.and_eq_true_iff.mp hplaceholder).1
  · cases hplaceholder

/-- Every placeholder of a link stands at a call site. -/
theorem link_placeholder_sites (narrow : List FileInput → SymbolTable → Site → Narrowed) (budget : Nat)
    (inputs : List FileInput) (opts : LinkOpts) : ∀ e ∈ (link (linker narrow opts budget) inputs opts).edges,
    is_placeholder e = true → e.edge.site_id.isSome = true := by
  intro e he hplaceholder
  have hmem : stem e ∈ ((link (linker narrow opts budget) inputs opts).edges.filter is_placeholder).map stem :=
    List.mem_map_of_mem (List.mem_filter.mpr ⟨he, hplaceholder⟩)
  obtain ⟨site, hsite, heq⟩ := List.mem_map.mp ((perm_link_placeholders narrow budget inputs opts).mem_iff.mp hmem)
  have hcall := is_call_of_indirect ((is_indirect_kind_edge_kind _ false).trans (kind_of_placeholder hsite))
  have hid : (stem e).edge.site_id = some site.site_id := by
    rw [← heq]
    simp only [stem, linked_edge, placeholder_edge, edge_of, hcall, if_true]
    rfl
  exact Option.isSome_of_eq_some hid

/-- The sites of the placeholders are those of the references. -/
theorem perm_placeholder_sites (narrow : List FileInput → SymbolTable → Site → Narrowed) (budget : Nat)
    (inputs : List FileInput) (opts : LinkOpts) :
    ((link (linker narrow opts budget) inputs opts).edges.filterMap placeholder_site).Perm
      ((placeholders inputs).map (Site.key inputs opts)) := by
  have hsites : ∀ l : List EdgeWithProvenance,
      l.filterMap placeholder_site = ((l.filter is_placeholder).map stem).filterMap site_key := by
    intro l
    rw [List.filterMap_map, List.filterMap_filter]
    rfl
  rw [hsites]
  refine ((perm_link_placeholders narrow budget inputs opts).filterMap site_key).trans (.of_eq ?_)
  rw [List.filterMap_map, ← List.filterMap_eq_map]
  apply List.filterMap_congr
  intro site hsite
  have hcall := is_call_of_indirect ((is_indirect_kind_edge_kind _ false).trans (kind_of_placeholder hsite))
  simp only [Function.comp_apply, site_key, stem, linked_edge, placeholder_edge, edge_of, hcall, if_true]
  rfl

/-- Two references share a site of the linked graph exactly if they share caller and place. -/
theorem nodup_keys_iff (hnodes : (link env inputs opts).nodes.length ≤ 2 ^ 32) :
    ((placeholders inputs).map (Site.key inputs opts)).Nodup ↔
      ((placeholders inputs).map fun site => (site.caller_id, site.site_id)).Nodup := by
  have hkeys : (placeholders inputs).map (Site.key inputs opts) =
      ((placeholders inputs).map fun site => (site.caller_id, site.site_id)).map
        fun key => (linked_id inputs opts key.1, key.2) := by
    rw [List.map_map]
    rfl
  rw [hkeys]
  refine ⟨List.Nodup.of_map _, fun hdistinct => hdistinct.map_on fun a ha b hb heq => ?_⟩
  obtain ⟨site, hsite, rfl⟩ := List.mem_map.mp ha
  obtain ⟨site', hsite', rfl⟩ := List.mem_map.mp hb
  obtain ⟨n, hn, _, _, hid, _⟩ := (placed_of_placeholder hsite).linked_caller hnodes
  obtain ⟨n', hn', _, _, hid', _⟩ := (placed_of_placeholder hsite').linked_caller hnodes
  obtain ⟨hlinked, hsame⟩ := Prod.mk.inj heq
  rw [← hid, ← hid'] at hlinked
  have hnode := linked_id_inj (staged_nodes_length hnodes) (List.mem_append_left _ hn) (List.mem_append_left _ hn') hlinked
  rw [hnode] at hid
  exact Prod.ext (hid.symm.trans hid') hsame

/-- Placeholders at sites of their own are replaced by the calls of their references. -/
theorem replaced_of_nodup (hdistinct : ((placeholders inputs).map (Site.key inputs opts)).Nodup) :
    (sig_calls (sig_linked narrow budget inputs opts)).Perm
      ((placeholders inputs).flatMap (Site.sig_calls (sig_linked narrow budget inputs opts) inputs opts)) := by
  have hcollected := perm_collected ((perm_placeholder_sites narrow budget inputs opts).nodup_iff.mpr hdistinct)
    (link_placeholder_sites narrow budget inputs opts)
  have hperm := (perm_sig_calls (link_no_sig_edge narrow budget inputs opts)).trans (hcollected.flatMap_right _)
  have hstem : ∀ l : List EdgeWithProvenance,
      l.flatMap (calls_for (link (linker narrow opts budget) inputs opts)) =
        (l.map stem).flatMap (calls_for (link (linker narrow opts budget) inputs opts)) := by
    intro l
    rw [List.flatMap_map]
    rfl
  rw [hstem] at hperm
  refine (hperm.trans ((perm_link_placeholders narrow budget inputs opts).flatMap_right _)).trans (.of_eq ?_)
  rw [List.flatMap_map]
  apply List.flatMap_congr
  intro site hsite
  rw [Site.sig_calls, sig_linked,
    candidates_congr (nodes_run_sig (g := link (linker narrow opts budget) inputs opts))]
  exact calls_for_placeholder (kind_of_placeholder hsite)

/-- The signature pass settles every call through a function value if and only if no two of
them stand at one place of a caller, and each has a candidate. -/
theorem indirects_settled_iff (hnodes : (link (linker narrow opts budget) inputs opts).nodes.length ≤ 2 ^ 32)
    (hrefs : (link (linker narrow opts budget) inputs opts).unresolved.length < 2 ^ 32) :
    IndirectsSettled narrow budget inputs opts ↔
      ((placeholders inputs).map fun site => (site.caller_id, site.site_id)).Nodup ∧
        ∀ site ∈ placeholders inputs, site.has_candidate inputs = true := by
  have hcandidates : ∀ site ∈ placeholders inputs,
      (site.candidates (sig_linked narrow budget inputs opts) inputs opts ≠ [] ↔ site.has_candidate inputs = true) := by
    intro site hsite
    rw [sig_linked, candidates_congr (nodes_run_sig (g := link (linker narrow opts budget) inputs opts))]
    exact candidates_ne_nil (placed_of_placeholder hsite) hnodes
  have hcounter : ∀ n ∈ (link (linker narrow opts budget) inputs opts).nodes,
      n.node.unresolved_calls.toNat = charged_calls (sig_linked narrow budget inputs opts) n := by
    intro n hn
    rw [link_unresolved_calls hrefs hn, charged_calls, charged_calls, sig_linked, unresolved_run_sig]
  constructor
  · intro h
    constructor
    · have hgone := h.gone
      rw [sig_linked, run_sig_gone_iff (link_placeholder_sites narrow budget inputs opts)] at hgone
      rw [← nodup_keys_iff hnodes]
      exact (perm_placeholder_sites narrow budget inputs opts).nodup_iff.mp hgone
    · intro site hsite
      rw [← hcandidates site hsite]
      intro hnone
      obtain ⟨_, _, m, hm, _, hid, _⟩ := (placed_of_placeholder hsite).linked_caller hnodes
      have hcounted := h.counted m (by rwa [sig_linked, nodes_run_sig])
      rw [hcounter m hm] at hcounted
      -- The call itself is one that its caller does not count.
      have hpositive : 0 < unmatched_calls (sig_linked narrow budget inputs opts) inputs opts m :=
        List.countP_pos_iff.mpr ⟨site, hsite, by rw [hid, hnone]; simp⟩
      omega
  · rintro ⟨hdistinct, hmatched⟩
    have hkeys : ((placeholders inputs).map (Site.key inputs opts)).Nodup := (nodup_keys_iff hnodes).mpr hdistinct
    have hgone : ∀ e ∈ (sig_linked narrow budget inputs opts).edges, is_placeholder e = false := by
      rw [sig_linked, run_sig_gone_iff (link_placeholder_sites narrow budget inputs opts)]
      exact (perm_placeholder_sites narrow budget inputs opts).nodup_iff.mpr hkeys
    refine ⟨hgone, replaced_of_nodup hkeys, fun n hn => ?_⟩
    rw [sig_linked, nodes_run_sig] at hn
    have hzero : unmatched_calls (sig_linked narrow budget inputs opts) inputs opts n = 0 := by
      rw [unmatched_calls, List.countP_eq_zero]
      intro site hsite hunmatched
      have hempty := List.isEmpty_iff.mp (Bool.and_eq_true_iff.mp hunmatched).2
      exact (hcandidates site hsite).mpr (hmatched site hsite) hempty
    rw [hzero, Nat.add_zero]
    exact hcounter n hn

end

namespace sample

/-- `def apply(cb)` on the first line of `a.py`, which calls its parameter with the given
number of arguments. -/
def callback_input (arity : UInt8) : FileInput where
  blob_oid := ""
  path := "a.py"
  lang := "python"
  facts :=
    { FileFacts.empty with
      defs := [ python_def "a::apply" 1 [⟨"cb", none, false, false⟩]]
      refs :=
        [{ name_path := ["cb"], scope := ⟨1⟩, kind := .CallCallback, edge_condition := .Always,
           implicit := none, span := ⟨"a.py", 2, some 4⟩, stmt_index := 0, arity := some arity,
           cut_markers := [] }]
      scopes := ⟨[⟨none, none⟩, ⟨some .ROOT, some "a::apply"⟩]⟩ }

/-- A callback of one argument may be the only function of one parameter. -/
theorem one_argument_settled : IndirectsSettled no_receivers 10 [callback_input 1] .default :=
  (indirects_settled_iff (by decide +kernel) (by decide +kernel)).mpr ⟨by decide +kernel, by decide +kernel⟩

/-- A callback of two arguments vanishes: no function has two parameters, its placeholder is
removed, and its caller counts no call. -/
theorem two_arguments_vanish : ¬ IndirectsSettled no_receivers 10 [callback_input 2] .default := by
  intro h
  have hnodes : ∃ n ∈ (sig_linked no_receivers 10 [callback_input 2] .default).nodes,
      n.node.unresolved_calls = 0 ∧
        unmatched_calls (sig_linked no_receivers 10 [callback_input 2] .default) [callback_input 2] .default n = 1 := by
    decide +kernel
  obtain ⟨n, hn, hcalls, hunmatched⟩ := hnodes
  have hcounted := h.counted n hn
  rw [hcalls, hunmatched, UInt32.toNat_zero] at hcounted
  omega

end sample

end cgx.resolve
