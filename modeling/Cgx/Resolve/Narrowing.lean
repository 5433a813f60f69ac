import Cgx.Receiver.Narrow
import Cgx.Resolve.Tally

open cgx.core cgx.frontend cgx.receiver sorting

namespace cgx.resolve

/-! ### The linked ids of the symbol nodes -/

section

variable {env : LinkEnv} {inputs : List FileInput} {opts : LinkOpts}

theorem build_nodes_at {s : Nat} {t : Origin × NodeWithProvenance}
    (h : (placed_symbols inputs)[s]? = some t) :
    (build_nodes inputs)[s]? = some { t.2 with node := { t.2.node with id := .ofIndex s } } := by
  rw [build_nodes_eq, assign_ids, List.getElem?_mapIdx, List.getElem?_map, h]
  rfl

/-- The final sort moves a symbol node's id as it moves the node. -/
theorem linked_id_symbol (hlength : (staged_nodes inputs opts).length ≤ 2 ^ 32) {s : Nat}
    {t : Origin × NodeWithProvenance} (h : (placed_symbols inputs)[s]? = some t) :
    linked_id inputs opts (.ofIndex s) = .ofIndex (s + shift inputs opts t.2) := by
  have hsorted : (build_nodes inputs).Pairwise fun a b => (node_order a b).isLE := by
    rw [build_nodes_eq, assign_ids]
    apply List.pairwise_iff_getElem.mpr
    intro i j hi hj hij
    have hsymbols : (placed_symbols inputs).Pairwise fun a b => (tagged_order a b).isLE :=
      pairwise_sort_by (staged_origins inputs)
    rw [List.length_mapIdx, List.length_map] at hi hj
    simp only [List.getElem_mapIdx, List.getElem_map]
    exact List.pairwise_iff_getElem.mp hsymbols i j hi hj hij
  exact linked_id_place hlength (getElem?_sort_by_append hsorted (build_nodes_at h))

/-- The definition at a place of the linked graph, with its symbol node. -/
theorem symbol_of_placed {p : Nat} {o : Origin} {n : NodeWithProvenance}
    (h : (placed inputs opts)[p]? = some (some o, n)) :
    ∃ s, (placed_symbols inputs)[s]? = some (o, n) ∧ p = s + shift inputs opts n := by
  have hmem : (o, n) ∈ placed_symbols inputs := by
    cases List.mem_append.mp (mem_sort_by.mp (List.mem_of_getElem? h)) with
    | inl hsymbol =>
      obtain ⟨t, ht, heq⟩ := List.mem_map.mp hsymbol
      cases heq
      exact ht
    | inr hvalue =>
      obtain ⟨v, -, heq⟩ := List.mem_map.mp hvalue
      cases heq
  obtain ⟨s, hs⟩ := List.mem_iff_getElem?.mp hmem
  exact ⟨s, hs, origin_at_inj (origin_at_of_placed h) (origin_at_shift opts hs)⟩

theorem symbols_length_le (hlength : (staged_nodes inputs opts).length ≤ 2 ^ 32) :
    (placed_symbols inputs).length ≤ 2 ^ 32 := by
  have hbuild : (build_nodes inputs).length = (placed_symbols inputs).length := by
    rw [build_nodes_eq, assign_ids, List.length_mapIdx, List.length_map]
  rw [staged_nodes, List.length_append] at hlength
  omega

theorem symbols_distinct (hlength : (staged_nodes inputs opts).length ≤ 2 ^ 32) :
    (symbol_table inputs).Distinct := by
  apply symbol_table_distinct
  rw [staged_nodes, List.length_append] at hlength
  omega

theorem placed_length (inputs : List FileInput) (opts : LinkOpts) :
    (placed inputs opts).length = (staged_nodes inputs opts).length := by
  have hbuild : (build_nodes inputs).length = (placed_symbols inputs).length := by
    rw [build_nodes_eq, assign_ids, List.length_mapIdx, List.length_map]
  rw [placed, length_sort_by, List.length_append, List.length_map, List.length_map, staged_nodes,
    List.length_append, hbuild]

/-- A definition has one symbol node. -/
theorem placed_symbols_inj {s s' : Nat} {t t' : Origin × NodeWithProvenance}
    (h : (placed_symbols inputs)[s]? = some t) (h' : (placed_symbols inputs)[s']? = some t')
    (hsame : t.1 = t'.1) : s = s' := by
  have hdistinct : (placed_symbols inputs).Pairwise fun a b => a.1 ≠ b.1 :=
    ((perm_sort_by _).pairwise_iff fun h => h.symm).mpr (staged_origins_distinct inputs)
  obtain ⟨hs, rfl⟩ := List.getElem?_eq_some_iff.mp h
  obtain ⟨hs', rfl⟩ := List.getElem?_eq_some_iff.mp h'
  rcases Nat.lt_trichotomy s s' with hlt | heq | hlt
  · exact absurd hsame (List.pairwise_iff_getElem.mp hdistinct s s' hs hs' hlt)
  · exact heq
  · exact absurd hsame.symm (List.pairwise_iff_getElem.mp hdistinct s' s hs' hs hlt)

/-- Two symbol nodes of one linked id are one. -/
theorem linked_id_symbol_inj (hlength : (staged_nodes inputs opts).length ≤ 2 ^ 32) {s s' : Nat}
    {t t' : Origin × NodeWithProvenance} (h : (placed_symbols inputs)[s]? = some t)
    (h' : (placed_symbols inputs)[s']? = some t')
    (heq : linked_id inputs opts (.ofIndex s) = linked_id inputs opts (.ofIndex s')) : s = s' := by
  rw [linked_id_symbol hlength h, linked_id_symbol hlength h'] at heq
  have hat := placed_of_placed_symbols opts h
  have hat' := placed_of_placed_symbols opts h'
  have hlt := (List.getElem?_eq_some_iff.mp hat).1
  have hlt' := (List.getElem?_eq_some_iff.mp hat').1
  rw [placed_length] at hlt hlt'
  have hindex := congrArg NodeId.index heq
  rw [NodeId.index_ofIndex (by omega), NodeId.index_ofIndex (by omega)] at hindex
  rw [hindex, hat'] at hat
  simp only [Option.some.injEq, Prod.mk.injEq] at hat
  exact placed_symbols_inj h h' hat.1.symm

/-! ### The narrowing counters of the linked nodes -/

/-- The id of a symbol node before the final sort. -/
def SymbolId (inputs : List FileInput) (id : NodeId) : Prop :=
  ∃ (s : Nat) (t : Origin × NodeWithProvenance), (placed_symbols inputs)[s]? = some t ∧ id = .ofIndex s

theorem placed_narrowing {t : Option Origin × NodeWithProvenance} (ht : t ∈ placed inputs opts) :
    t.2.node.narrowing = Ledger.no_counts := by
  cases List.mem_append.mp (mem_sort_by.mp ht) with
  | inl hsymbol =>
    obtain ⟨⟨o, n⟩, hmem, rfl⟩ := List.mem_map.mp hsymbol
    obtain ⟨file, d, -, -, rfl⟩ := mem_staged_origins.mp (mem_sort_by.mp hmem)
    rfl
  | inr hvalue =>
    obtain ⟨v, hv, rfl⟩ := List.mem_map.mp hvalue
    rw [link_values] at hv
    split at hv
    · obtain ⟨i, hi, rfl⟩ := List.mem_mapIdx.mp hv
      obtain ⟨stage, -, heq⟩ := List.mem_map.mp (mem_sort_by.mp (List.getElem_mem hi))
      simp only [← heq]
      rfl
    · cases hv

theorem entry_symbol_id {d : DefEntry} (hd : d ∈ (symbol_table inputs).entries) :
    ∃ (s : Nat) (t : Origin × NodeWithProvenance), (placed_symbols inputs)[s]? = some t ∧
      d = SymbolTable.entry { t.2.node with id := .ofIndex s } := by
  rw [symbol_table, SymbolTable.build] at hd
  obtain ⟨record, hrecord, rfl⟩ := List.mem_map.mp hd
  obtain ⟨n, hn, rfl⟩ := List.mem_map.mp hrecord
  obtain ⟨s, hs⟩ := List.mem_iff_getElem?.mp hn
  have hlt : s < (placed_symbols inputs).length := by
    have hlt := (List.getElem?_eq_some_iff.mp hs).1
    rwa [build_nodes_eq, assign_ids, List.length_mapIdx, List.length_map] at hlt
  have hat := List.getElem?_eq_getElem hlt
  rw [build_nodes_at hat] at hs
  cases hs
  exact ⟨s, _, hat, rfl⟩

/-- The counters of a link, before its ids move. -/
def link_counts (env : LinkEnv) (inputs : List FileInput) (opts : LinkOpts) :
    List (NodeId × NarrowingCounts) :=
  (link_refs env inputs opts).ledger.finish (symbol_table inputs)

theorem link_counts_keys {row : NodeId × NarrowingCounts} (h : row ∈ link_counts env inputs opts) :
    SymbolId inputs row.1 := by
  cases Ledger.finish_keys h with
  | inl hentry =>
    obtain ⟨d, hd, heq⟩ := hentry
    obtain ⟨s, t, ht, rfl⟩ := entry_symbol_id hd
    exact ⟨s, t, ht, heq⟩
  | inr hkey =>
    obtain ⟨row', hrow', heq⟩ := List.mem_map.mp hkey
    rw [link_refs_ledger] at hrow'
    rw [← heq]
    cases keys_ledger_after hrow' with
    | inl hcaller =>
      obtain ⟨site, hsite, hid⟩ := hcaller
      obtain ⟨s, t, ht, -, hplace⟩ := (well_placed_of_mem hsite).caller_id_place
      exact ⟨s, t, ht, hid.trans hplace⟩
    | inr hnone => cases hnone

/-- A linked node carries the counters of the id it is stamped under. -/
theorem link_node_counts {p : Nat} {n : NodeWithProvenance}
    (h : (link env inputs opts).nodes[p]? = some n) :
    let counts := Ledger.counts_of
      ((link_counts env inputs opts).map fun row => (linked_id inputs opts row.1, row.2)) (.ofIndex p)
    n.node.narrowing.typed_out = counts.typed_out ∧
      n.node.narrowing.typed_away_in = counts.typed_away_in := by
  rw [link_nodes_stamped, List.getElem?_map, assign_ids, List.getElem?_mapIdx, List.getElem?_map,
    Option.map_map, Option.map_map, Option.map_eq_some_iff] at h
  obtain ⟨t, ht, rfl⟩ := h
  have hrows : (sort_nodes_canonical (numbered env inputs opts)).narrowing =
      (link_counts env inputs opts).map fun row => (linked_id inputs opts row.1, row.2) :=
    (sort_nodes_canonical_eq rfl).2.2
  rw [hrows]
  have hfresh := placed_narrowing (List.mem_of_getElem? ht)
  simp only [Function.comp_apply, stamp, Ledger.counts_of, hfresh, and_self]

/-- A symbol node carries the counters of its id. -/
theorem symbol_counts (hlength : (staged_nodes inputs opts).length ≤ 2 ^ 32) {s : Nat}
    {t : Origin × NodeWithProvenance} (ht : (placed_symbols inputs)[s]? = some t)
    {n : NodeWithProvenance}
    (h : (link env inputs opts).nodes[s + shift inputs opts t.2]? = some n) :
    n.node.narrowing.typed_out =
        (Ledger.counts_of (link_counts env inputs opts) (.ofIndex s)).typed_out ∧
      n.node.narrowing.typed_away_in =
        (Ledger.counts_of (link_counts env inputs opts) (.ofIndex s)).typed_away_in := by
  have hcounts := link_node_counts h
  rw [← linked_id_symbol hlength ht, Ledger.counts_of, entry_of_map] at hcounts
  · exact hcounts
  · intro row hrow heq
    obtain ⟨s', t', ht', hid⟩ := link_counts_keys hrow
    rw [hid] at heq ⊢
    rw [linked_id_symbol_inj hlength ht' ht heq]

/-- A value node carries none. -/
theorem value_counts (hlength : (staged_nodes inputs opts).length ≤ 2 ^ 32) {p : Nat}
    {n : NodeWithProvenance} (h : (link env inputs opts).nodes[p]? = some n)
    (hvalue : origin_at inputs opts p = none) : n.node.narrowing.typed_out = 0 := by
  rw [(link_node_counts h).1, Ledger.counts_of, entry_of_eq_none]
  · rfl
  · intro row hrow heq
    obtain ⟨row', hrow', rfl⟩ := List.mem_map.mp hrow
    obtain ⟨s, t, ht, hid⟩ := link_counts_keys hrow'
    simp only [hid, linked_id_symbol hlength ht] at heq
    have hp := (List.getElem?_eq_some_iff.mp h).1
    have hs := (List.getElem?_eq_some_iff.mp (placed_of_placed_symbols opts ht)).1
    rw [link_nodes_length, placed_length] at hp
    rw [placed_length] at hs
    have hindex := congrArg NodeId.index heq
    rw [NodeId.index_ofIndex (by omega), NodeId.index_ofIndex (by omega)] at hindex
    rw [← hindex, origin_at_shift opts ht] at hvalue
    cases hvalue

/-! ### What the ledger holds after the references -/

/-- The sites of a link that narrowing decided. -/
def narrowed_sites (env : LinkEnv) (inputs : List FileInput) (opts : LinkOpts) : List Site :=
  (link_sites (build_nodes inputs) inputs).filter fun site => (resolved env inputs opts site).is_narrowed

theorem typed_out_eq (id : NodeId) :
    (Ledger.counts_of (link_counts env inputs opts) id).typed_out =
      UInt32.ofNat ((link_sites (build_nodes inputs) inputs).countP fun site =>
        (resolved env inputs opts site).is_typed && decide (site.caller_id = id)) := by
  rw [link_counts, Ledger.finish_typed_out, link_refs_ledger]
  exact (count_ledger_after (resolved env inputs opts)
    (fun l => (Ledger.counts_of l.counts id).typed_out) _
    (fun site l => Ledger.note_typed_out site _ l id) _ .new).trans (UInt32.zero_add _)

theorem narrowed_under_eq (key : String × String) :
    (link_refs env inputs opts).ledger.narrowed_under key =
      UInt32.ofNat ((narrowed_sites env inputs opts).countP fun site => decide (site.tally_key = key)) := by
  have hcount := count_ledger_after (resolved env inputs opts) (fun l => l.narrowed_under key) _
    (fun site l => Ledger.note_narrowed_under site _ l key) (link_sites (build_nodes inputs) inputs) .new
  rw [link_refs_ledger, narrowed_sites, List.countP_filter]
  simp only [Bool.and_comm] at hcount ⊢
  exact hcount.trans (UInt32.zero_add _)

theorem kept_of_eq (id : NodeId) :
    (link_refs env inputs opts).ledger.kept_of id =
      UInt32.ofNat ((narrowed_sites env inputs opts).countP fun site =>
        decide (id ∈ (resolved env inputs opts site).kept)) := by
  have hcount := count_ledger_after (resolved env inputs opts) (fun l => l.kept_of id) _
    (fun site l => Ledger.note_kept_of site _ l id) (link_sites (build_nodes inputs) inputs) .new
  have hnarrowed : ∀ site, decide (id ∈ (resolved env inputs opts site).kept) =
      (decide (id ∈ (resolved env inputs opts site).kept) &&
        (resolved env inputs opts site).is_narrowed) := by
    intro site
    cases resolved env inputs opts site <;> simp [Resolution.kept, Resolution.is_narrowed]
  rw [link_refs_ledger, narrowed_sites, List.countP_filter]
  simp only [← hnarrowed]
  exact hcount.trans (UInt32.zero_add _)

/-- A method is charged with the narrowed sites of its name that omit it, where narrowing
keeps only methods of the site's name. -/
theorem away_eq (hlength : (staged_nodes inputs opts).length ≤ 2 ^ 32)
    (hsites : (link_sites (build_nodes inputs) inputs).length < 2 ^ 32)
    (hkept : ∀ site ∈ narrowed_sites env inputs opts, ∀ d ∈ (symbol_table inputs).entries,
      d.node_id ∈ (resolved env inputs opts site).kept → site.tally_key = d.tally_key)
    {d : DefEntry} (hd : d ∈ (symbol_table inputs).entries) (hkind : is_method_kind d.kind = true) :
    (Ledger.counts_of (link_counts env inputs opts) d.node_id).typed_away_in.toNat =
      (narrowed_sites env inputs opts).countP fun site =>
        decide (site.tally_key = d.tally_key) &&
          !decide (d.node_id ∈ (resolved env inputs opts site).kept) := by
  have hkeys : ((link_refs env inputs opts).ledger.narrowed.map Prod.fst).Nodup := by
    rw [link_refs_ledger]
    exact nodup_ledger_after _ List.nodup_nil
  have hzero : (Ledger.counts_of (link_refs env inputs opts).ledger.counts d.node_id).typed_away_in = 0 := by
    rw [link_refs_ledger]
    have hcount := count_ledger_after (resolved env inputs opts)
      (fun l => (Ledger.counts_of l.counts d.node_id).typed_away_in) (fun _ => false)
      (fun site l => by rw [Ledger.note_away, Ledger.tick]; simp)
      (link_sites (build_nodes inputs) inputs) .new
    rw [hcount]
    simp [Ledger.counts_of, Ledger.new, entry_of, Ledger.no_counts]
  rw [link_counts, finish_away (symbols_distinct hlength) hkeys hd hkind, hzero, UInt32.zero_add,
    narrowed_under_eq, kept_of_eq]
  have hsplit := countP_split
    (p := fun site => decide (site.tally_key = d.tally_key))
    (q := fun site => decide (d.node_id ∈ (resolved env inputs opts site).kept))
    fun site hsite hq => decide_eq_true (hkept site hsite d hd (of_decide_eq_true hq))
  have hfit : (narrowed_sites env inputs opts).countP (fun site => decide (site.tally_key = d.tally_key))
      < 2 ^ 32 := by
    have hle : (narrowed_sites env inputs opts).length ≤ (link_sites (build_nodes inputs) inputs).length :=
      List.length_filter_le _ _
    have hcount : (narrowed_sites env inputs opts).countP
        (fun site => decide (site.tally_key = d.tally_key)) ≤ (narrowed_sites env inputs opts).length :=
      List.countP_le_length
    omega
  rw [missed_ofNat (by omega) hfit]
  omega

/-! ### What narrowing keeps -/

/-- The receiver index as a part of the link. -/
def narrowing_env (index : List FileInput → SymbolTable → ReceiverIndex)
    (summary_edges : List FileInput → (String → Option NodeId) → List EdgeWithProvenance) : LinkEnv :=
  ⟨fun inputs table site => (index inputs table).narrow table site, summary_edges⟩

theorem resolve_by_name_not_typed {table : SymbolTable} {lang last : String} {raw : RawRef} {r : Resolution}
    (h : resolve_by_name table opts lang raw last = r) : r.is_typed = false := by
  subst h
  rw [resolve_by_name]
  split
  · split <;> rfl
  · rfl

theorem resolve_by_import_not_typed {table : SymbolTable} {lang head last : String} {scopes : ScopeTree}
    {bindings : List ImportBinding} {raw : RawRef} {r : Resolution}
    (h : resolve_by_import table opts lang scopes bindings raw head last = r) : r.is_typed = false := by
  subst h
  rw [resolve_by_import]
  split
  · rfl
  · rfl
  · exact resolve_by_name_not_typed rfl

/-- Only the receiver index types a site. -/
theorem resolution_typed {table : SymbolTable} {receivers : Option (Site → Narrowed)}
    {bindings : List ImportBinding} {site : Site} {hits : List DefEntry} {rule : String}
    {virtual_dispatch : Bool}
    (h : resolution table opts receivers bindings site = .Typed hits rule virtual_dispatch) :
    ∃ narrow, receivers = some narrow ∧ narrow site = .Typed hits rule virtual_dispatch := by
  have hnot : ∀ {r : Resolution}, r = .Typed hits rule virtual_dispatch → r.is_typed = false → False := by
    intro r heq hfalse
    rw [heq] at hfalse
    cases hfalse
  rw [resolution] at h
  split at h
  · split at h
    · cases h
    split at h
    · cases h
    split at h
    · cases h
    unfold resolve_by_receiver at h
    split at h
    · rename_i narrow
      split at h
      · split at h
        · rename_i hnarrow
          cases h
          exact ⟨narrow, rfl, hnarrow⟩
        · cases h
        · exact (hnot h (resolve_by_import_not_typed rfl)).elim
      · exact (hnot h (resolve_by_import_not_typed rfl)).elim
    · exact (hnot h (resolve_by_import_not_typed rfl)).elim
  · cases h

theorem kept_candidates {index : List FileInput → SymbolTable → ReceiverIndex}
    {summary_edges : List FileInput → (String → Option NodeId) → List EdgeWithProvenance} {site : Site}
    {id : NodeId} (h : id ∈ (resolved (narrowing_env index summary_edges) inputs opts site).kept) :
    ∃ d ∈ method_candidates (symbol_table inputs) site.method site.file.lang, d.node_id = id := by
  generalize hr : resolved (narrowing_env index summary_edges) inputs opts site = r at h
  cases r with
  | Typed hits rule virtual_dispatch =>
    obtain ⟨d, hd, rfl⟩ := List.mem_map.mp h
    obtain ⟨narrow, hnarrow, htyped⟩ := resolution_typed hr
    rw [receivers] at hnarrow
    split at hnarrow
    · cases hnarrow
      exact ⟨d, ReceiverIndex.narrow_subset htyped d hd, rfl⟩
    · cases hnarrow
  | _ => cases h

/-- The edges that a site leaves in the linked graph, up to their ids and groups. -/
def emitted_edges (env : LinkEnv) (inputs : List FileInput) (opts : LinkOpts) (site : Site) :
    List EdgeWithProvenance :=
  (emitted site (resolved env inputs opts site)).map (linked_edge inputs opts)

/-- They are edges of the graph. -/
theorem emitted_edges_linked {site : Site} (hsite : site ∈ link_sites (build_nodes inputs) inputs)
    {e : EdgeWithProvenance} (he : e ∈ emitted_edges env inputs opts site) :
    ∃ e' ∈ (link env inputs opts).edges, stem e' = stem e := by
  obtain ⟨e₀, he₀, rfl⟩ := List.mem_map.mp he
  have hstem : ∀ x : EdgeWithProvenance, stem (stem x) = stem x := fun _ => rfl
  have hmove : ∀ x : EdgeWithProvenance, stem (linked_edge inputs opts (stem x)) =
      stem (linked_edge inputs opts x) := fun _ => rfl
  have hrefs : ∃ e ∈ (link_refs env inputs opts).edges,
      stem (linked_edge inputs opts e) = stem (linked_edge inputs opts e₀) :=
    (exists_edge_link_refs fun x => by rw [hmove]).mpr ⟨site, hsite, e₀, he₀, rfl⟩
  obtain ⟨e₁, he₁, heq⟩ := hrefs
  exact (exists_edge_link fun x => by rw [hstem]).mpr
    ⟨e₁, List.mem_append_left _ (List.mem_append_left _ he₁), heq⟩

/-- A narrowed site leaves one edge to every node it keeps, and no other. -/
theorem mem_emitted_kept {site : Site} {r : Resolution} (h : r.is_narrowed = true) (id : NodeId) :
    (∃ e ∈ emitted site r, e.edge.dst = id) ↔ id ∈ r.kept := by
  cases r with
  | Typed hits rule virtual_dispatch =>
    simp only [emitted, apply_resolution, emit_candidate_set, LinkState.new, List.nil_append,
      Resolution.kept, List.mem_map]
    rw [exists_exists_and_eq_and]
    simp only [edge_of, exists_eq_right]
    split
    · rw [mem_sort_by, canonicalize_candidate_dsts, mem_sort_by, List.mem_dedup, List.mem_map]
    · rw [canonicalize_candidate_dsts, mem_sort_by, List.mem_dedup, List.mem_map]
  | External => simp [emitted, apply_resolution, LinkState.new, Resolution.kept]
  | _ => cases h

/-! ### The account -/

/-- The node of the definition that encloses the site is the last symbol node of its FQN. -/
def LastOfFqn (inputs : List FileInput) (site : Site) : Prop :=
  ∃ (p : Nat) (n : NodeWithProvenance), (placed_symbols inputs)[p]? = some (site.origin, n) ∧
    ∀ (q : Nat) (t : Origin × NodeWithProvenance), p < q → (placed_symbols inputs)[q]? = some t →
      t.2.node.fqn ≠ n.node.fqn

omit inputs opts in
theorem find?_reverse_last {α : Type} {p : α → Bool} {l : List α} {x : α}
    (h : l.reverse.find? p = some x) :
    ∃ q, l[q]? = some x ∧ p x = true ∧ ∀ (q' : Nat) (y : α), q < q' → l[q']? = some y → p y = false := by
  obtain ⟨hx, later, earlier, hsplit, hlater⟩ := List.find?_eq_some_iff_append.mp h
  have hl : l = earlier.reverse ++ x :: later.reverse := by
    have hrev := congrArg List.reverse hsplit
    simpa using hrev
  subst hl
  refine ⟨earlier.length, by simp, hx, fun q' y hlt hy => ?_⟩
  rw [List.getElem?_append_right (by rw [List.length_reverse]; omega), List.length_reverse,
    List.getElem?_cons, if_neg (by omega)] at hy
  have hmem : y ∈ later := List.mem_reverse.mp (List.mem_of_getElem? hy)
  simpa using hlater y hmem

/-- The references of a caller are resolved under the last symbol node of its FQN. -/
theorem Site.WellPlaced.caller_id_last {site : Site} (h : site.WellPlaced inputs) :
    ∃ (q : Nat) (t : Origin × NodeWithProvenance), (placed_symbols inputs)[q]? = some t ∧
      t.2.node.fqn = site.caller.fqn ∧ site.caller_id = .ofIndex q ∧
      ∀ (q' : Nat) (u : Origin × NodeWithProvenance), q < q' → (placed_symbols inputs)[q']? = some u →
        u.2.node.fqn ≠ site.caller.fqn := by
  obtain ⟨n, hfind, hid⟩ := Option.map_eq_some_iff.mp h.caller_id
  obtain ⟨q, hq, hfqn, hlast⟩ := find?_reverse_last hfind
  have hlt : q < (placed_symbols inputs).length := by
    have hlt := (List.getElem?_eq_some_iff.mp hq).1
    rwa [build_nodes_eq, assign_ids, List.length_mapIdx, List.length_map] at hlt
  have hat := List.getElem?_eq_getElem hlt
  rw [build_nodes_at hat] at hq
  cases hq
  refine ⟨q, _, hat, by simpa using hfqn, hid.symm, fun q' u hlt hu => ?_⟩
  simpa using hlast q' _ hlt (build_nodes_at hu)

/-- The caller id of a site is its own definition's exactly when that is the last of its FQN. -/
theorem last_of_fqn_iff (hsymbols : (placed_symbols inputs).length ≤ 2 ^ 32) {site : Site}
    (h : site.WellPlaced inputs) :
    LastOfFqn inputs site ↔ ∃ (p : Nat) (n : NodeWithProvenance),
      (placed_symbols inputs)[p]? = some (site.origin, n) ∧ site.caller_id = .ofIndex p := by
  obtain ⟨q, t, hq, hfqn, hid, hlast⟩ := h.caller_id_last
  constructor
  · rintro ⟨p, n, hp, hlater⟩
    have hname := h.node_fqn (List.mem_of_getElem? hp)
    rcases Nat.lt_trichotomy p q with hlt | heq | hlt
    · exact absurd (hfqn.trans hname.symm) (hlater q t hlt hq)
    · exact ⟨p, n, hp, heq ▸ hid⟩
    · exact absurd hname (hlast p _ hlt hp)
  · rintro ⟨p, n, hp, hcaller⟩
    have hname := h.node_fqn (List.mem_of_getElem? hp)
    have hplt := (List.getElem?_eq_some_iff.mp hp).1
    have hqlt := (List.getElem?_eq_some_iff.mp hq).1
    have hindex := congrArg NodeId.index (hcaller.symm.trans hid)
    rw [NodeId.index_ofIndex (by omega), NodeId.index_ofIndex (by omega)] at hindex
    subst hindex
    exact ⟨p, n, hp, fun q' u hlt hu => hname ▸ hlast q' u hlt hu⟩

/-- The typed sites whose references are resolved under the symbol node `s`. -/
def typed_under (env : LinkEnv) (inputs : List FileInput) (opts : LinkOpts) (s : Nat) (site : Site) : Bool :=
  (resolved env inputs opts site).is_typed && decide (site.caller_id = .ofIndex s)

/-- The typed sites that the definition `o` encloses. -/
def typed_in (env : LinkEnv) (inputs : List FileInput) (opts : LinkOpts) (o : Option Origin) (site : Site) :
    Bool :=
  (resolved env inputs opts site).is_typed && decide (o = some site.origin)

/-- Narrowing is fully accounted: a narrowed site leaves edges to methods of its own name
and language only, a node's `typed_out` is the number of typed sites it encloses, and a
method's `typed_away_in` the number of narrowed sites of its name and language whose edges
omit it. -/
structure NarrowingAccounted (env : LinkEnv) (inputs : List FileInput) (opts : LinkOpts) : Prop where
  targets : ∀ site ∈ narrowed_sites env inputs opts, ∀ e ∈ emitted_edges env inputs opts site,
    ∃ m, node_of (link env inputs opts).nodes e.edge.dst = some m ∧
      is_method_kind m.node.kind = true ∧
      (site.file.lang, site.method) = (m.node.lang, short_name m.node.fqn)
  typed_out : ∀ (p : Nat) (n : NodeWithProvenance), (link env inputs opts).nodes[p]? = some n →
    n.node.narrowing.typed_out.toNat = (link_sites (build_nodes inputs) inputs).countP
      (typed_in env inputs opts (origin_at inputs opts p))
  away : ∀ n ∈ (link env inputs opts).nodes, is_method_kind n.node.kind = true →
    n.node.narrowing.typed_away_in.toNat = (narrowed_sites env inputs opts).countP fun site =>
      decide ((site.file.lang, site.method) = (n.node.lang, short_name n.node.fqn)) &&
        decide (∀ e ∈ emitted_edges env inputs opts site, e.edge.dst ≠ n.node.id)

theorem typed_under_iff_in (hsymbols : (placed_symbols inputs).length ≤ 2 ^ 32) {site : Site}
    (hsite : site.WellPlaced inputs) (hlast : LastOfFqn inputs site) {s : Nat}
    {t : Origin × NodeWithProvenance} (ht : (placed_symbols inputs)[s]? = some t) :
    site.caller_id = .ofIndex s ↔ some t.1 = some site.origin := by
  obtain ⟨p, n, hp, hid⟩ := (last_of_fqn_iff hsymbols hsite).mp hlast
  constructor
  · intro heq
    have hplt := (List.getElem?_eq_some_iff.mp hp).1
    have hslt := (List.getElem?_eq_some_iff.mp ht).1
    have hindex := congrArg NodeId.index (hid.symm.trans heq)
    rw [NodeId.index_ofIndex (by omega), NodeId.index_ofIndex (by omega)] at hindex
    subst hindex
    rw [hp] at ht
    cases ht
    rfl
  · intro heq
    rw [hid, placed_symbols_inj hp ht (Option.some.inj heq).symm]

/-- A node's `typed_out` counts the typed sites resolved under it. -/
theorem link_typed_out (hlength : (staged_nodes inputs opts).length ≤ 2 ^ 32)
    (hsites : (link_sites (build_nodes inputs) inputs).length < 2 ^ 32) {s : Nat}
    {t : Origin × NodeWithProvenance} (ht : (placed_symbols inputs)[s]? = some t)
    {n : NodeWithProvenance}
    (h : (link env inputs opts).nodes[s + shift inputs opts t.2]? = some n) :
    n.node.narrowing.typed_out.toNat =
      (link_sites (build_nodes inputs) inputs).countP (typed_under env inputs opts s) := by
  rw [(symbol_counts hlength ht h).1, typed_out_eq]
  exact UInt32.toNat_ofNat_of_lt' (Nat.lt_of_le_of_lt List.countP_le_length hsites)

/-- The forward counts are exact if and only if every typed site is enclosed by the last
definition of its FQN. -/
theorem typed_out_iff (hlength : (staged_nodes inputs opts).length ≤ 2 ^ 32)
    (hsites : (link_sites (build_nodes inputs) inputs).length < 2 ^ 32) :
    (∀ (p : Nat) (n : NodeWithProvenance), (link env inputs opts).nodes[p]? = some n →
      n.node.narrowing.typed_out.toNat = (link_sites (build_nodes inputs) inputs).countP
        (typed_in env inputs opts (origin_at inputs opts p))) ↔
      ∀ site ∈ link_sites (build_nodes inputs) inputs,
        (resolved env inputs opts site).is_typed = true → LastOfFqn inputs site := by
  have hsymbols := symbols_length_le hlength
  constructor
  · intro h site hsite htyped
    have hplaced := well_placed_of_mem hsite
    obtain ⟨q, t, hq, hfqn, hid, -⟩ := hplaced.caller_id_last
    obtain ⟨n, hn, -⟩ := link_node_of_placed env (placed_of_placed_symbols opts hq)
    have hcount := h _ n hn
    rw [link_typed_out hlength hsites hq hn, origin_at_shift opts hq] at hcount
    -- what the definition encloses is resolved under it, so equal counts are equal sets
    have hunder : ∀ x ∈ link_sites (build_nodes inputs) inputs,
        typed_in env inputs opts (some t.1) x = true → typed_under env inputs opts q x = true := by
      intro x hx hin
      rw [typed_in, Bool.and_eq_true, decide_eq_true_iff, Option.some.injEq] at hin
      have hxplaced := well_placed_of_mem hx
      have hmem : (x.origin, t.2) ∈ placed_symbols inputs := by
        rw [← hin.2]
        exact List.mem_of_getElem? hq
      have hname := (hxplaced.node_fqn hmem).symm.trans hfqn
      have hcaller := hxplaced.caller_id
      rw [hname, hplaced.caller_id] at hcaller
      rw [typed_under, hin.1, ← Option.some.inj hcaller, hid, Bool.true_and, decide_eq_true_iff]
    have hsplit := countP_split hunder
    have hzero : ((link_sites (build_nodes inputs) inputs).countP fun x =>
        typed_under env inputs opts q x && !typed_in env inputs opts (some t.1) x) = 0 := by
      omega
    have hnone := List.countP_eq_zero.mp hzero site hsite
    have hsite_under : typed_under env inputs opts q site = true := by
      rw [typed_under, htyped, hid, Bool.true_and, decide_eq_true_iff]
    rw [hsite_under, Bool.true_and, Bool.not_eq_true', Bool.not_eq_false, typed_in, htyped,
      Bool.true_and, decide_eq_true_iff, Option.some.injEq] at hnone
    exact (last_of_fqn_iff hsymbols hplaced).mpr ⟨q, t.2, hnone ▸ hq, hid⟩
  · intro h p n hn
    obtain ⟨t, ht⟩ : ∃ t, (placed inputs opts)[p]? = some t := by
      have hlt := (List.getElem?_eq_some_iff.mp hn).1
      rw [link_nodes_length] at hlt
      exact ⟨_, List.getElem?_eq_getElem hlt⟩
    obtain ⟨o, m⟩ := t
    have horigin := origin_at_of_placed ht
    cases o with
    | none =>
      have hnone : ∀ site ∈ link_sites (build_nodes inputs) inputs,
          ¬ typed_in env inputs opts none site = true := by
        intro site _
        simp [typed_in]
      rw [horigin, value_counts hlength hn horigin, List.countP_eq_zero.mpr hnone]
      rfl
    | some o =>
      obtain ⟨s, hs, rfl⟩ := symbol_of_placed ht
      rw [link_typed_out hlength hsites hs hn, horigin]
      apply List.countP_congr
      intro site hsite
      rw [typed_under, typed_in, Bool.and_eq_true, Bool.and_eq_true, decide_eq_true_iff,
        decide_eq_true_iff]
      exact and_congr_right fun htyped =>
        typed_under_iff_in hsymbols (well_placed_of_mem hsite) (h site hsite htyped) hs

/-- With distinct FQNs every definition is the last of its own. -/
theorem last_of_distinct (h : DistinctFqns inputs) {site : Site} (hsite : site.WellPlaced inputs) :
    LastOfFqn inputs site := by
  obtain ⟨p, n, hp⟩ := hsite.has_node
  refine ⟨p, n, hp, fun q t hlt hq heq => ?_⟩
  have hplt := (List.getElem?_eq_some_iff.mp hp).1
  have hfqn : ((placed_symbols inputs).map fun t => t.2.node.fqn)[p]? =
      ((placed_symbols inputs).map fun t => t.2.node.fqn)[q]? := by
    rw [List.getElem?_map, List.getElem?_map, hp, hq, Option.map_some, Option.map_some, heq]
  have hpq := (List.getElem?_inj (by rwa [List.length_map]) h).mp hfqn
  omega

/-- The node of an entry in the linked graph. -/
theorem node_of_entry (hnodes : (link env inputs opts).nodes.length ≤ 2 ^ 32) {d : DefEntry}
    (hd : d ∈ (symbol_table inputs).entries) :
    ∃ m, node_of (link env inputs opts).nodes (linked_id inputs opts d.node_id) = some m ∧
      m.node.kind = d.kind ∧ m.node.lang = d.lang ∧ m.node.fqn = d.fqn := by
  obtain ⟨s, t, ht, rfl⟩ := entry_symbol_id hd
  have hstaged : { t.2 with node := { t.2.node with id := .ofIndex s } } ∈ staged_nodes inputs opts :=
    List.mem_append_left _ (List.mem_of_getElem? (build_nodes_at ht))
  obtain ⟨m, narrowing, hm, rfl⟩ := node_of_linked_id hnodes hstaged
  exact ⟨_, hm, rfl, rfl, rfl⟩

/-- A linked node that is a method is the node of an entry. -/
theorem entry_of_method {p : Nat} {n : NodeWithProvenance} (h : (link env inputs opts).nodes[p]? = some n)
    (hkind : is_method_kind n.node.kind = true) :
    ∃ (s : Nat) (t : Origin × NodeWithProvenance), (placed_symbols inputs)[s]? = some t ∧
      p = s + shift inputs opts t.2 ∧ n.node.id = .ofIndex p ∧
      ∃ d ∈ (symbol_table inputs).entries, d.node_id = .ofIndex s ∧ d.kind = n.node.kind ∧
        d.tally_key = (n.node.lang, short_name n.node.fqn) := by
  obtain ⟨⟨o, m⟩, narrowing, ht, rfl⟩ := link_node_at h
  cases o with
  | none =>
    exfalso
    cases List.mem_append.mp (mem_sort_by.mp (List.mem_of_getElem? ht)) with
    | inl hsymbol =>
      obtain ⟨u, -, heq⟩ := List.mem_map.mp hsymbol
      cases heq
    | inr hvalue =>
      obtain ⟨v, hv, heq⟩ := List.mem_map.mp hvalue
      cases heq
      rw [link_values] at hv
      split at hv
      · obtain ⟨i, hi, rfl⟩ := List.mem_mapIdx.mp hv
        obtain ⟨stage, -, heq⟩ := List.mem_map.mp (mem_sort_by.mp (List.getElem_mem hi))
        simp only [← heq] at hkind
        cases hkind
      · cases hv
  | some o =>
    obtain ⟨s, hs, rfl⟩ := symbol_of_placed ht
    have hentry : SymbolTable.entry { m.node with id := .ofIndex s } ∈ (symbol_table inputs).entries := by
      rw [symbol_table, SymbolTable.build]
      exact List.mem_map.mpr ⟨_, List.mem_map.mpr ⟨_, List.mem_of_getElem? (build_nodes_at hs), rfl⟩, rfl⟩
    exact ⟨s, _, hs, rfl, rfl, _, hentry, rfl, rfl, rfl⟩

/-- A narrowed site keeps a symbol node exactly when it leaves an edge to it. -/
theorem kept_iff_edge {index : List FileInput → SymbolTable → ReceiverIndex}
    {summary_edges : List FileInput → (String → Option NodeId) → List EdgeWithProvenance}
    (hlength : (staged_nodes inputs opts).length ≤ 2 ^ 32) {site : Site}
    (h : (resolved (narrowing_env index summary_edges) inputs opts site).is_narrowed = true) {s : Nat}
    {t : Origin × NodeWithProvenance} (ht : (placed_symbols inputs)[s]? = some t) :
    .ofIndex s ∈ (resolved (narrowing_env index summary_edges) inputs opts site).kept ↔
      ∃ e ∈ emitted_edges (narrowing_env index summary_edges) inputs opts site,
        e.edge.dst = .ofIndex (s + shift inputs opts t.2) := by
  rw [← linked_id_symbol hlength ht]
  constructor
  · intro hkept
    obtain ⟨e, he, hdst⟩ := (mem_emitted_kept h _).mpr hkept
    exact ⟨_, List.mem_map_of_mem he, congrArg (linked_id inputs opts) hdst⟩
  · rintro ⟨e, he, hdst⟩
    obtain ⟨e₀, he₀, rfl⟩ := List.mem_map.mp he
    have hkept := (mem_emitted_kept h _).mp ⟨e₀, he₀, rfl⟩
    obtain ⟨d, hd, hid⟩ := kept_candidates hkept
    obtain ⟨s', t', ht', rfl⟩ := entry_symbol_id (mem_method_candidates_iff.mp hd).1
    rw [← hid] at hkept
    have hmove : linked_id inputs opts e₀.edge.dst = linked_id inputs opts (.ofIndex s) := hdst
    rw [← hid] at hmove
    rwa [linked_id_symbol_inj hlength ht ht' hmove.symm]

end

namespace sample

def python_method (fqn : String) (line : UInt32) : SymbolDef where
  fqn := fqn
  kind := .Method
  visibility := .Public
  scope := .ROOT
  span := ⟨"a.py", line, none⟩
  line_end := line
  is_abstract := false
  signature := none

/-- `class A` with a method `m` and a property `x` whose getter calls `self.m()`; the setter,
where there is one, has the getter's FQN. -/
def property_file (setter : List SymbolDef) : FileInput where
  blob_oid := ""
  path := "a.py"
  lang := "python"
  facts :=
    { FileFacts.empty with
      defs := [{ python_method "a::A" 1 with kind := .Type }, python_method "a::A::m" 2,
        python_method "a::A::x" 5] ++ setter
      refs :=
        [{ name_path := ["self", "m"], scope := ⟨2⟩, kind := .CallVirtualReceiver,
           edge_condition := .Always, implicit := none, span := ⟨"a.py", 6, none⟩, stmt_index := 0,
           arity := some 0, cut_markers := [] }]
      scopes := ⟨[⟨none, none⟩, ⟨some .ROOT, some "a::A"⟩, ⟨some ⟨1⟩, some "a::A::x"⟩]⟩ }

def setter_def : SymbolDef :=
  python_method "a::A::x" 9

/-- `self` is an instance of `A`, which owns `m`. -/
def property_index (_ : List FileInput) (_ : SymbolTable) : ReceiverIndex where
  names := ["a::A"]
  has_module _ := true
  python _ := .Lookup "recv-self" true { targets := {0} }
  go_types _ := none

def property_env : LinkEnv :=
  narrowing_env property_index fun _ _ => []

def narrowing_on : LinkOpts :=
  { LinkOpts.default with receiver_narrowing := true }

end sample

/-- Narrowing is fully accounted in the linked graph if and only if every typed site is
enclosed by the last definition of its FQN: the edges and the backward counts are exact in
any case. -/
theorem narrowing_accounted_iff (index : List FileInput → SymbolTable → ReceiverIndex)
    (summary_edges : List FileInput → (String → Option NodeId) → List EdgeWithProvenance)
    (inputs : List FileInput) (opts : LinkOpts)
    (hnodes : (link (narrowing_env index summary_edges) inputs opts).nodes.length ≤ 2 ^ 32)
    (hsites : (link_sites (build_nodes inputs) inputs).length < 2 ^ 32) :
    NarrowingAccounted (narrowing_env index summary_edges) inputs opts ↔
      ∀ site ∈ link_sites (build_nodes inputs) inputs,
        (resolved (narrowing_env index summary_edges) inputs opts site).is_typed = true →
          LastOfFqn inputs site := by
  have hlength := staged_nodes_length hnodes
  refine Iff.trans ⟨fun h => h.typed_out, fun h => ⟨?_, h, ?_⟩⟩ (typed_out_iff hlength hsites)
  · intro site hsite e he
    obtain ⟨e₀, he₀, rfl⟩ := List.mem_map.mp he
    have hnarrowed := (List.mem_filter.mp hsite).2
    have hkept := (mem_emitted_kept hnarrowed _).mp ⟨e₀, he₀, rfl⟩
    obtain ⟨d, hd, hid⟩ := kept_candidates hkept
    obtain ⟨hentry, hkind, hkey⟩ := mem_method_candidates_iff.mp hd
    obtain ⟨m, hm, hmkind, hlang, hfqn⟩ := node_of_entry hnodes hentry
    refine ⟨m, ?_, hmkind ▸ hkind, ?_⟩
    · rw [linked_edge, ← hid]
      exact hm
    · rw [hlang, hfqn]
      exact hkey.symm
  · intro n hn hkind
    obtain ⟨p, hp⟩ := List.mem_iff_getElem?.mp hn
    obtain ⟨s, t, ht, rfl, hid, d, hd, hds, hdkind, hdkey⟩ := entry_of_method hp hkind
    rw [(symbol_counts hlength ht hp).2, ← hds, away_eq hlength hsites _ hd (hdkind ▸ hkind), hdkey]
    · apply List.countP_congr
      intro site hsite
      have hnarrowed := (List.mem_filter.mp hsite).2
      simp only [Bool.and_eq_true, decide_eq_true_iff, Bool.not_eq_true', decide_eq_false_iff_not]
      refine and_congr_right fun _ => ?_
      rw [hds, kept_iff_edge hlength hnarrowed ht, hid]
      simp only [not_exists, not_and, ne_eq]
    · intro site _ d' hd' hkept
      obtain ⟨d'', hd'', heq⟩ := kept_candidates hkept
      obtain ⟨hentry, -, hkey⟩ := mem_method_candidates_iff.mp hd''
      rw [symbols_distinct hlength |>.inj hentry hd' heq] at hkey
      exact hkey.symm

/-- Without the setter, every site is enclosed by the last definition of its FQN. -/
theorem sample.getter_is_accounted :
    NarrowingAccounted sample.property_env [sample.property_file []] sample.narrowing_on :=
  (narrowing_accounted_iff sample.property_index (fun _ _ => []) [sample.property_file []]
    sample.narrowing_on (by decide) (by decide)).mpr
    fun _ hsite _ => last_of_distinct (by decide) (well_placed_of_mem hsite)

/-- The getter's typed site is counted on the setter. -/
theorem sample.setter_takes_the_site :
    ¬ NarrowingAccounted sample.property_env [sample.property_file [sample.setter_def]]
      sample.narrowing_on := by
  intro h
  have hnode : ∃ n, (link sample.property_env [sample.property_file [sample.setter_def]]
      sample.narrowing_on).nodes[2]? = some n ∧ n.node.narrowing.typed_out = 0 := by
    exact ⟨_, rfl, by decide⟩
  obtain ⟨n, hn, htyped⟩ := hnode
  have hcount := h.typed_out 2 n hn
  rw [htyped] at hcount
  revert hcount
  decide

end cgx.resolve
