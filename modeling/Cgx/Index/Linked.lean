import Cgx.Index.Groups
import Cgx.Index.Transparent
import Cgx.Resolve.BlindSpots
import Cgx.Resolve.Narrowing

open cgx.core cgx.frontend cgx.receiver cgx.resolve cgx.store sorting groups

namespace cgx.index

variable {inputs : List FileInput} {opts : LinkOpts}

/-! ### Where references lead -/

def outcome_hits : ResolveOutcome → List DefEntry
  | .Unique hit => [hit]
  | .Ambiguous hits => hits
  | .None => []

theorem outcome_hits_of_hits (hits : List DefEntry) : outcome_hits (.of_hits hits) = hits := by
  cases hits with
  | nil => rfl
  | cons first rest => cases rest <;> rfl

theorem resolve_in_prefixes_hits {t : SymbolTable} {name : String} (prefixes : List String) :
    ∀ d ∈ outcome_hits (t.resolve_in_prefixes name prefixes), d ∈ t.entries := by
  have hmembers : ∀ {keep : DefEntry → Bool} {outcome : ResolveOutcome},
      ResolveOutcome.of_hits (t.entries.filter keep) = outcome → ∀ d ∈ outcome_hits outcome, d ∈ t.entries := by
    intro keep outcome heq d hd
    rw [← heq, outcome_hits_of_hits] at hd
    exact List.mem_of_mem_filter hd
  induction prefixes with
  | nil => exact fun d hd => absurd hd List.not_mem_nil
  | cons m rest ih =>
    rw [SymbolTable.resolve_in_prefixes]
    split
    · split
      · exact ih
      · exact hmembers rfl
    · exact hmembers rfl

/-- A member lookup finds definitions of the table. -/
theorem resolve_member_hits {t : SymbolTable} (fuel : Nat) (visited : List (String × String)) (spec name : String) :
    ∀ d ∈ outcome_hits (t.resolve_member_from fuel visited spec name), d ∈ t.entries := by
  induction fuel generalizing visited spec name with
  | zero => exact fun d hd => absurd hd List.not_mem_nil
  | succ fuel ih =>
    rw [SymbolTable.resolve_member_from]
    split
    · dsimp only
      split
      · exact fun d hd => absurd hd List.not_mem_nil
      · split
        · exact ih _ _ _
        · exact fun d hd => absurd hd List.not_mem_nil
    · exact resolve_in_prefixes_hits _

/-- The nodes that a resolution names. -/
def targets : Resolution → List NodeId
  | .Bound dst _ _ _ => [dst]
  | .Typed hits _ _ => hits.map DefEntry.node_id
  | .Candidates hits _ _ => hits.map DefEntry.node_id
  | _ => []

/-- The ids of a symbol table. -/
def InTable (t : SymbolTable) (id : NodeId) : Prop :=
  ∃ d ∈ t.entries, d.node_id = id

variable {table : SymbolTable}

theorem in_table_of_hits {hits : List DefEntry} (h : ∀ d ∈ hits, d ∈ table.entries) :
    ∀ id ∈ hits.map DefEntry.node_id, InTable table id := by
  intro id hid
  obtain ⟨d, hd, rfl⟩ := List.mem_map.mp hid
  exact ⟨d, h d hd, rfl⟩

theorem resolve_by_name_targets {lang last : String} {raw : RawRef} :
    ∀ id ∈ targets (resolve_by_name table opts lang raw last), InTable table id := by
  have hshort : ∀ name d, d ∈ table.defs_by_short name → d ∈ table.entries :=
    fun name d hd => List.mem_of_mem_filter hd
  have hmethods : ∀ d ∈ (if raw.kind = .CallVirtualReceiver then method_candidates table last lang else []),
      d ∈ table.entries := by
    intro d hd
    split at hd
    · exact hshort last d (List.mem_of_mem_filter (List.mem_of_mem_filter hd))
    · cases hd
  have hfallback : ∀ d ∈ (if opts.name_arity_fallback then name_arity_candidates table opts lang last raw.arity else []),
      d ∈ table.entries := by
    intro d hd
    split at hd
    · unfold name_arity_candidates at hd
      have hlang : ∀ d ∈ ((table.defs_by_short last).filter fun d => d.lang = lang).filter
          fun d => d.kind.is_callable ∨ d.kind = .Type, d ∈ table.entries :=
        fun d hd => hshort last d (List.mem_of_mem_filter (List.mem_of_mem_filter hd))
      dsimp only at hd
      split at hd
      · split at hd
        · exact hlang d hd
        · exact hlang d (List.mem_of_mem_filter hd)
      · exact hlang d hd
    · cases hd
  rw [resolve_by_name]
  simp only [decide_eq_true_eq]
  split
  · split
    · exact fun id hid => absurd hid List.not_mem_nil
    · exact in_table_of_hits hfallback
  · exact in_table_of_hits hmethods

theorem resolve_by_import_targets {lang head last : String} {scopes : ScopeTree} {bindings : List ImportBinding}
    {raw : RawRef} : ∀ id ∈ targets (resolve_by_import table opts lang scopes bindings raw head last), InTable table id := by
  rw [resolve_by_import]
  have hmember : ∀ {spec name : String} {outcome : ResolveOutcome}, table.resolve_member spec name = outcome →
      ∀ d ∈ outcome_hits outcome, d ∈ table.entries := by
    intro spec name outcome heq
    rw [← heq, SymbolTable.resolve_member]
    exact resolve_member_hits _ _ _ _
  split
  · rename_i heq
    obtain ⟨b, _, hres⟩ := Option.map_eq_some_iff.mp heq
    intro id hid
    obtain rfl := List.mem_singleton.mp hid
    exact ⟨_, hmember hres _ List.mem_cons_self, rfl⟩
  · rename_i heq
    obtain ⟨b, _, hres⟩ := Option.map_eq_some_iff.mp heq
    exact in_table_of_hits (hmember hres)
  · exact resolve_by_name_targets

theorem local_target_in_table {facts : FileFacts} {raw : RawRef} {last : String} {dst : NodeId}
    (h : local_target table facts raw last = some dst) : InTable table dst := by
  rw [local_target] at h
  split at h
  · obtain ⟨d, _, h⟩ := Option.bind_eq_some_iff.mp h
    obtain ⟨entry, hentry, rfl⟩ := Option.map_eq_some_iff.mp h
    exact ⟨entry, List.mem_reverse.mp (List.mem_of_find?_eq_some hentry), rfl⟩
  · cases h

theorem pinned_target_in_table {facts : FileFacts} {raw : RawRef} {last : String} {dst : NodeId}
    (h : pinned_target table facts raw last = some dst) : InTable table dst := by
  rw [pinned_target] at h
  split at h
  · obtain ⟨d, _, h⟩ := Option.bind_eq_some_iff.mp h
    split at h
    · rename_i target htarget
      cases h
      have hmem : target ∈ (table.defs_by_short last).filter fun e => e.fqn = d.fqn := htarget ▸ List.mem_cons_self
      exact ⟨target, List.mem_of_mem_filter (List.mem_of_mem_filter hmem), rfl⟩
    · cases h
  · cases h

/-- A receiver index keeps definitions of the table. -/
def KeepsEntries (table : SymbolTable) (receivers : Option (Site → Narrowed)) : Prop :=
  ∀ narrow, receivers = some narrow → ∀ site hits rule virtual_dispatch,
    narrow site = .Typed hits rule virtual_dispatch → ∀ d ∈ hits, d ∈ table.entries

/-- A resolution names definitions of the table. -/
theorem resolution_targets {receivers : Option (Site → Narrowed)} (hkeeps : KeepsEntries table receivers)
    {bindings : List ImportBinding} {site : Site} :
    ∀ id ∈ targets (resolution table opts receivers bindings site), InTable table id := by
  rw [resolution]
  split
  · split
    case h_1 dst hdst =>
      intro id hid
      rw [List.mem_singleton.mp hid]
      exact pinned_target_in_table hdst
    case h_2 =>
      split
      · exact fun id hid => absurd hid List.not_mem_nil
      split
      case h_1 dst hdst =>
        intro id hid
        rw [List.mem_singleton.mp hid]
        exact local_target_in_table hdst
      case h_2 =>
        unfold resolve_by_receiver
        dsimp only
        split
        · rename_i narrow
          split
          · split
            · rename_i htyped
              exact in_table_of_hits (hkeeps narrow rfl site _ _ _ htyped)
            · exact fun id hid => absurd hid List.not_mem_nil
            · exact resolve_by_import_targets
          · exact resolve_by_import_targets
        · exact resolve_by_import_targets
  · exact fun id hid => absurd hid List.not_mem_nil

/-! ### The groups of the references -/

/-- The groups of the references so far are sound and numbered below the next group. -/
structure LinkSound (s : LinkState) : Prop where
  sound : GroupsSound s.edges s.candidates
  below : ∀ p ∈ members s.edges, p.1.toNat < s.next_group.toNat
  room : 2 * s.next_group.toNat ≤ s.edges.length

theorem LinkSound.new : LinkSound .new where
  sound := .of_ungrouped fun _ he => absurd he List.not_mem_nil
  below _ hp := absurd hp List.not_mem_nil
  room := Nat.le_refl 0

/-- A reference with one edge has no group. -/
theorem LinkSound.push_edge {s : LinkState} (h : LinkSound s) {e : EdgeWithProvenance}
    (hnone : e.edge.candidate_group = none) : LinkSound (s.push_edge e) := by
  have hungrouped : ∀ x ∈ [e], x.edge.candidate_group = none := fun x hx => List.mem_singleton.mp hx ▸ hnone
  have hmembers : members (s.edges ++ [e]) = members s.edges := by
    rw [members_append, members_eq_nil hungrouped, List.append_nil]
  constructor
  · have hboth := h.sound.append (.of_ungrouped hungrouped) (by
      intro p hp q hq
      rw [members_eq_nil hungrouped] at hq
      cases hq)
    rwa [List.append_nil] at hboth
  · intro p hp
    rw [LinkState.push_edge, hmembers] at hp
    exact h.below p hp
  · have hroom := h.room
    rw [LinkState.push_edge, List.length_append]
    dsimp only
    omega

/-- No bare-name rule is one that the passes look at. -/
theorem loc_rule_ne (tier : LocalityTier) {rule : String} (hrule : rule ∈ pass_rules) :
    "name-arity:loc:" ++ tier.as_str ≠ rule := by
  intro heq
  have hhead := congrArg (fun r : String => r.toList.take 6) heq
  rw [String.toList_append, List.take_append_of_le_length (by decide)] at hhead
  simp only [pass_rules, List.mem_cons, List.not_mem_nil, or_false] at hrule
  obtain rfl | rfl | rfl := hrule <;> exact absurd hhead (by decide)

/-- The edges of a candidate set: one for each target in canonical order or, by bare name,
nearest first. -/
theorem emit_candidate_set_edges (site : Site) (hits : List DefEntry) (rule : String) (virtual_dispatch : Bool)
    (s : LinkState) : ∃ (dsts : List NodeId) (confidence : Confidence) (tier : Tier) (rule_of : NodeId → String),
      (emit_candidate_set site hits rule virtual_dispatch s).edges = s.edges ++ dsts.map (fun dst =>
          edge_of site dst virtual_dispatch confidence tier (rule_of dst)
            (if 1 < dsts.length then some s.next_group else none)) ∧
      (emit_candidate_set site hits rule virtual_dispatch s).candidates = s.candidates ++
        (if 1 < dsts.length then dsts.mapIdx fun rank dst => ⟨s.next_group, dst, UInt32.ofNat rank⟩ else []) ∧
      (emit_candidate_set site hits rule virtual_dispatch s).next_group =
        (if 1 < dsts.length then s.next_group + 1 else s.next_group) ∧
      dsts.Perm (canonicalize_candidate_dsts (hits.map DefEntry.node_id)) ∧
      ((∀ dst, rule_of dst = rule) ∨ ∀ dst, ∃ tier : LocalityTier, rule_of dst = "name-arity:loc:" ++ tier.as_str) := by
  refine ⟨_, _, _, _, rfl, ?_, ?_, ?_, ?_⟩
  · rw [emit_candidate_set]
    dsimp only
    generalize (if decide (rule = "name-arity") = true then _ else canonicalize_candidate_dsts _) = dsts
    by_cases hseveral : 1 < dsts.length
    · rw [if_pos hseveral, if_pos hseveral]
    · rw [if_neg hseveral, if_neg hseveral]
  · rw [emit_candidate_set]
    dsimp only
    generalize (if decide (rule = "name-arity") = true then _ else canonicalize_candidate_dsts _) = dsts
    by_cases hseveral : 1 < dsts.length
    · rw [if_pos hseveral, if_pos hseveral]
      rfl
    · rw [if_neg hseveral, if_neg hseveral]
      rfl
  · split
    · exact perm_sort_by _
    · exact .refl _
  · by_cases hrule : rule = "name-arity"
    · exact .inr fun dst => ⟨_, if_pos (decide_eq_true hrule)⟩
    · exact .inl fun dst => if_neg (by simpa using hrule)

/-- A reference with several candidates gets a group of its own. -/
theorem LinkSound.emit_candidate_set {s : LinkState} (h : LinkSound s) {site : Site} (hits : List DefEntry)
    (rule : String) (virtual_dispatch : Bool) (hkind : is_indirect site.raw.kind = false)
    (hroom : (emit_candidate_set site hits rule virtual_dispatch s).edges.length < 2 ^ 32) :
    LinkSound (emit_candidate_set site hits rule virtual_dispatch s) := by
  obtain ⟨dsts, confidence, tier, rule_of, hedges, hcandidates, hnext, hperm, hrule⟩ :=
    emit_candidate_set_edges site hits rule virtual_dispatch s
  obtain ⟨hnodup, hlength⟩ := canonical_dsts (hits.map DefEntry.node_id)
  have hold := h.room
  rw [hedges, List.length_append, List.length_map] at hroom
  by_cases hseveral : 1 < dsts.length
  · rw [if_pos hseveral] at hedges hcandidates hnext
    have hnumber : (s.next_group + 1).toNat = s.next_group.toNat + 1 := by
      rw [UInt32.toNat_add]
      exact Nat.mod_eq_of_lt (by simp; omega)
    have hnew : GroupsSound (dsts.map fun dst =>
          edge_of site dst virtual_dispatch confidence tier (rule_of dst) (some s.next_group))
        (dsts.mapIdx fun rank dst => ⟨s.next_group, dst, UInt32.ofNat rank⟩) := by
      apply GroupsSound.of_targets
      · exact fun dst => rfl
      · intro dst dst'
        refine ⟨rfl, rfl, rfl, fun rule' hpass => ?_⟩
        change rule_of dst = rule' ↔ rule_of dst' = rule'
        obtain hsame | hloc := hrule
        · rw [hsame, hsame]
        · obtain ⟨near, hnear⟩ := hloc dst
          obtain ⟨near', hnear'⟩ := hloc dst'
          rw [hnear, hnear']
          exact iff_of_false (loc_rule_ne near hpass) (loc_rule_ne near' hpass)
      · intro dst
        exact Bool.and_eq_false_imp.mpr fun hindirect =>
          absurd ((is_indirect_kind_edge_kind _ _).symm.trans hindirect) (by rw [hkind]; exact Bool.false_ne_true)
      · exact hperm.nodup_iff.mpr hnodup
      · exact hseveral
      · exact hperm.length_eq ▸ hlength
    have hown : ∀ p ∈ members (dsts.map fun dst =>
        edge_of site dst virtual_dispatch confidence tier (rule_of dst) (some s.next_group)), p.1 = s.next_group := by
      intro p hp
      obtain ⟨e, he, hgroup, _⟩ := mem_members.mp hp
      obtain ⟨dst, _, rfl⟩ := List.mem_map.mp he
      exact (Option.some.inj hgroup).symm
    constructor
    · rw [hedges, hcandidates]
      apply h.sound.append hnew
      intro p hp q hq heq
      have hlt := h.below p hp
      rw [heq, hown q hq] at hlt
      omega
    · rw [hedges, hnext, members_append, hnumber]
      intro p hp
      obtain hfirst | hlast := List.mem_append.mp hp
      · have hlt := h.below p hfirst
        omega
      · rw [hown p hlast]
        omega
    · rw [hedges, hnext, hnumber, List.length_append, List.length_map]
      omega
  · rw [if_neg hseveral] at hedges hcandidates hnext
    have hungrouped : ∀ e ∈ dsts.map (fun dst => edge_of site dst virtual_dispatch confidence tier (rule_of dst) none),
        e.edge.candidate_group = none := by
      intro e he
      obtain ⟨dst, _, rfl⟩ := List.mem_map.mp he
      rfl
    have hnone := members_eq_nil hungrouped
    constructor
    · rw [hedges, hcandidates]
      apply h.sound.append (.of_ungrouped hungrouped)
      intro p hp q hq
      rw [hnone] at hq
      cases hq
    · rw [hedges, hnext, members_append, hnone, List.append_nil]
      exact h.below
    · rw [hedges, hnext, List.length_append, List.length_map]
      omega

section

variable {env : LinkEnv}

theorem foldl_resolve_ref_grows (sites : List Site) (s : LinkState) :
    s.edges.length ≤
      (sites.foldl (resolve_ref (symbol_table inputs) opts (receivers env inputs opts)) s).edges.length := by
  have hstems : (sites.foldl (resolve_ref (symbol_table inputs) opts (receivers env inputs opts)) s).edges.map stem = _ :=
    foldl_resolve_ref_stems env sites s
  have hlength := congrArg List.length hstems
  rw [List.length_append, List.length_map, List.length_map] at hlength
  omega

/-- A reference with candidates is no call through a function value. -/
theorem not_indirect_of_candidates {site : Site} {hits : List DefEntry} {rule : String} {virtual_dispatch : Bool}
    (h : resolved env inputs opts site = .Typed hits rule virtual_dispatch ∨
      resolved env inputs opts site = .Candidates hits rule virtual_dispatch) : is_indirect site.raw.kind = false := by
  by_contra hindirect
  obtain ⟨_, hres⟩ | ⟨_, hres | ⟨dst, hres⟩⟩ :=
    resolved_of_indirect env inputs opts ((Bool.not_eq_false _).mp hindirect)
  all_goals
    rw [hres] at h
    cases h with
    | inl heq => cases heq
    | inr heq => cases heq

/-- One more reference. -/
theorem LinkSound.step {s : LinkState} (h : LinkSound s) {site : Site}
    (hroom : (resolve_ref (symbol_table inputs) opts (receivers env inputs opts) s site).edges.length < 2 ^ 32) :
    LinkSound (resolve_ref (symbol_table inputs) opts (receivers env inputs opts) s site) := by
  rw [resolve_ref, ← resolved] at hroom ⊢
  cases hr : resolved env inputs opts site with
  | Ignored => exact h
  | Bound dst confidence rule virtual_dispatch => exact h.push_edge rfl
  | Indirect => exact h.push_edge rfl
  | Typed hits rule virtual_dispatch =>
    rw [hr] at hroom
    have hledger : LinkSound { s with ledger := s.ledger.typed site hits } := ⟨h.sound, h.below, h.room⟩
    exact hledger.emit_candidate_set hits rule virtual_dispatch (not_indirect_of_candidates (.inl hr)) hroom
  | External => exact ⟨h.sound, h.below, h.room⟩
  | Candidates hits rule virtual_dispatch =>
    rw [hr] at hroom
    exact h.emit_candidate_set hits rule virtual_dispatch (not_indirect_of_candidates (.inr hr)) hroom
  | Unresolved => exact ⟨h.sound, h.below, h.room⟩

/-- All references. -/
theorem LinkSound.run {s : LinkState} (h : LinkSound s) (sites : List Site)
    (hroom : (sites.foldl (resolve_ref (symbol_table inputs) opts (receivers env inputs opts)) s).edges.length < 2 ^ 32) :
    LinkSound (sites.foldl (resolve_ref (symbol_table inputs) opts (receivers env inputs opts)) s) := by
  induction sites generalizing s with
  | nil => exact h
  | cons site rest ih =>
    rw [List.foldl_cons] at hroom ⊢
    exact ih (h.step (Nat.lt_of_le_of_lt (foldl_resolve_ref_grows rest _) hroom)) hroom

/-! ### The other edges of a link -/

/-- An id of a node before the final sort. -/
def Staged (inputs : List FileInput) (opts : LinkOpts) (id : NodeId) : Prop :=
  ∃ n ∈ staged_nodes inputs opts, n.node.id = id

theorem staged_of_def_to_node {nodes : List NodeWithProvenance} (hsub : ∀ n ∈ nodes, n ∈ staged_nodes inputs opts)
    {fqn : String} {id : NodeId} (h : def_to_node nodes fqn = some id) : Staged inputs opts id := by
  obtain ⟨n, hn, rfl⟩ := Option.map_eq_some_iff.mp h
  exact ⟨n, hsub n (List.mem_reverse.mp (List.mem_of_find?_eq_some hn)), rfl⟩

theorem staged_of_in_table {id : NodeId} (h : InTable (symbol_table inputs) id) : Staged inputs opts id := by
  obtain ⟨d, hd, rfl⟩ := h
  rw [symbol_table, SymbolTable.build] at hd
  obtain ⟨record, hrecord, rfl⟩ := List.mem_map.mp hd
  obtain ⟨n, hn, rfl⟩ := List.mem_map.mp hrecord
  exact ⟨n, List.mem_append_left _ hn, rfl⟩

theorem staged_of_symbol {fqn : String} {id : NodeId} (h : def_to_node (build_nodes inputs) fqn = some id) :
    Staged inputs opts id :=
  staged_of_def_to_node (fun _ => List.mem_append_left _) h

theorem staged_of_value {fqn : String} {id : NodeId} (h : def_to_node (link_values inputs opts) fqn = some id) :
    Staged inputs opts id :=
  staged_of_def_to_node (fun _ => List.mem_append_right _) h

/-- Both ends of an edge are nodes. -/
def EndsStaged (inputs : List FileInput) (opts : LinkOpts) (e : EdgeWithProvenance) : Prop :=
  Staged inputs opts e.edge.src ∧ Staged inputs opts e.edge.dst

theorem resolve_type_node_staged {path : List String} {id : NodeId}
    (h : resolve_type_node (symbol_table inputs) path = some id) : Staged inputs opts id := by
  apply staged_of_in_table
  rw [resolve_type_node] at h
  split at h
  · rename_i d hd
    cases h
    have hfound := (Option.filter_eq_some_iff.mp hd).1
    exact ⟨d, List.mem_reverse.mp (List.mem_of_find?_eq_some hfound), rfl⟩
  · obtain ⟨last, _, h⟩ := Option.bind_eq_some_iff.mp h
    split at h
    · rename_i only honly
      cases h
      have hmem : only ∈ ((symbol_table inputs).defs_by_short last).filter fun d => d.kind = .Type :=
        honly ▸ List.mem_cons_self
      exact ⟨only, List.mem_of_mem_filter (List.mem_of_mem_filter hmem), rfl⟩
    · cases h

theorem resolve_trait_method_staged {path : List String} {id : NodeId}
    (h : resolve_trait_method (symbol_table inputs) path = some id) : Staged inputs opts id := by
  apply staged_of_in_table
  rw [resolve_trait_method] at h
  split at h
  · split at h
    · rename_i d hd
      cases h
      have hfound := (Option.filter_eq_some_iff.mp hd).1
      exact ⟨d, List.mem_reverse.mp (List.mem_of_find?_eq_some hfound), rfl⟩
    · dsimp only at h
      split at h
      · rename_i only honly
        cases h
        have hmem := List.mem_of_mem_filter (honly ▸ List.mem_cons_self)
        exact ⟨only, List.mem_of_mem_filter hmem, rfl⟩
      · cases h
  · cases h

/-- A declared relation joins nodes and has no group. -/
theorem relation_staged {file : FileInput} {rel : ImplRelation} {e : EdgeWithProvenance}
    (h : resolve_impl_relation (build_nodes inputs) (symbol_table inputs) file rel = some e) :
    EndsStaged inputs opts e ∧ e.edge.candidate_group = none := by
  rw [resolve_impl_relation] at h
  split at h
  · obtain ⟨src, hsrc, h⟩ := Option.bind_eq_some_iff.mp h
    obtain ⟨dst, hdst, h⟩ := Option.bind_eq_some_iff.mp h
    cases h
    exact ⟨⟨resolve_type_node_staged hsrc, resolve_type_node_staged hdst⟩, rfl⟩
  · obtain ⟨src, hsrc, h⟩ := Option.bind_eq_some_iff.mp h
    obtain ⟨dst, hdst, h⟩ := Option.bind_eq_some_iff.mp h
    cases h
    exact ⟨⟨resolve_type_node_staged hsrc, resolve_type_node_staged hdst⟩, rfl⟩
  · obtain ⟨src, hsrc, h⟩ := Option.bind_eq_some_iff.mp h
    obtain ⟨dst, hdst, h⟩ := Option.bind_eq_some_iff.mp h
    split at h
    · cases h
    · cases h
      exact ⟨⟨staged_of_symbol hsrc, resolve_trait_method_staged hdst⟩, rfl⟩

/-- An edge of a reference runs from its caller to the caller itself or a node that its
resolution names. -/
theorem emitted_ends {site : Site} {r : Resolution} {e : EdgeWithProvenance} (he : e ∈ emitted site r) :
    e.edge.src = site.caller_id ∧ (e.edge.dst = site.caller_id ∨ e.edge.dst ∈ targets r) := by
  have hset : ∀ hits rule virtual_dispatch (s : LinkState), s.edges = [] →
      e ∈ (emit_candidate_set site hits rule virtual_dispatch s).edges →
        e.edge.src = site.caller_id ∧ e.edge.dst ∈ hits.map DefEntry.node_id := by
    intro hits rule virtual_dispatch s hs hmem
    obtain ⟨dsts, _, _, _, hedges, _, _, hperm, _⟩ := emit_candidate_set_edges site hits rule virtual_dispatch s
    rw [hedges, hs, List.nil_append] at hmem
    obtain ⟨dst, hdst, rfl⟩ := List.mem_map.mp hmem
    have hcanonical := hperm.mem_iff.mp hdst
    rw [canonicalize_candidate_dsts, mem_sort_by, List.mem_dedup] at hcanonical
    exact ⟨rfl, hcanonical⟩
  cases r with
  | Ignored | External | Unresolved => cases he
  | Bound dst confidence rule virtual_dispatch =>
    obtain rfl := List.mem_singleton.mp he
    exact ⟨rfl, .inr List.mem_cons_self⟩
  | Indirect =>
    obtain rfl := List.mem_singleton.mp he
    exact ⟨rfl, .inl rfl⟩
  | Typed hits rule virtual_dispatch =>
    obtain ⟨hsrc, hdst⟩ := hset hits rule virtual_dispatch _ rfl he
    exact ⟨hsrc, .inr hdst⟩
  | Candidates hits rule virtual_dispatch =>
    obtain ⟨hsrc, hdst⟩ := hset hits rule virtual_dispatch _ rfl he
    exact ⟨hsrc, .inr hdst⟩

/-- The edges of the references join nodes. -/
theorem link_refs_staged (hkeeps : KeepsEntries (symbol_table inputs) (receivers env inputs opts)) :
    ∀ e ∈ (link_refs env inputs opts).edges, EndsStaged inputs opts e := by
  by_contra hnot
  push Not at hnot
  obtain ⟨site, hsite, e, he, hends⟩ :=
    (exists_edge_link_refs (p := fun e => ¬EndsStaged inputs opts e) fun _ => Iff.rfl).mp hnot
  have hcaller : Staged inputs opts site.caller_id := staged_of_symbol (well_placed_of_mem hsite).caller_id
  obtain ⟨hsrc, hdst⟩ := emitted_ends he
  apply hends
  refine ⟨hsrc ▸ hcaller, ?_⟩
  cases hdst with
  | inl hself => exact hself ▸ hcaller
  | inr htarget => exact staged_of_in_table (resolution_targets hkeeps _ htarget)

end

section

variable {narrow : List FileInput → SymbolTable → Site → Narrowed} {budget : Nat}

/-- A dataflow edge joins nodes and has no group. -/
theorem dataflow_staged : ∀ e ∈ link_dataflow_edges (linker narrow opts budget) inputs opts,
    EndsStaged inputs opts e ∧ e.edge.candidate_group = none := by
  intro e he
  rw [link_dataflow_edges] at he
  split at he
  · obtain hderived | hsummary := List.mem_append.mp he
    · obtain ⟨pe, _, hpe⟩ := List.mem_filterMap.mp hderived
      obtain ⟨derived, hresult, hpe⟩ := Option.bind_eq_some_iff.mp hpe
      obtain ⟨source, hsource, rfl⟩ := Option.map_eq_some_iff.mp hpe
      refine ⟨⟨staged_of_value hresult, ?_⟩, rfl⟩
      obtain hvalue | ⟨_, hsymbol⟩ := Option.or_eq_some_iff.mp hsource
      · exact staged_of_value hvalue
      · exact staged_of_symbol hsymbol
    · obtain ⟨i, hi, rfl⟩ := List.mem_mapIdx.mp hsummary
      obtain ⟨cs, _, hoffer⟩ := mem_all_offers.mp (List.getElem_mem hi)
      obtain ⟨fact, _, result, source, hresult, hsource, hedge⟩ := mem_offered.mp hoffer
      rw [hedge]
      exact ⟨⟨staged_of_value hresult, staged_of_value hsource⟩, rfl⟩
  · cases he

/-- The edges besides those of the references. -/
theorem other_edges_staged : ∀ e ∈ (inputs.flatMap fun file =>
      file.facts.impl_relations.filterMap (resolve_impl_relation (build_nodes inputs) (symbol_table inputs) file)) ++
    link_dataflow_edges (linker narrow opts budget) inputs opts,
      EndsStaged inputs opts e ∧ e.edge.candidate_group = none := by
  intro e he
  obtain hrelation | hflow := List.mem_append.mp he
  · obtain ⟨file, _, hfile⟩ := List.mem_flatMap.mp hrelation
    obtain ⟨rel, _, hrel⟩ := List.mem_filterMap.mp hfile
    exact relation_staged hrel
  · exact dataflow_staged e hflow

/-! ### The linked graph -/

theorem linked_id_lt (hlength : (staged_nodes inputs opts).length ≤ 2 ^ 32) {id : NodeId} (h : Staged inputs opts id) :
    (linked_id inputs opts id).index < (staged_nodes inputs opts).length := by
  obtain ⟨n, hn, rfl⟩ := h
  obtain ⟨q, hq⟩ := List.mem_iff_getElem?.mp (mem_sort_by.mpr hn)
  have hlt := (List.getElem?_eq_some_iff.mp hq).1
  rw [length_sort_by] at hlt
  rw [linked_id_place hlength hq, NodeId.index_ofIndex (by omega)]
  exact hlt

theorem linked_id_inj_on (hlength : (staged_nodes inputs opts).length ≤ 2 ^ 32) {id id' : NodeId}
    (h : Staged inputs opts id) (h' : Staged inputs opts id')
    (heq : linked_id inputs opts id = linked_id inputs opts id') : id = id' := by
  obtain ⟨n, hn, rfl⟩ := h
  obtain ⟨n', hn', rfl⟩ := h'
  rw [linked_id_inj hlength hn hn' heq]

theorem members_linked (edges : List EdgeWithProvenance) :
    members (edges.map (linked_edge inputs opts)) = (members edges).map (Prod.map id (linked_id inputs opts)) := by
  rw [members, members, List.filterMap_map, List.map_filterMap]
  congr 1
  funext e
  change e.edge.candidate_group.map _ = (e.edge.candidate_group.map _).map _
  rw [Option.map_map]
  rfl

/-- The final sort keeps sound groups of staged nodes sound. -/
theorem GroupsSound.linked {edges : List EdgeWithProvenance} {candidates : List Candidate}
    (h : GroupsSound edges candidates) (hlength : (staged_nodes inputs opts).length ≤ 2 ^ 32)
    (hstaged : ∀ e ∈ edges, EndsStaged inputs opts e) :
    GroupsSound (edges.map (linked_edge inputs opts))
      (candidates.map fun c => { c with dst := linked_id inputs opts c.dst }) where
  balanced := by
    have hends : ∀ p ∈ members edges, Staged inputs opts p.2 := by
      intro p hp
      obtain ⟨e, he, _, hdst⟩ := mem_members.mp hp
      exact hdst ▸ (hstaged e he).2
    have hrenamed := h.balanced.rename (f := id) (t := linked_id inputs opts) (fun _ _ _ _ heq => heq)
      fun p hp q hq => linked_id_inj_on hlength (hends p hp) (hends q hq)
    rw [members_linked, List.map_map]
    rw [List.map_map] at hrenamed
    exact hrenamed
  one_call e he e' he' group hgroup hgroup' := by
    obtain ⟨b, hb, rfl⟩ := List.mem_map.mp he
    obtain ⟨b', hb', rfl⟩ := List.mem_map.mp he'
    have hcall := h.one_call b hb b' hb' group hgroup hgroup'
    exact ⟨congrArg (linked_id inputs opts) hcall.src, hcall.site_id, hcall.kind, hcall.rule⟩
  settled e he hsome := by
    obtain ⟨b, hb, rfl⟩ := List.mem_map.mp he
    exact h.settled b hb hsome

theorem staged_edges_length (env : LinkEnv) :
    (link env inputs opts).edges.length = (staged_edges inputs opts env).length := by
  have hperm := (perm_link_stems env inputs opts).length_eq
  rwa [List.length_map, List.length_map] at hperm

/-- The groups of all edges of a link before the final sort. -/
theorem staged_sound (hroom : (staged_edges inputs opts (linker narrow opts budget)).length < 2 ^ 32) :
    GroupsSound (staged_edges inputs opts (linker narrow opts budget))
      (link_refs (linker narrow opts budget) inputs opts).candidates := by
  rw [staged_edges, List.append_assoc] at hroom ⊢
  rw [List.length_append] at hroom
  have hrefs : LinkSound (link_refs (linker narrow opts budget) inputs opts) :=
    LinkSound.new.run _ (Nat.lt_of_le_of_lt (Nat.le_add_right _ _) hroom)
  have hothers : ∀ e ∈ (inputs.flatMap fun file =>
        file.facts.impl_relations.filterMap (resolve_impl_relation (build_nodes inputs) (symbol_table inputs) file)) ++
      link_dataflow_edges (linker narrow opts budget) inputs opts, e.edge.candidate_group = none :=
    fun e he => (other_edges_staged e he).2
  have hboth := hrefs.sound.append (.of_ungrouped hothers) (by
    intro p hp q hq
    rw [members_eq_nil hothers] at hq
    cases hq)
  rwa [List.append_nil] at hboth

theorem staged_ends (hkeeps : KeepsEntries (symbol_table inputs) (receivers (linker narrow opts budget) inputs opts)) :
    ∀ e ∈ staged_edges inputs opts (linker narrow opts budget), EndsStaged inputs opts e := by
  intro e he
  rw [staged_edges, List.append_assoc] at he
  obtain hrefs | hothers := List.mem_append.mp he
  · exact link_refs_staged hkeeps e hrefs
  · exact (other_edges_staged e hothers).1

end

/-! ### Graphs that the store accepts -/

variable {g : ResolvedGraph}

/-- Nodes in canonical order under their places as ids. -/
structure NodesPlaced (nodes : List NodeWithProvenance) : Prop where
  node_ids : ∀ (i : Nat) (n : NodeWithProvenance), nodes[i]? = some n → n.node.id.index = i
  nodes_sorted : nodes.Pairwise fun a b => (node_order a b).isLE

def EndsPlaced (nodes : List NodeWithProvenance) (e : EdgeWithProvenance) : Prop :=
  e.edge.src.index < nodes.length ∧ e.edge.dst.index < nodes.length

/-- A graph with sound, dense groups in a form that the store accepts. -/
structure Valid (g : ResolvedGraph) : Prop where
  settled : Settled g
  form : Canonical (into_linked g)

theorem NodesPlaced.lt_of_mem {nodes : List NodeWithProvenance} (h : NodesPlaced nodes) {n : NodeWithProvenance}
    (hn : n ∈ nodes) : n.node.id.index < nodes.length := by
  obtain ⟨i, hi⟩ := List.mem_iff_getElem?.mp hn
  rw [h.node_ids i n hi]
  exact (List.getElem?_eq_some_iff.mp hi).1

theorem Valid.placed (h : Valid g) : NodesPlaced g.nodes where
  node_ids i n hi := by
    apply h.form.node_ids i n.node
    rw [into_linked, List.getElem?_map, hi]
    rfl
  nodes_sorted := List.pairwise_map.mp h.form.nodes_sorted

theorem Valid.ends (h : Valid g) : ∀ e ∈ g.edges, EndsPlaced g.nodes e := by
  intro e he
  have hends := h.form.edge_ends e.edge (List.mem_map_of_mem he)
  rwa [into_linked, List.length_map] at hends

/-- The candidate rows of sound groups are carried by edges. -/
theorem GroupsSound.groupable (h : GroupsSound g.edges g.candidates) (hnodes : NodesPlaced g.nodes)
    (hends : ∀ e ∈ g.edges, EndsPlaced g.nodes e) (hroom : g.edges.length ≤ 2 ^ 32) : Groupable g where
  node_ids := hnodes.node_ids
  nodes_sorted := hnodes.nodes_sorted
  edge_ends := hends
  one_source e he e' he' group hgroup hgroup' := (h.one_call e he e' he' group hgroup hgroup').src
  rows_carried c hc := by
    have hmember := h.balanced.mem_of_row (List.mem_map_of_mem hc)
    obtain ⟨e, he, hgroup, hdst⟩ := mem_members.mp hmember
    have hdst' : e.edge.dst = c.dst := hdst
    exact ⟨hdst' ▸ (hends e he).2, e, he, hgroup⟩
  room := hroom

theorem Valid.of_canonicalize (h : GroupsSound g.edges g.candidates) (hnodes : NodesPlaced g.nodes)
    (hends : ∀ e ∈ g.edges, EndsPlaced g.nodes e) (hroom : (canonicalize g).edges.length < 2 ^ 32) :
    Valid (canonicalize g) := by
  rw [canonicalize_edges_length] at hroom
  exact ⟨.of_canonicalize h, canonical_canonicalize (h.groupable hnodes hends (by omega))⟩

section

variable {narrow : List FileInput → SymbolTable → Site → Narrowed} {budget : Nat}

theorem nodes_placed_link {env : LinkEnv} (hnodes : (link env inputs opts).nodes.length ≤ 2 ^ 32) :
    NodesPlaced (link env inputs opts).nodes where
  node_ids i n hi := by
    have hlt := (List.getElem?_eq_some_iff.mp hi).1
    obtain ⟨_, _, _, rfl⟩ := link_node_at hi
    exact NodeId.index_ofIndex (by omega)
  nodes_sorted := by
    obtain ⟨narrowing, hlink⟩ := link_nodes env inputs opts
    have hsorted : ((placed inputs opts).map Prod.snd).Pairwise fun a b => (node_order a b).isLE := by
      rw [placed, map_snd_sort_by]
      exact pairwise_sort_by _
    rw [hlink, List.pairwise_map, assign_ids, List.pairwise_iff_getElem]
    intro i j hi hj hij
    rw [List.length_mapIdx] at hi hj
    simp only [List.getElem_mapIdx]
    exact List.pairwise_iff_getElem.mp hsorted i j hi hj hij

/-- A link is the canonical form of its staged edges and candidates under linked ids. -/
theorem link_parts (env : LinkEnv) (inputs : List FileInput) (opts : LinkOpts) : ∃ nodes unresolved,
    link env inputs opts = canonicalize
      { nodes := nodes
        edges := (staged_edges inputs opts env).map (linked_edge inputs opts)
        candidates := (link_refs env inputs opts).candidates.map fun c => { c with dst := linked_id inputs opts c.dst }
        unresolved := unresolved } := by
  have hlink : link env inputs opts = finalize (sort_nodes_canonical (numbered env inputs opts))
      (link_refs env inputs opts).unresolved := rfl
  obtain ⟨hedges, hcandidates, _⟩ := sort_nodes_canonical_eq (g := numbered env inputs opts) rfl
  rw [hlink, finalize, hedges, hcandidates]
  exact ⟨_, _, rfl⟩

/-- A link is a valid graph. -/
theorem valid_link (hkeeps : KeepsEntries (symbol_table inputs) (receivers (linker narrow opts budget) inputs opts))
    (hnodes : (link (linker narrow opts budget) inputs opts).nodes.length ≤ 2 ^ 32)
    (hroom : (link (linker narrow opts budget) inputs opts).edges.length < 2 ^ 32) :
    Valid (link (linker narrow opts budget) inputs opts) := by
  have hlength := staged_nodes_length hnodes
  have hplaced := nodes_placed_link hnodes
  have hends := staged_ends hkeeps
  have hcount : (link (linker narrow opts budget) inputs opts).nodes.length = (staged_nodes inputs opts).length := by
    rw [link_nodes_length, placed_length]
  have hroom' := hroom
  rw [staged_edges_length] at hroom'
  have hsound := (staged_sound hroom').linked hlength hends
  obtain ⟨nodes, unresolved, hparts⟩ := link_parts (linker narrow opts budget) inputs opts
  rw [hparts] at hplaced hroom hcount ⊢
  rw [nodes_canonicalize] at hplaced hcount
  apply Valid.of_canonicalize hsound hplaced
  · intro e he
    obtain ⟨b, hb, rfl⟩ := List.mem_map.mp he
    obtain ⟨hsrc, hdst⟩ := hends b hb
    rw [EndsPlaced, hcount]
    exact ⟨linked_id_lt hlength hsrc, linked_id_lt hlength hdst⟩
  · exact hroom

end

/-! ### The passes -/

/-- The ends of candidate edges: the sources of their prototypes and their targets. -/
theorem candidate_edges_placed {nodes : List NodeWithProvenance} (rule : String) (confidence : Replacement → Confidence)
    {rs : List Replacement} {next : UInt32}
    (h : ∀ r ∈ rs, r.proto.edge.src.index < nodes.length ∧ ∀ dst ∈ r.dsts, dst.index < nodes.length) :
    ∀ e ∈ candidate_edges rule confidence (number_groups next rs), EndsPlaced nodes e := by
  intro e he
  obtain ⟨r, hr, he⟩ := List.mem_flatMap.mp he
  obtain ⟨dst, hdst, rfl⟩ := List.mem_map.mp he
  have hfields : (r.key, r.proto, r.dsts) ∈ (number_groups next rs).map fun r => (r.key, r.proto, r.dsts) :=
    List.mem_map_of_mem hr
  rw [number_groups_fields] at hfields
  obtain ⟨r', hr', heq⟩ := List.mem_map.mp hfields
  simp only [Prod.mk.injEq] at heq
  obtain ⟨hsrc, htargets⟩ := h r' hr'
  rw [heq.2.1] at hsrc
  rw [heq.2.2] at htargets
  exact ⟨hsrc, htargets dst hdst⟩

/-- A trait-scoped candidate is a node. -/
theorem node_of_scoped {method : String} {id : NodeId} (h : Scoped g method id) : ∃ n ∈ g.nodes, n.node.id = id := by
  have hlast : ∀ {fqn : String}, last_of g fqn = some id → ∃ n ∈ g.nodes, n.node.id = id := by
    intro fqn hfqn
    obtain ⟨n, hn, rfl⟩ := Option.map_eq_some_iff.mp hfqn
    exact ⟨n, List.mem_reverse.mp (List.mem_of_find?_eq_some hn), rfl⟩
  obtain ⟨_, _, _, _, _, _, ⟨_, hown⟩ | ⟨_, _, hbody⟩⟩ := h
  · exact hlast hown
  · exact hlast hbody

theorem rescope_placed (h : Valid g) {key : SiteKey} {r : Replacement} (hr : rescope (Lattice.build g) g key = some r) :
    r.proto.edge.src.index < g.nodes.length ∧ ∀ dst ∈ r.dsts, dst.index < g.nodes.length := by
  obtain ⟨_, hproto, method, _, hdsts, _⟩ := rescope_eq_some hr
  constructor
  · exact (h.ends r.proto (List.mem_of_mem_filter (List.mem_of_head? hproto))).1
  · intro dst hdst
    rw [hdsts, canonicalize_candidate_dsts, mem_sort_by, List.mem_dedup, mem_trait_scoped_candidates] at hdst
    obtain ⟨n, hn, rfl⟩ := node_of_scoped hdst
    exact h.placed.lt_of_mem hn

/-- The trait-scoped candidates of a valid graph leave it valid. -/
theorem Valid.run_cha (h : Valid g) (hroom : g.edges.length < 2 ^ 32) (hroom' : (run_cha g).1.edges.length < 2 ^ 32) :
    Valid (run_cha g).1 := by
  rw [cgx.resolve.run_cha] at hroom' ⊢
  split at hroom'
  · exact h
  · have hlength := hroom'
    dsimp only at hlength hroom'
    rw [canonicalize_edges_length] at hlength
    apply Valid.of_canonicalize
    · exact h.settled.rescoped hroom hlength
    · exact h.placed
    · intro e he
      obtain hkept | hnew := List.mem_append.mp he
      · exact h.ends e (List.mem_of_mem_filter hkept)
      · refine candidate_edges_placed CHA_RULE (fun r => set_confidence r.dsts) ?_ e hnew
        intro r hr
        obtain ⟨key, _, hrescope⟩ := List.mem_filterMap.mp hr
        exact rescope_placed h hrescope
    · exact hroom'

/-- Pruning leaves a valid graph valid. -/
theorem Valid.run_rta (h : Valid g) (hroom : (run_rta g).1.edges.length < 2 ^ 32) : Valid (run_rta g).1 := by
  rw [cgx.resolve.run_rta] at hroom ⊢
  dsimp only at hroom ⊢
  split
  · rename_i hany
    rw [if_pos hany] at hroom
    apply Valid.of_canonicalize
    · exact h.settled.sound.prune
    · exact h.placed
    · intro e he
      obtain ⟨y, hy, rfl⟩ := List.mem_map.mp he
      obtain ⟨b, hb, rfl⟩ := List.mem_map.mp hy
      have hends := h.ends b (List.mem_of_mem_filter hb)
      rw [EndsPlaced] at hends ⊢
      have hsrc : (upgrade g b).edge.src = b.edge.src := by
        rw [upgrade]
        split <;> rfl
      change (upgrade g b).edge.src.index < _ ∧ (upgrade g b).edge.dst.index < _
      rw [hsrc, (upgrade_group g b).2]
      exact hends
    · exact hroom
  · exact h

/-- The candidates chosen by signature leave a valid graph valid. -/
theorem Valid.run_sig (h : Valid g) (hroom : g.edges.length < 2 ^ 32) (hroom' : (run_sig g).1.edges.length < 2 ^ 32) :
    Valid (run_sig g).1 := by
  rw [cgx.resolve.run_sig] at hroom' ⊢
  split at hroom'
  · exact h
  · have hlength := hroom'
    dsimp only at hlength hroom'
    rw [canonicalize_edges_length] at hlength
    apply Valid.of_canonicalize
    · exact h.settled.expanded hroom hlength
    · exact h.placed
    · intro e he
      obtain hkept | hnew := List.mem_append.mp he
      · obtain ⟨i, hi, _⟩ := mem_remove_edges_at.mp hkept
        exact h.ends e (List.mem_of_getElem? hi)
      · refine candidate_edges_placed SIG_RULE (fun _ => .Possible) ?_ e hnew
        intro r hr
        obtain ⟨site, hsite, hsig⟩ := List.mem_filterMap.mp hr
        obtain ⟨hat, _, _⟩ := first_placeholder_spec (mem_collect_indirect_sites.mp hsite).1
        rw [sig_replacement] at hsig
        split at hsig
        · cases hsig
        · cases hsig
          refine ⟨(h.ends site.edge (List.mem_of_getElem? hat)).1, fun dst hdst => ?_⟩
          rw [compatible, canonicalize_candidate_dsts, mem_sort_by, List.mem_dedup, List.mem_map] at hdst
          obtain ⟨n, hn, rfl⟩ := hdst
          exact h.placed.lt_of_mem (List.mem_of_mem_filter hn)
    · exact hroom'

/-- The graph with the transitive effects of its nodes. -/
def with_effects (g : ResolvedGraph) (eff : NodeId → EffectSet) : ResolvedGraph :=
  { g with nodes := g.nodes.map fun n => { n with node := { n.node with transitive_effects := eff n.node.id } } }

/-- The effect closure ends where every edge leads to a node. -/
theorem run_effect_closure_ends (h : TargetsAreNodes g) :
    ∃ eff stats, run_effect_closure g = some (with_effects g eff, stats) := by
  have hnone : cgx.resolve.Settled g [] [] := ⟨rfl, by simp⟩
  obtain ⟨settled, hfold, _⟩ := settle_all h (effect_sccs g) rfl hnone
  simp only [run_effect_closure, hfold]
  exact ⟨fun id => ((scc_of (effect_sccs g) id).bind fun i => settled[i]?).getD .empty, _, rfl⟩

theorem Valid.targets_are_nodes (h : Valid g) : TargetsAreNodes g := by
  intro e he
  have hdst := (h.ends e he).2
  have hid := h.placed.node_ids e.edge.dst.index _ (List.getElem?_eq_getElem hdst)
  rw [← NodeId.ext_index hid]
  exact List.mem_map_of_mem (List.getElem_mem hdst)

/-- Effects leave a valid graph valid. -/
theorem Valid.with_effects (h : Valid g) (eff : NodeId → EffectSet) : Valid (with_effects g eff) := by
  have hform := h.form
  have hlength : (into_linked (cgx.index.with_effects g eff)).nodes.length = (into_linked g).nodes.length := by
    rw [into_linked, into_linked, cgx.index.with_effects, List.length_map, List.length_map, List.length_map]
  refine ⟨⟨h.settled.sound, h.settled.dense⟩, ?_, ?_, hform.edge_ids, ?_, hform.edges_sorted, hform.groups, ?_,
    hform.candidates_sorted⟩
  · intro i n hi
    rw [into_linked, cgx.index.with_effects, List.getElem?_map, List.getElem?_map] at hi
    obtain ⟨m, hm, rfl⟩ := Option.map_eq_some_iff.mp hi
    obtain ⟨b, hb, rfl⟩ := Option.map_eq_some_iff.mp hm
    exact h.placed.node_ids i b hb
  · rw [into_linked, cgx.index.with_effects, List.map_map, List.pairwise_map]
    exact h.placed.nodes_sorted
  · intro e he
    rw [hlength]
    exact hform.edge_ends e he
  · intro c hc
    rw [hlength]
    exact hform.candidate_ends c hc

/-- The graph fits the ids that its nodes and edges get, from the link to the last pass. -/
structure HasRoom (g : ResolvedGraph) : Prop where
  nodes : g.nodes.length ≤ 2 ^ 32
  linked : g.edges.length < 2 ^ 32
  rescoped : (run_cha g).1.edges.length < 2 ^ 32
  pruned : (run_rta (run_cha g).1).1.edges.length < 2 ^ 32
  expanded : (run_sig (run_rta (run_cha g).1).1).1.edges.length < 2 ^ 32

theorem keeps_entries_of_index (index : List FileInput → SymbolTable → ReceiverIndex) (budget : Nat) :
    KeepsEntries (symbol_table inputs)
      (receivers (linker (fun inputs table site => (index inputs table).narrow table site) opts budget) inputs opts) := by
  intro narrow hnarrow site hits rule virtual_dispatch htyped d hd
  rw [receivers] at hnarrow
  split at hnarrow
  · cases hnarrow
    have hmethod := ReceiverIndex.narrow_subset htyped d hd
    exact (mem_method_candidates_iff.mp hmethod).1
  · cases hnarrow

/-- What an index run without a SCIP index makes of a link: no pass aborts, the store accepts
the graph, and its candidate groups are sound. -/
theorem passes_accepted (index : List FileInput → SymbolTable → ReceiverIndex) (budget : Nat)
    (inputs : List FileInput) (opts : LinkOpts) {run : PipelineRun} (hscip : run.apply_scip = .ok)
    (hroom : HasRoom (link (linker (fun inputs table site => (index inputs table).narrow table site) opts budget)
      inputs opts)) :
    ∃ g, apply_passes run (link (linker (fun inputs table site => (index inputs table).narrow table site) opts budget)
        inputs opts) = .ok g ∧
      check_canonical (into_linked g) = .ok () ∧ GroupsSound g.edges g.candidates := by
  have hlink := valid_link (keeps_entries_of_index index budget) hroom.nodes hroom.linked
  have hcha := hlink.run_cha hroom.linked hroom.rescoped
  have hrta := hcha.run_rta hroom.pruned
  have hsig := hrta.run_sig hroom.pruned hroom.expanded
  obtain ⟨eff, stats, heffects⟩ := run_effect_closure_ends hsig.targets_are_nodes
  have hclosed := hsig.with_effects eff
  refine ⟨_, ?_, check_canonical_of hclosed.form, hclosed.settled.sound⟩
  rw [apply_passes, hscip]
  simp only [bind, Except.bind, heffects]

theorem passes_accepted_chained_calls :
    ∃ g, apply_passes first_run (link (linker (fun inputs table site => (sample.property_index inputs table).narrow
        table site) .default 10) [sample.chained_calls] .default) = .ok g ∧
      check_canonical (into_linked g) = .ok () ∧ GroupsSound g.edges g.candidates :=
  passes_accepted sample.property_index 10 [sample.chained_calls] .default rfl
    ⟨by decide, by decide, by decide, by decide, by decide⟩

end cgx.index
