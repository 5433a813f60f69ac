import Cgx.Resolve.Exact
import Cgx.Resolve.Grounded
import Cgx.Resolve.Indirect
import Cgx.Resolve.SharedSites

open cgx.core cgx.frontend sorting

namespace cgx.resolve

/-! ### The references that leave a placeholder -/

/-- A call through a function value that is not pinned to one closure. -/
def Site.is_placeholder (inputs : List FileInput) (site : Site) : Bool :=
  match site.raw.name_path.getLast? with
  | some last => is_indirect site.raw.kind && (pinned_target (symbol_table inputs) site.file.facts site.raw last).isNone
  | none => false

def placeholders (inputs : List FileInput) : List Site :=
  (link_sites (build_nodes inputs) inputs).filter (Site.is_placeholder inputs)

/-- The edge that stands for the call of a reference. -/
def placeholder_edge (site : Site) : EdgeWithProvenance :=
  edge_of site site.caller_id false .Possible .NameSyntactic (indirect_rule site.raw) none

variable {env : LinkEnv} {inputs : List FileInput} {opts : LinkOpts}

/-- A call through a function value is ignored, pinned, or leaves a placeholder. -/
theorem resolved_of_indirect (env : LinkEnv) (inputs : List FileInput) (opts : LinkOpts) {site : Site}
    (hkind : is_indirect site.raw.kind = true) :
    (site.is_placeholder inputs = true ∧ resolved env inputs opts site = .Indirect) ∨
      (site.is_placeholder inputs = false ∧ (resolved env inputs opts site = .Ignored ∨
        ∃ dst, resolved env inputs opts site = .Bound dst .Certain "scope-ref" false)) := by
  rw [resolved, resolution, Site.is_placeholder]
  cases hpath : site.raw.name_path with
  | nil => exact .inr ⟨rfl, .inl rfl⟩
  | cons head tail =>
    obtain ⟨last, hlast⟩ : ∃ last, (head :: tail).getLast? = some last :=
      Option.isSome_iff_exists.mp (by rw [List.getLast?_isSome]; exact List.cons_ne_nil head tail)
    rw [hlast, List.head?_cons]
    simp only [hkind, Bool.true_and, if_true]
    cases pinned_target (symbol_table inputs) site.file.facts site.raw last with
    | none => exact .inl ⟨rfl, rfl⟩
    | some dst => exact .inr ⟨rfl, .inr ⟨dst, rfl⟩⟩

theorem is_indirect_kind_edge_kind (kind : RefKind) (virtual_dispatch : Bool) :
    is_indirect_kind (edge_kind kind virtual_dispatch) = is_indirect kind := by
  cases kind <;> cases virtual_dispatch <;> rfl

/-- The edges of a reference are of its kind. -/
theorem emitted_kind {site : Site} {r : Resolution} {e : EdgeWithProvenance} (he : e ∈ emitted site r) :
    ∃ virtual_dispatch, e.edge.kind = edge_kind site.raw.kind virtual_dispatch := by
  have hset : ∀ hits rule virtual_dispatch (s : LinkState), s.edges = [] →
      e ∈ (emit_candidate_set site hits rule virtual_dispatch s).edges →
        e.edge.kind = edge_kind site.raw.kind virtual_dispatch := by
    intro hits rule virtual_dispatch s hs hmem
    rw [emit_candidate_set, hs, List.nil_append] at hmem
    obtain ⟨dst, _, rfl⟩ := List.mem_map.mp hmem
    rfl
  cases r with
  | Ignored | External | Unresolved => cases he
  | Bound dst confidence rule virtual_dispatch =>
    obtain rfl := List.mem_singleton.mp he
    exact ⟨virtual_dispatch, rfl⟩
  | Indirect =>
    obtain rfl := List.mem_singleton.mp he
    exact ⟨false, rfl⟩
  | Typed hits rule virtual_dispatch => exact ⟨virtual_dispatch, hset _ _ _ _ rfl he⟩
  | Candidates hits rule virtual_dispatch => exact ⟨virtual_dispatch, hset _ _ _ _ rfl he⟩

/-- Its rule marks the edge of a placeholder. -/
theorem is_placeholder_edge {site : Site} (hkind : is_indirect site.raw.kind = true) :
    is_placeholder (placeholder_edge site) = true := by
  refine Bool.and_eq_true_iff.mpr ⟨(is_indirect_kind_edge_kind _ _).trans hkind, ?_⟩
  have hrule : (placeholder_edge site).edge.rule = indirect_rule site.raw := rfl
  rw [hrule, indirect_rule, String.toList_append]
  rfl

/-- A reference leaves the edge of its placeholder and no other. -/
theorem emitted_placeholders (site : Site) :
    (emitted site (resolved env inputs opts site)).filter is_placeholder =
      if site.is_placeholder inputs then [placeholder_edge site] else [] := by
  by_cases hkind : is_indirect site.raw.kind = true
  · obtain ⟨hplaceholder, hres⟩ | ⟨hplaceholder, hres⟩ := resolved_of_indirect env inputs opts hkind
    · rw [hres, hplaceholder, if_pos rfl]
      exact List.filter_eq_self.mpr fun e he => List.mem_singleton.mp he ▸ is_placeholder_edge hkind
    · rw [hplaceholder, if_neg Bool.false_ne_true]
      obtain hres | ⟨dst, hres⟩ := hres
      · rw [hres]
        rfl
      · rw [hres, List.filter_eq_nil_iff]
        intro e he hsome
        obtain rfl := List.mem_singleton.mp he
        have hrule : INDIRECT_RULE_PREFIX.toList.isPrefixOf "scope-ref".toList = true :=
          (Bool.and_eq_true_iff.mp hsome).2
        revert hrule
        decide
  · have hnone : site.is_placeholder inputs = false := by
      rw [Site.is_placeholder]
      split
      · rw [(Bool.not_eq_true _).mp hkind, Bool.false_and]
      · rfl
    rw [hnone, if_neg Bool.false_ne_true, List.filter_eq_nil_iff]
    intro e he hsome
    obtain ⟨virtual_dispatch, hedge⟩ := emitted_kind he
    have hindirect := (Bool.and_eq_true_iff.mp hsome).1
    rw [hedge, is_indirect_kind_edge_kind] at hindirect
    exact hkind hindirect

/-- No reference leaves an edge with the rule of a candidate that is chosen by signature. -/
theorem emitted_no_sig_edge (site : Site) {e : EdgeWithProvenance} (he : e ∈ emitted site (resolved env inputs opts site)) :
    is_sig_edge e = false := by
  by_cases hkind : is_indirect site.raw.kind = true
  · refine Bool.and_eq_false_imp.mpr fun _ => decide_eq_false fun hrule => ?_
    obtain ⟨_, hres⟩ | ⟨_, hres | ⟨dst, hres⟩⟩ := resolved_of_indirect env inputs opts hkind
    · rw [hres] at he
      obtain rfl := List.mem_singleton.mp he
      have hhead := congrArg (fun rule : String => rule.toList.head?) hrule
      have htext : (placeholder_edge site).edge.rule = indirect_rule site.raw := rfl
      rw [← placeholder_edge, htext, indirect_rule, String.toList_append] at hhead
      cases hhead
    · rw [hres] at he
      cases he
    · rw [hres] at he
      obtain rfl := List.mem_singleton.mp he
      have hsame : "scope-ref" = SIG_RULE := hrule
      revert hsame
      decide
  · refine Bool.and_eq_false_imp.mpr fun hindirect => ?_
    obtain ⟨virtual_dispatch, hedge⟩ := emitted_kind he
    rw [hedge, is_indirect_kind_edge_kind] at hindirect
    exact absurd hindirect hkind

/-! ### The placeholders of the linked graph -/

theorem perm_link_stems (env : LinkEnv) (inputs : List FileInput) (opts : LinkOpts) :
    ((link env inputs opts).edges.map stem).Perm
      ((staged_edges inputs opts env).map fun e => stem (linked_edge inputs opts e)) := by
  rw [link, finalize]
  refine (perm_canonicalize_stems _).trans (.of_eq ?_)
  rw [(sort_nodes_canonical_eq rfl).1, List.map_map]
  rfl

theorem is_call_of_indirect {kind : EdgeKind} (h : is_indirect_kind kind = true) : kind.is_call = true := by
  cases kind <;> first | rfl | cases h

/-- Only references leave calls. -/
theorem staged_edges_kind {narrow : List FileInput → SymbolTable → Site → Narrowed} {budget : Nat} :
    ∀ e ∈ (inputs.flatMap fun file =>
        file.facts.impl_relations.filterMap (resolve_impl_relation (build_nodes inputs) (symbol_table inputs) file)) ++
      link_dataflow_edges (linker narrow opts budget) inputs opts, e.edge.kind.is_call = false := by
  intro e he
  obtain hrelation | hflow := List.mem_append.mp he
  · obtain ⟨file, _, hfile⟩ := List.mem_flatMap.mp hrelation
    obtain ⟨rel, _, hrel⟩ := List.mem_filterMap.mp hfile
    exact impl_relation_no_call hrel
  · rw [link_dataflow_edges] at hflow
    split at hflow
    · obtain hderived | hsummary := List.mem_append.mp hflow
      · obtain ⟨pe, _, hpe⟩ := List.mem_filterMap.mp hderived
        obtain ⟨derived, _, hpe⟩ := Option.bind_eq_some_iff.mp hpe
        obtain ⟨source, _, rfl⟩ := Option.map_eq_some_iff.mp hpe
        rfl
      · obtain ⟨i, hi, rfl⟩ := List.mem_mapIdx.mp hsummary
        obtain ⟨cs, _, hoffer⟩ := mem_all_offers.mp (List.getElem_mem hi)
        obtain ⟨fact, _, result, source, _, _, hedge⟩ := mem_offered.mp hoffer
        rw [hedge]
        rfl
    · cases hflow

section

variable (narrow : List FileInput → SymbolTable → Site → Narrowed) (budget : Nat) (inputs : List FileInput) (opts : LinkOpts)

/-- The edges of a link that are calls of a kind are, up to their numbers, those that the
references leave. -/
theorem perm_link_calls {p : EdgeWithProvenance → Bool} (hstem : ∀ e, p (stem e) = p e)
    (hlinked : ∀ e, p (linked_edge inputs opts e) = p e) (hcall : ∀ e, p e = true → e.edge.kind.is_call = true) :
    (((link (linker narrow opts budget) inputs opts).edges.filter p).map stem).Perm
      ((link_sites (build_nodes inputs) inputs).flatMap fun site =>
        ((emitted site (resolved (linker narrow opts budget) inputs opts site)).filter p).map fun e =>
          stem (linked_edge inputs opts e)) := by
  have hnumbers := fun l => map_filter_stem (f := stem) hstem (fun _ => rfl) l
  have hlinks := fun l => map_filter_stem (f := fun e => stem (linked_edge inputs opts e)) hstem (fun _ => rfl) l
  have hperm := ((perm_link_stems (linker narrow opts budget) inputs opts).filter p).map stem
  rw [hnumbers] at hperm
  refine hperm.trans (.of_eq ?_)
  have hstaged : p ∘ (fun e => stem (linked_edge inputs opts e)) = p :=
    funext fun e => (hstem _).trans (hlinked e)
  rw [List.filter_map, hstaged, List.map_map, staged_edges, List.append_assoc, List.filter_append]
  have hother : ((inputs.flatMap fun file =>
        file.facts.impl_relations.filterMap (resolve_impl_relation (build_nodes inputs) (symbol_table inputs) file)) ++
      link_dataflow_edges (linker narrow opts budget) inputs opts).filter p = [] := by
    rw [List.filter_eq_nil_iff]
    intro e he hp
    have hnocall := staged_edges_kind e he
    rw [hcall e hp] at hnocall
    cases hnocall
  have hrefs : (link_refs (linker narrow opts budget) inputs opts).edges.map stem = _ :=
    foldl_resolve_ref_stems (linker narrow opts budget) (link_sites (build_nodes inputs) inputs) .new
  rw [LinkState.new, List.map_nil, List.nil_append] at hrefs
  rw [hother, List.append_nil]
  calc ((link_refs (linker narrow opts budget) inputs opts).edges.filter p).map (fun e => stem (linked_edge inputs opts e))
      = (((link_refs (linker narrow opts budget) inputs opts).edges.map stem).filter p).map
          (fun e => stem (linked_edge inputs opts e)) := (hlinks _).symm
    _ = (((link_sites (build_nodes inputs) inputs).flatMap fun site =>
          emitted site (resolved (linker narrow opts budget) inputs opts site)).filter p).map
            (fun e => stem (linked_edge inputs opts e)) := by rw [hrefs, hlinks]
    _ = _ := by rw [List.filter_flatMap, List.map_flatMap]

/-- The placeholders of the linked graph are the edges of the references that leave one. -/
theorem perm_link_placeholders :
    (((link (linker narrow opts budget) inputs opts).edges.filter is_placeholder).map stem).Perm
      ((placeholders inputs).map fun site => stem (linked_edge inputs opts (placeholder_edge site))) := by
  have hperm := perm_link_calls narrow budget inputs opts (p := is_placeholder) (fun _ => rfl) (fun _ => rfl)
    fun e he => is_call_of_indirect (Bool.and_eq_true_iff.mp he).1
  refine hperm.trans (.of_eq ?_)
  simp only [emitted_placeholders]
  rw [placeholders]
  induction link_sites (build_nodes inputs) inputs with
  | nil => rfl
  | cons site rest ih =>
    rw [List.flatMap_cons, List.filter_cons, ih]
    cases site.is_placeholder inputs with
    | true => rfl
    | false => rfl

theorem link_no_sig_edge : ∀ e ∈ (link (linker narrow opts budget) inputs opts).edges, is_sig_edge e = false := by
  intro e he
  by_contra hsig
  have hmem : stem e ∈ ((link (linker narrow opts budget) inputs opts).edges.filter is_sig_edge).map stem :=
    List.mem_map_of_mem (List.mem_filter.mpr ⟨he, Bool.not_eq_false _ ▸ hsig⟩)
  have hperm := perm_link_calls narrow budget inputs opts (p := is_sig_edge) (fun _ => rfl) (fun _ => rfl)
    fun e he => is_call_of_indirect (Bool.and_eq_true_iff.mp he).1
  obtain ⟨site, _, hsite⟩ := List.mem_flatMap.mp (hperm.mem_iff.mp hmem)
  obtain ⟨e', he', _⟩ := List.mem_map.mp hsite
  obtain ⟨hemitted, hsig'⟩ := List.mem_filter.mp he'
  rw [emitted_no_sig_edge site hemitted] at hsig'
  cases hsig'

end

end cgx.resolve
