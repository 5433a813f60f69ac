import Cgx.Resolve.Dangling
import Cgx.Resolve.SiteCallees
import Cgx.Resolve.Tally

open cgx.core cgx.frontend sorting

namespace cgx.resolve

/-! ### Outcomes -/

namespace Outcome

theorem join_eq_unique {a b : Outcome} {id : NodeId} : a.join b = .Unique id ↔ a = .Unique id ∧ b = .Unique id := by
  cases a with
  | Unresolved => simp [join]
  | Conflict => simp [join]
  | Unique i =>
    cases b with
    | Unresolved => simp [join]
    | Conflict => simp [join]
    | Unique j =>
      by_cases h : i = j
      · simp [join, h]
      · simp only [join, if_neg h, Unique.injEq, reduceCtorEq, false_iff]
        rintro ⟨rfl, rfl⟩
        exact h rfl

theorem join_ne_unresolved (a b : Outcome) : a.join b ≠ .Unresolved := by
  unfold join
  split
  · split <;> exact Outcome.noConfusion
  · exact Outcome.noConfusion

/-- Several outcomes join to a node when each of them is that node. -/
theorem foldl_join_eq_unique {outcomes : List Outcome} {first : Outcome} {id : NodeId} :
    outcomes.foldl join first = .Unique id ↔ ∀ o ∈ first :: outcomes, o = .Unique id := by
  induction outcomes generalizing first with
  | nil => simp
  | cons o rest ih =>
    rw [List.foldl_cons, ih, List.forall_mem_cons, List.forall_mem_cons, List.forall_mem_cons, join_eq_unique,
      and_assoc]

theorem foldl_observe_eq_join {acc : Outcome} (hacc : acc ≠ .Unresolved) (outcomes : List Outcome) :
    outcomes.foldl observe acc = outcomes.foldl join acc := by
  induction outcomes generalizing acc with
  | nil => rfl
  | cons o rest ih =>
    have hstep : observe acc o = acc.join o := by
      cases acc with
      | Unresolved => exact absurd rfl hacc
      | Unique id => rfl
      | Conflict => rfl
    rw [List.foldl_cons, List.foldl_cons, hstep]
    exact ih (join_ne_unresolved acc o)

/-- An unresolved place comes to a node when it has a call edge, and each one leads there. -/
theorem foldl_observe_eq_unique {outcomes : List Outcome} {id : NodeId} (hedges : ∀ o ∈ outcomes, o ≠ .Unresolved)
    (h : outcomes.foldl observe .Unresolved = .Unique id) : outcomes ≠ [] ∧ ∀ o ∈ outcomes, o = .Unique id := by
  cases outcomes with
  | nil => cases h
  | cons o rest =>
    refine ⟨List.cons_ne_nil _ _, ?_⟩
    rw [List.foldl_cons, observe, foldl_observe_eq_join (hedges o List.mem_cons_self)] at h
    exact foldl_join_eq_unique.mp h

end Outcome

theorem edge_outcome_ne_unresolved (symbols : List NodeWithProvenance) (e : EdgeWithProvenance) :
    edge_outcome symbols e ≠ .Unresolved := by
  unfold edge_outcome
  split <;> exact Outcome.noConfusion

theorem edge_outcome_eq_unique {symbols : List NodeWithProvenance} {e : EdgeWithProvenance} {id : NodeId}
    (h : edge_outcome symbols e = .Unique id) :
    e.edge.dst = id ∧ (e.edge.rule = "scope-ref" ∨ e.edge.rule = "import-ref") ∧ e.edge.candidate_group = none ∧
      ∃ n, symbols[id.index]? = some n ∧ n.node.kind.is_callable = true := by
  unfold edge_outcome at h
  split at h
  · rename_i hadmitted
    obtain ⟨hrule, hgroup, hnode⟩ := hadmitted
    obtain rfl := Outcome.Unique.inj h
    obtain ⟨hsome, hcallable⟩ := (Option.any_eq_true_iff_get _ _).mp hnode
    exact ⟨rfl, hrule, hgroup, _, (Option.some_get hsome).symm, hcallable⟩
  · cases h

/-- An unresolved place comes to a node when it has call edges, and each one is bound to it. -/
theorem place_outcome_eq_unique {symbols : List NodeWithProvenance} {edges : List EdgeWithProvenance} {place : CallPlace}
    {id : NodeId} (h : place_outcome symbols edges place .Unresolved = .Unique id) :
    edges.filter (stands_at place) ≠ [] ∧
      ∀ e ∈ edges.filter (stands_at place), edge_outcome symbols e = .Unique id := by
  have hedges : ∀ o ∈ (edges.filter (stands_at place)).map (edge_outcome symbols), o ≠ .Unresolved :=
    List.forall_mem_map.mpr fun e _ => edge_outcome_ne_unresolved symbols e
  obtain ⟨hsome, hall⟩ := Outcome.foldl_observe_eq_unique hedges h
  exact ⟨fun hnil => hsome (List.map_eq_nil_iff.mpr hnil), List.forall_mem_map.mp hall⟩

/-! ### The edges at a place -/

/-- The place of a reference. -/
def Site.place (site : Site) : CallPlace :=
  ⟨site.caller_id, site.raw.span.line, site.raw.span.col⟩

/-- The edges that a resolution leaves, with the group number that comes next. -/
def added (site : Site) (r : Resolution) (group : UInt32) : List EdgeWithProvenance :=
  (apply_resolution site r { LinkState.new with next_group := group }).edges

theorem apply_resolution_edges (site : Site) (r : Resolution) (s : LinkState) :
    (apply_resolution site r s).edges = s.edges ++ added site r s.next_group := by
  cases r with
  | Ignored | External | Unresolved => simp [apply_resolution, added, LinkState.new]
  | Bound | Indirect => simp [apply_resolution, added, LinkState.push_edge, LinkState.new]
  | Typed hits rule virtual_dispatch =>
    simp [apply_resolution, added, emit_candidate_set, LinkState.new]
  | Candidates hits rule virtual_dispatch =>
    simp [apply_resolution, added, emit_candidate_set, LinkState.new]

/-- The edges of a reference stand where it does, and are calls when it is one. -/
theorem stands_at_of_added {site : Site} {r : Resolution} {group : UInt32} {e : EdgeWithProvenance}
    (he : e ∈ added site r group) (place : CallPlace) :
    stands_at place e = true ↔ is_call_ref site.raw = true ∧ site.place = place := by
  have hedge : ∃ dst virtual_dispatch confidence tier rule g,
      e = edge_of site dst virtual_dispatch confidence tier rule g := by
    cases r with
    | Ignored | External | Unresolved => cases he
    | Bound dst confidence rule virtual_dispatch => exact ⟨_, _, _, _, _, _, List.mem_singleton.mp he⟩
    | Indirect => exact ⟨_, _, _, _, _, _, List.mem_singleton.mp he⟩
    | Typed hits rule virtual_dispatch | Candidates hits rule virtual_dispatch =>
      obtain ⟨dst, _, rfl⟩ := List.mem_map.mp he
      exact ⟨_, _, _, _, _, _, rfl⟩
  obtain ⟨dst, virtual_dispatch, confidence, tier, rule, g, rfl⟩ := hedge
  have hcall : (edge_kind site.raw.kind virtual_dispatch).is_call = is_call_ref site.raw := by
    rw [is_call_ref]
    cases site.raw.kind with
    | CallVirtualReceiver => cases virtual_dispatch <;> rfl
    | _ => rfl
  rw [stands_at, decide_eq_true_eq, ← hcall, eq_comm (a := place)]
  rfl

/-- The call references that stand at a place. -/
def at_place (place : CallPlace) (site : Site) : Bool :=
  is_call_ref site.raw ∧ site.place = place

section

variable {table : SymbolTable} {opts : LinkOpts} {narrow : Option (Site → Narrowed)} {place : CallPlace}

theorem filter_added (site : Site) (r : Resolution) (group : UInt32) :
    (added site r group).filter (stands_at place) = if at_place place site then added site r group else [] := by
  split
  · rename_i h
    exact List.filter_eq_self.mpr fun e he => (stands_at_of_added he place).mpr (of_decide_eq_true h)
  · rename_i h
    exact List.filter_eq_nil_iff.mpr fun e he hstands =>
      h (decide_eq_true ((stands_at_of_added he place).mp hstands))

/-- Where no reference stands there is no call edge. -/
theorem filter_resolve_refs_none {sites : List Site} (hnone : sites.filter (at_place place) = []) (s : LinkState) :
    (sites.foldl (resolve_ref table opts narrow) s).edges.filter (stands_at place) =
      s.edges.filter (stands_at place) := by
  induction sites generalizing s with
  | nil => rfl
  | cons site rest ih =>
    have hnot : ¬ at_place place site = true := fun h => by simp [List.filter_cons_of_pos h] at hnone
    rw [List.filter_cons_of_neg hnot] at hnone
    rw [List.foldl_cons, ih hnone, resolve_ref, apply_resolution_edges, List.filter_append, filter_added, if_neg hnot,
      List.append_nil]

/-- Where one reference stands alone, the call edges are its own. -/
theorem filter_resolve_refs_one (table : SymbolTable) (opts : LinkOpts) (narrow : Option (Site → Narrowed))
    {sites : List Site} {site : Site} (hone : sites.filter (at_place place) = [site]) (s : LinkState) :
    ∃ group, (sites.foldl (resolve_ref table opts narrow) s).edges.filter (stands_at place) =
      s.edges.filter (stands_at place) ++
        added site (resolution table opts narrow (collect_import_bindings site.file.facts.imports) site) group := by
  induction sites generalizing s with
  | nil => cases hone
  | cons first rest ih =>
    by_cases hat : at_place place first = true
    · rw [List.filter_cons_of_pos hat] at hone
      obtain ⟨rfl, hrest⟩ := List.cons.inj hone
      refine ⟨s.next_group, ?_⟩
      rw [List.foldl_cons, filter_resolve_refs_none hrest, resolve_ref, apply_resolution_edges, List.filter_append,
        filter_added, if_pos hat]
    · rw [List.filter_cons_of_neg hat] at hone
      obtain ⟨group, hgroup⟩ := ih hone (resolve_ref table opts narrow s first)
      refine ⟨group, ?_⟩
      rw [List.foldl_cons, hgroup, resolve_ref, apply_resolution_edges, List.filter_append, filter_added, if_neg hat,
        List.append_nil]

end

section

variable {narrow : List FileInput → SymbolTable → Site → Narrowed} {inputs : List FileInput} {opts : LinkOpts}

theorem impl_relation_kind {symbols : List NodeWithProvenance} {table : SymbolTable} {file : FileInput}
    {rel : ImplRelation} {e : EdgeWithProvenance} (h : resolve_impl_relation symbols table file rel = some e) :
    e.edge.kind = .Implements ∨ e.edge.kind = .Inherits ∨ e.edge.kind = .Overrides := by
  rw [resolve_impl_relation] at h
  split at h
  · obtain ⟨src, _, h⟩ := Option.bind_eq_some_iff.mp h
    obtain ⟨dst, _, h⟩ := Option.bind_eq_some_iff.mp h
    rw [← Option.some.inj h]
    exact .inl rfl
  · obtain ⟨src, _, h⟩ := Option.bind_eq_some_iff.mp h
    obtain ⟨dst, _, h⟩ := Option.bind_eq_some_iff.mp h
    rw [← Option.some.inj h]
    exact .inr (.inl rfl)
  · obtain ⟨src, _, h⟩ := Option.bind_eq_some_iff.mp h
    obtain ⟨dst, _, h⟩ := Option.bind_eq_some_iff.mp h
    split at h
    · cases h
    · rw [← Option.some.inj h]
      exact .inr (.inr rfl)

/-- A declared relation is no call. -/
theorem impl_relation_no_call {symbols : List NodeWithProvenance} {table : SymbolTable} {file : FileInput}
    {rel : ImplRelation} {e : EdgeWithProvenance} (h : resolve_impl_relation symbols table file rel = some e) :
    e.edge.kind.is_call = false := by
  obtain hkind | hkind | hkind := impl_relation_kind h
  all_goals
    rw [hkind]
    rfl

/-- How the link resolves a reference, whatever the summaries are. -/
def resolved_by (narrow : List FileInput → SymbolTable → Site → Narrowed) (inputs : List FileInput) (opts : LinkOpts)
    (site : Site) : Resolution :=
  resolved ⟨narrow, fun _ _ => []⟩ inputs opts site

theorem filter_pass_edges_one (narrow : List FileInput → SymbolTable → Site → Narrowed) (opts : LinkOpts) {site : Site}
    (hone : (link_sites (build_nodes inputs) inputs).filter (at_place site.place) = [site]) :
    ∃ group, (pass_edges narrow inputs opts).filter (stands_at site.place) =
      added site (resolved_by narrow inputs opts site) group := by
  have hrelations : (inputs.flatMap fun file => file.facts.impl_relations.filterMap
      (resolve_impl_relation (build_nodes inputs) (symbol_table inputs) file)).filter (stands_at site.place) = [] := by
    rw [List.filter_eq_nil_iff]
    intro e he hstands
    obtain ⟨file, _, he⟩ := List.mem_flatMap.mp he
    obtain ⟨rel, _, he⟩ := List.mem_filterMap.mp he
    have hcall := (of_decide_eq_true hstands).1
    rw [impl_relation_no_call he] at hcall
    cases hcall
  obtain ⟨group, hgroup⟩ := filter_resolve_refs_one (symbol_table inputs) opts
    (receivers ⟨narrow, fun _ _ => []⟩ inputs opts) hone .new
  refine ⟨group, ?_⟩
  rw [pass_edges, List.filter_append, hrelations, List.append_nil]
  exact hgroup

/-- The link leaves one edge for the reference. It leads to the node, it is bound by scope
or by import, and it is in no candidate set. -/
def BoundTo (narrow : List FileInput → SymbolTable → Site → Narrowed) (inputs : List FileInput) (opts : LinkOpts)
    (site : Site) (id : NodeId) : Prop :=
  ∃ e, emitted site (resolved_by narrow inputs opts site) = [e] ∧ e.edge.dst = id ∧
    (e.edge.rule = "scope-ref" ∨ e.edge.rule = "import-ref") ∧ e.edge.candidate_group = none

/-- A set of edges outside any group has one edge at most, which no group number shows in. -/
theorem added_of_ungrouped {site : Site} {r : Resolution} {group : UInt32}
    (h : ∀ e ∈ added site r group, e.edge.candidate_group = none) :
    added site r group = emitted site r ∧ (added site r group).length ≤ 1 := by
  cases r with
  | Ignored | External | Unresolved => exact ⟨rfl, Nat.zero_le _⟩
  | Bound | Indirect => exact ⟨rfl, le_rfl⟩
  | Typed hits rule virtual_dispatch | Candidates hits rule virtual_dispatch =>
    simp only [added, emitted, apply_resolution, emit_candidate_set, LinkState.new, List.nil_append] at h ⊢
    generalize (if decide (rule = "name-arity") = true then _ else canonicalize_candidate_dsts _) = dsts at h ⊢
    by_cases hmany : 1 < dsts.length
    · obtain ⟨dst, hdst⟩ := List.exists_mem_of_length_pos (Nat.zero_lt_of_lt hmany)
      have hnone := h _ (List.mem_map_of_mem hdst)
      rw [if_pos hmany] at hnone
      cases hnone
    · rw [if_neg hmany, if_neg hmany, List.length_map]
      exact ⟨rfl, Nat.not_lt.mp hmany⟩

/-- A place comes to a node only when its one reference is bound to the node. -/
theorem bound_of_place_outcome {site : Site} {id : NodeId}
    (hone : (link_sites (build_nodes inputs) inputs).filter (at_place site.place) = [site])
    (h : place_outcome (build_nodes inputs) (pass_edges narrow inputs opts) site.place .Unresolved = .Unique id) :
    BoundTo narrow inputs opts site id ∧
      ∃ n, (build_nodes inputs)[id.index]? = some n ∧ n.node.kind.is_callable = true := by
  obtain ⟨group, hedges⟩ := filter_pass_edges_one narrow opts hone
  obtain ⟨hsome, hall⟩ := place_outcome_eq_unique h
  rw [hedges] at hsome hall
  have hadmitted := fun e he => edge_outcome_eq_unique (hall e he)
  obtain ⟨hemitted, hlength⟩ := added_of_ungrouped fun e he => (hadmitted e he).2.2.1
  obtain ⟨e, he⟩ := List.length_eq_one_iff.mp (Nat.le_antisymm hlength (List.length_pos_iff.mpr hsome))
  obtain ⟨hdst, hrule, hgroup, hnode⟩ := hadmitted e (he ▸ List.mem_singleton_self e)
  exact ⟨⟨e, hemitted ▸ he, hdst, hrule, hgroup⟩, hnode⟩

end

/-! ### The wanted calls -/

def Site.path (site : Site) : String :=
  join_path site.raw.name_path

theorem entry_of_foldl_upsert {ι κ ν : Type} [DecidableEq κ] (key : ι → κ) (f : ι → Option ν → ν) (items : List ι)
    (rows : List (κ × ν)) (k : κ) :
    entry_of k (items.foldl (fun rows item => upsert (key item) (f item) rows) rows) =
      (items.filter fun item => key item = k).foldl (fun acc item => some (f item acc)) (entry_of k rows) := by
  induction items generalizing rows with
  | nil => rfl
  | cons item rest ih =>
    rw [List.foldl_cons, ih, entry_of_upsert]
    by_cases h : key item = k
    · rw [if_pos h, List.filter_cons_of_pos (by simpa using h), List.foldl_cons]
    · rw [if_neg h, List.filter_cons_of_neg (by simpa using h)]

theorem mem_of_entry_of {κ ν : Type} [DecidableEq κ] {rows : List (κ × ν)} {k : κ} {v : ν}
    (h : entry_of k rows = some v) : (k, v) ∈ rows := by
  obtain ⟨row, hrow, rfl⟩ := Option.map_eq_some_iff.mp h
  have hkey := List.find?_some hrow
  rw [← of_decide_eq_true hkey]
  exact List.mem_of_find?_eq_some hrow

/-- A row of an updated table was there before, or it is the updated one. -/
theorem mem_upsert {κ ν : Type} [DecidableEq κ] {k : κ} {f : Option ν → ν} {rows : List (κ × ν)} {row : κ × ν}
    (h : row ∈ upsert k f rows) : row ∈ rows ∨ row = (k, f none) ∨ ∃ v, (k, v) ∈ rows ∧ row = (k, f (some v)) := by
  induction rows with
  | nil => exact .inr (.inl (List.mem_singleton.mp h))
  | cons first rest ih =>
    obtain ⟨k', v⟩ := first
    rw [upsert] at h
    split at h
    · rename_i hk
      subst hk
      obtain rfl | h := List.mem_cons.mp h
      · exact .inr (.inr ⟨v, List.mem_cons_self, rfl⟩)
      · exact .inl (List.mem_cons_of_mem _ h)
    · obtain rfl | h := List.mem_cons.mp h
      · exact .inl List.mem_cons_self
      · obtain h | h | ⟨w, hw, h⟩ := ih h
        · exact .inl (List.mem_cons_of_mem _ h)
        · exact .inr (.inl h)
        · exact .inr (.inr ⟨w, List.mem_cons_of_mem _ hw, h⟩)

theorem flatMap_eq_of_mapIdx {α β γ : Type} {g : α → List γ} {f : Nat → α → List β} {q : β → Bool} {m : β → γ}
    (h : ∀ i a, g a = ((f i a).filter q).map m) (l : List α) :
    l.flatMap g = ((l.mapIdx f).flatten.filter q).map m := by
  induction l generalizing f with
  | nil => rfl
  | cons a rest ih =>
    rw [List.flatMap_cons, List.mapIdx_cons, List.flatten_cons, List.filter_append, List.map_append, ← h,
      ih fun i a => h (i + 1) a]

section

variable (inputs : List FileInput)

/-- Every key that some opaque call asks for. -/
def all_wanted : List CallKey :=
  inputs.flatMap (wanted (build_nodes inputs))

/-- The reference is a call that some opaque call asks for, on a line of its file with one. -/
def is_wanted (site : Site) : Bool :=
  (is_call_ref site.raw ∧ site.raw.span.line ∈ (wanted (build_nodes inputs) site.file).map CallKey.line) ∧
    ⟨site.caller_id, site.raw.span.line, site.path⟩ ∈ all_wanted inputs

theorem wanted_refs_eq (i : Nat) (file : FileInput) :
    wanted_refs (build_nodes inputs) (all_wanted inputs) file =
      ((file_sites (build_nodes inputs) i file).filter (is_wanted inputs)).map fun site => (site.place, site.path) := by
  rw [wanted_refs, file_sites, List.filter_filterMap, List.map_filterMap]
  refine List.filterMap_congr fun raw _ => ?_
  rw [caller_at]
  cases enclosing_def file.facts.scopes file.facts.defs raw.scope with
  | none => split <;> rfl
  | some d =>
    rw [Option.bind_some, Option.bind_some]
    cases def_to_node (build_nodes inputs) d.fqn with
    | none => split <;> rfl
    | some id =>
      rw [Option.bind_some, Option.map_some, Option.filter_some, is_wanted]
      by_cases hline : is_call_ref raw ∧ raw.span.line ∈ (wanted (build_nodes inputs) file).map CallKey.line
      · rw [if_pos hline]
        by_cases hkey : ⟨id, raw.span.line, join_path raw.name_path⟩ ∈ all_wanted inputs
        · rw [if_pos hkey, if_pos (decide_eq_true ⟨hline, hkey⟩)]
          rfl
        · rw [if_neg hkey, if_neg fun h => hkey (of_decide_eq_true h).2]
          rfl
      · rw [if_neg hline, if_neg fun h => hline (of_decide_eq_true h).1]
        rfl

theorem wanted_rows_eq :
    inputs.flatMap (wanted_refs (build_nodes inputs) (all_wanted inputs)) =
      ((link_sites (build_nodes inputs) inputs).filter (is_wanted inputs)).map fun site => (site.place, site.path) :=
  flatMap_eq_of_mapIdx (wanted_refs_eq inputs) inputs

/-- A wanted call that stands alone is a place under its own path, with no outcome yet. -/
theorem place_of_alone {site : Site} (hone : (link_sites (build_nodes inputs) inputs).filter (at_place site.place) = [site])
    (hwanted : is_wanted inputs site = true) :
    (site.place, (site.path, .Unresolved)) ∈ call_places (build_nodes inputs) inputs := by
  apply mem_of_entry_of
  have hrows : (inputs.flatMap (wanted_refs (build_nodes inputs) (all_wanted inputs))).filter
      (fun row => row.1 = site.place) = [(site.place, site.path)] := by
    have hboth : ∀ s : Site, (decide (s.place = site.place) && is_wanted inputs s) =
        (is_wanted inputs s && at_place site.place s) := by
      intro s
      rw [Bool.eq_iff_iff, Bool.and_eq_true, Bool.and_eq_true, decide_eq_true_eq, at_place, decide_eq_true_eq]
      constructor
      · rintro ⟨hplace, hs⟩
        exact ⟨hs, (of_decide_eq_true hs).1.1, hplace⟩
      · rintro ⟨hs, _, hplace⟩
        exact ⟨hplace, hs⟩
    rw [wanted_rows_eq, List.filter_map, List.filter_filter]
    change List.map _ ((link_sites (build_nodes inputs) inputs).filter fun s =>
      decide (s.place = site.place) && is_wanted inputs s) = _
    simp only [hboth]
    rw [← List.filter_filter, hone, List.filter_cons_of_pos hwanted]
    rfl
  have hentry := entry_of_foldl_upsert Prod.fst (fun row : CallPlace × String => note_call row.2)
    (inputs.flatMap (wanted_refs (build_nodes inputs) (all_wanted inputs))) [] site.place
  rw [hrows] at hentry
  exact hentry

/-- The row of a place comes from a wanted call, and no edge has been counted for it. -/
structure FromCall (row : CallPlace × (String × Outcome)) : Prop where
  call : ∃ site ∈ link_sites (build_nodes inputs) inputs, is_wanted inputs site = true ∧ site.place = row.1 ∧
    site.path = row.2.1
  start : row.2.2 = .Unresolved ∨ row.2.2 = .Conflict

variable {inputs}

theorem FromCall.foldl {items : List (CallPlace × String)} (places : List (CallPlace × (String × Outcome)))
    (hitems : ∀ item ∈ items, FromCall inputs (item.1, (item.2, .Unresolved)))
    (hplaces : ∀ row ∈ places, FromCall inputs row) :
    ∀ row ∈ items.foldl (fun places row => upsert row.1 (note_call row.2) places) places, FromCall inputs row := by
  induction items generalizing places with
  | nil => exact hplaces
  | cons item rest ih =>
    rw [List.foldl_cons]
    refine ih _ (fun item' h' => hitems item' (List.mem_cons_of_mem item h')) fun row hrow => ?_
    obtain hold | rfl | ⟨v, hv, rfl⟩ := mem_upsert hrow
    · exact hplaces row hold
    · exact hitems item List.mem_cons_self
    · exact ⟨(hplaces _ hv).call, .inr rfl⟩

theorem call_places_from_calls {row : CallPlace × (String × Outcome)}
    (h : row ∈ call_places (build_nodes inputs) inputs) : FromCall inputs row := by
  refine FromCall.foldl [] (fun item hitem => ⟨?_, .inl rfl⟩) (fun _ h => nomatch h) row h
  have hitem' : item ∈ inputs.flatMap (wanted_refs (build_nodes inputs) (all_wanted inputs)) := hitem
  rw [wanted_rows_eq] at hitem'
  obtain ⟨site, hsite, rfl⟩ := List.mem_map.mp hitem'
  obtain ⟨hsite, hwanted⟩ := List.mem_filter.mp hsite
  exact ⟨site, hsite, hwanted, rfl, rfl⟩

/-- A place that comes to a node has an edge that leads to it. -/
theorem callable_of_place_outcome {symbols : List NodeWithProvenance} {edges : List EdgeWithProvenance} {place : CallPlace}
    {start : Outcome} (hstart : start = .Unresolved ∨ start = .Conflict) {id : NodeId}
    (h : place_outcome symbols edges place start = .Unique id) :
    start = .Unresolved ∧ ∃ n, symbols[id.index]? = some n ∧ n.node.kind.is_callable = true := by
  obtain rfl | rfl := hstart
  · obtain ⟨hsome, hall⟩ := place_outcome_eq_unique h
    obtain ⟨e, he⟩ := List.exists_mem_of_ne_nil _ hsome
    exact ⟨rfl, (edge_outcome_eq_unique (hall e he)).2.2.2⟩
  · rw [place_outcome, Outcome.foldl_observe_eq_join Outcome.noConfusion] at h
    cases Outcome.foldl_join_eq_unique.mp h _ List.mem_cons_self

/-- The calls under a key agree on a callee when each of their places comes to its node. -/
theorem summary_site_callees_eq_some {symbols : List NodeWithProvenance} {edges : List EdgeWithProvenance} {key : CallKey}
    {g : String} (h : summary_site_callees symbols inputs edges key = some g) :
    ∃ id n, symbols[id.index]? = some n ∧ n.node.fqn = g ∧ key_outcomes symbols inputs edges key ≠ [] ∧
      ∀ o ∈ key_outcomes symbols inputs edges key, o = .Unique id := by
  rw [summary_site_callees] at h
  split at h
  · cases h
  · rename_i first rest hkey
    split at h
    · rename_i id hid
      obtain ⟨n, hn, hfqn⟩ := Option.map_eq_some_iff.mp h
      rw [hkey]
      exact ⟨id, n, hn, hfqn, List.cons_ne_nil _ _, Outcome.foldl_join_eq_unique.mp hid⟩
    · cases h

/-! ### The callee of an opaque call -/

/-- The reference is a call that the function `f` of the file makes on the line of the fact,
under the path. -/
structure IsCallOf (file : FileInput) (f : String) (df : DataFlowFact) (path : String) (site : Site) : Prop where
  file : site.file = file
  caller : site.caller.fqn = f
  call : is_call_ref site.raw = true
  line : site.raw.span.line = df.span.line
  path : site.path = path

/-- No other call of its caller stands where the reference does. -/
def Alone (inputs : List FileInput) (site : Site) : Prop :=
  (link_sites (build_nodes inputs) inputs).filter (at_place site.place) = [site]

/-- The callable that the calls of the caller on the line under the path are bound to. -/
structure Agreed (narrow : List FileInput → SymbolTable → Site → Narrowed) (inputs : List FileInput) (opts : LinkOpts)
    (file : FileInput) (f : String) (df : DataFlowFact) (path : String) (g : String) (id : NodeId) : Prop where
  callee : ∃ n, (build_nodes inputs)[id.index]? = some n ∧ n.node.fqn = g ∧ n.node.kind.is_callable = true
  exists_call : ∃ site ∈ link_sites (build_nodes inputs) inputs, is_call_ref site.raw = true ∧
    def_to_node (build_nodes inputs) f = some site.caller_id ∧ site.raw.span.line = df.span.line ∧ site.path = path
  bound : ∀ site ∈ link_sites (build_nodes inputs) inputs, IsCallOf file f df path site → Alone inputs site →
    BoundTo narrow inputs opts site id

/-- The path is the FQN of a callable of the repository. -/
def NamesCallable (inputs : List FileInput) (g : String) : Prop :=
  ∃ d ∈ (symbol_table inputs).entries, d.fqn = g ∧ d.kind.is_callable = true

variable {narrow : List FileInput → SymbolTable → Site → Narrowed} {opts : LinkOpts}

theorem agreed_of_site_callees {file : FileInput} (hfile : file ∈ inputs) {df : DataFlowFact}
    (hdf : df ∈ file.facts.data_flows) ( hopaque : is_opaque df = true) {caller : SymbolDef}
    (hcaller : enclosing_def file.facts.scopes file.facts.defs df.scope = some caller) {path g : String}
    (hpath : df.callee_fqn = some path) {caller_id : NodeId}
    (hid : def_to_node (build_nodes inputs) caller.fqn = some caller_id)
    (h : summary_site_callees (build_nodes inputs) inputs (pass_edges narrow inputs opts)
      ⟨caller_id, df.span.line, path⟩ = some g) :
    ∃ id, Agreed narrow inputs opts file caller.fqn df path g id := by
  obtain ⟨id, n, hn, hfqn, hsome, hall⟩ := summary_site_callees_eq_some h
  have houtcome : ∀ row ∈ call_places (build_nodes inputs) inputs, row.1.caller = caller_id →
      row.1.line = df.span.line → row.2.1 = path →
      place_outcome (build_nodes inputs) (pass_edges narrow inputs opts) row.1 row.2.2 = .Unique id := by
    intro row hrow hrowid hline hrowpath
    exact hall _ (List.mem_map_of_mem (List.mem_filter.mpr ⟨hrow, decide_eq_true ⟨hrowid, hline, hrowpath⟩⟩))
  have hwanted : (⟨caller_id, df.span.line, path⟩ : CallKey) ∈ wanted (build_nodes inputs) file := by
    refine List.mem_filterMap.mpr ⟨df, hdf, ?_⟩
    rw [if_pos hopaque, hpath, Option.bind_some, caller_at, hcaller, Option.bind_some, hid]
    rfl
  obtain ⟨row, hrow⟩ := List.exists_mem_of_ne_nil _ (mt List.map_eq_nil_iff.mpr hsome)
  obtain ⟨hrow, hunder⟩ := List.mem_filter.mp hrow
  obtain ⟨hrowid, hline, hrowpath⟩ :
    row.1.caller = caller_id ∧ row.1.line = df.span.line ∧ row.2.1 = path := of_decide_eq_true hunder
  obtain ⟨⟨site, hsite, hsitewanted, hplace, hsitepath⟩, hstart⟩ := call_places_from_calls hrow
  obtain ⟨_, n', hn', hcallable⟩ := callable_of_place_outcome hstart (houtcome row hrow hrowid hline hrowpath)
  obtain rfl := Option.some.inj (hn.symm.trans hn')
  refine ⟨id, ⟨n, hn, hfqn, hcallable⟩, ⟨site, hsite, (of_decide_eq_true hsitewanted).1.1, ?_, ?_, hsitepath.trans hrowpath⟩,
    fun site hsite hof halone => ?_⟩
  · rw [hid, ← hrowid, ← hplace]
    rfl
  · rw [← hline, ← hplace]
    rfl
  · have hsiteid : site.caller_id = caller_id := by
      have hplaced := (well_placed_of_mem hsite).caller_id
      rw [hof.caller, hid] at hplaced
      exact (Option.some.inj hplaced).symm
    have hsitewanted : is_wanted inputs site = true := by
      refine decide_eq_true ⟨⟨hof.call, ?_⟩, ?_⟩
      · rw [hof.file, hof.line]
        exact List.mem_map_of_mem hwanted
      · rw [hsiteid, hof.line, hof.path]
        exact List.mem_flatMap.mpr ⟨file, hfile, hwanted⟩
    exact (bound_of_place_outcome halone
      (houtcome _ (place_of_alone inputs halone hsitewanted) hsiteid hof.line hof.path)).1

/-- An opaque call is taken for a call of what its references agree on, or of the callable
that its path names. -/
theorem summary_callee_spec {file : FileInput} (hfile : file ∈ inputs) {df : DataFlowFact}
    (hdf : df ∈ file.facts.data_flows) ( hopaque : is_opaque df = true) {caller : SymbolDef}
    (hcaller : enclosing_def file.facts.scopes file.facts.defs df.scope = some caller) {g : String}
    (h : summary_callee inputs (pass_edges narrow inputs opts) caller.fqn df = some g) :
    ∃ path, df.callee_fqn = some path ∧
      ((∃ id, Agreed narrow inputs opts file caller.fqn df path g id) ∨ path = g ∧ NamesCallable inputs g) := by
  rw [summary_callee, ground_summary_callee] at h
  obtain ⟨path, hpath, h⟩ := Option.bind_eq_some_iff.mp h
  refine ⟨path, hpath, ?_⟩
  split at h
  · rename_i fqn hsite
    obtain ⟨caller_id, hid, hsite⟩ := Option.bind_eq_some_iff.mp hsite
    obtain rfl := Option.some.inj h
    exact .inl (agreed_of_site_callees hfile hdf hopaque hcaller hpath hid hsite)
  · obtain ⟨d, hd, hfqn⟩ := Option.map_eq_some_iff.mp h
    obtain ⟨hd, hcallable⟩ := Option.filter_eq_some_iff.mp hd
    rw [SymbolTable.def_by_fqn] at hd
    have hname := List.find?_some hd
    have hentry := List.mem_reverse.mp (List.mem_of_find?_eq_some hd)
    exact .inr ⟨(of_decide_eq_true hname).symm.trans hfqn, d, hentry, hfqn, hcallable⟩

/-! ### The calls of the summary pass -/

/-- The calls of every function satisfy `p`. -/
def EveryCall (p : String → CallSite → Prop) (fns : FnMap) : Prop :=
  ∀ f fd, fns.get f = some fd → ∀ cs ∈ fd.calls, p f cs

theorem EveryCall.empty (p : String → CallSite → Prop) : EveryCall p .empty :=
  fun _ _ h => nomatch h

/-- A change of one function that adds only such calls. -/
theorem EveryCall.modify {p : String → CallSite → Prop} {fns : FnMap} (h : EveryCall p fns) {f : String}
    {change : FnDataflow → FnDataflow} (hchange : ∀ fd, ∀ cs ∈ (change fd).calls, cs ∈ fd.calls ∨ p f cs) :
    EveryCall p (fns.modify f change) := by
  intro f' fd hfd cs hcs
  rw [FnMap.get_modify] at hfd
  split at hfd
  · rename_i hf
    subst hf
    obtain rfl := Option.some.inj hfd
    obtain hold | hnew := hchange _ cs hcs
    · cases hget : fns.get f' with
      | none =>
        rw [hget] at hold
        cases hold
      | some old =>
        rw [hget] at hold
        exact h f' old hget cs hold
    · exact hnew
  · exact h f' fd hfd cs hcs

theorem EveryCall.fact_flows {p : String → CallSite → Prop} {fns : FnMap} (h : EveryCall p fns) {callee : Option String}
    {file : FileInput} {fn_fqn : String} {df : DataFlowFact} {r : Replay}
    (hcall : is_opaque df = true → p fn_fqn (call_site callee file fn_fqn df r)) :
    EveryCall p (fact_flows callee file fn_fqn df r fns) := by
  have hreturn : EveryCall p (return_flow fn_fqn df fns) := by
    rw [return_flow]
    split
    · exact h.modify fun _ _ hcs => .inl hcs
    · exact h
  have hcalls : EveryCall p (call_flow callee file fn_fqn df r (return_flow fn_fqn df fns)) := by
    rw [call_flow]
    split
    · rename_i hopaque
      refine hreturn.modify fun fd cs hcs => ?_
      obtain hold | hnew := List.mem_append.mp hcs
      · exact .inl hold
      · exact .inr (List.mem_singleton.mp hnew ▸ hcall hopaque)
    · exact hreturn
  rw [cgx.resolve.fact_flows, source_flow]
  split
  · exact hcalls.modify fun _ _ hcs => .inl hcs
  · exact hcalls

/-- The definitions add no calls. -/
theorem EveryCall.formals {p : String → CallSite → Prop} {fns : FnMap} (h : EveryCall p fns) (defs : List SymbolDef) :
    EveryCall p (defs.foldl def_flows fns) := by
  induction defs generalizing fns with
  | nil => exact h
  | cons d rest ih =>
    refine ih ?_
    rw [def_flows]
    split
    · split
      · exact h.modify fun _ _ hcs => .inl hcs
      · exact h
    · exact h

/-- The call site is that of an opaque fact of the function. -/
def CallOf (narrow : List FileInput → SymbolTable → Site → Narrowed) (inputs : List FileInput) (opts : LinkOpts)
    (f : String) (cs : CallSite) : Prop :=
  ∃ file ∈ inputs, ∃ df ∈ file.facts.data_flows, ∃ caller r, is_opaque df = true ∧
    enclosing_def file.facts.scopes file.facts.defs df.scope = some caller ∧ caller.fqn = f ∧
    cs = call_site (summary_callee inputs (pass_edges narrow inputs opts) f df) file f df r

theorem fn_dataflow_calls : EveryCall (CallOf narrow inputs opts) (fn_dataflow inputs (pass_edges narrow inputs opts)) := by
  have hfacts : ∀ file ∈ inputs, ∀ (facts : List DataFlowFact), (∀ df ∈ facts, df ∈ file.facts.data_flows) →
      ∀ s : Replay × FnMap, EveryCall (CallOf narrow inputs opts) s.2 →
      EveryCall (CallOf narrow inputs opts)
        (facts.foldl (flow_fact inputs (pass_edges narrow inputs opts) file) s).2 := by
    intro file hfile facts
    induction facts with
    | nil => exact fun _ _ h => h
    | cons df rest ih =>
      intro hmem s h
      refine ih (fun df' h' => hmem df' (List.mem_cons_of_mem df h')) _ ?_
      rw [flow_fact]
      split
      · rename_i caller hcaller
        exact h.fact_flows fun hopaque =>
          ⟨file, hfile, df, hmem df List.mem_cons_self, caller, s.1, hopaque, hcaller, rfl, rfl⟩
      · exact h
  have hfiles : ∀ files : List FileInput, (∀ file ∈ files, file ∈ inputs) → ∀ s : Replay × FnMap,
      EveryCall (CallOf narrow inputs opts) s.2 →
      EveryCall (CallOf narrow inputs opts)
        (files.foldl (flow_file inputs (pass_edges narrow inputs opts)) s).2 := by
    intro files
    induction files with
    | nil => exact fun _ _ h => h
    | cons file rest ih =>
      intro hmem s h
      refine ih (fun file' h' => hmem file' (List.mem_cons_of_mem file h')) _ ?_
      exact hfacts file (hmem file List.mem_cons_self) _ (fun df hdf => mem_sort_by.mp hdf) _ h
  exact hfiles inputs (fun _ h => h) _ ((EveryCall.empty _).formals _)

end

/-- Whenever the summary pass takes an opaque call of `f` for a call of `g`, the calls that
`f` makes on that line under that path, and that stand alone, are bound to `g` by scope or
import, or the path is the FQN of the callable `g`. -/
theorem summaries_apply_at_bound_calls (narrow : List FileInput → SymbolTable → Site → Narrowed)
    (inputs : List FileInput) (opts : LinkOpts) {f g : String} {fd : FnDataflow} {cs : CallSite}
    (hfd : (fn_dataflow inputs (pass_edges narrow inputs opts)).get f = some fd) (hcs : cs ∈ fd.calls)
    (hg : cs.callee_fqn = some g) :
    ∃ file ∈ inputs, ∃ df ∈ file.facts.data_flows, ∃ caller path, is_opaque df = true ∧
      enclosing_def file.facts.scopes file.facts.defs df.scope = some caller ∧ caller.fqn = f ∧
      cs.span = ⟨file.path, df.span.line, df.span.col⟩ ∧ df.callee_fqn = some path ∧
      ((∃ id, Agreed narrow inputs opts file f df path g id) ∨ path = g ∧ NamesCallable inputs g) := by
  obtain ⟨file, hfile, df, hdf, caller, r, hopaque, hcaller, rfl, rfl⟩ := fn_dataflow_calls f fd hfd cs hcs
  obtain ⟨path, hpath, hcase⟩ := summary_callee_spec hfile hdf hopaque hcaller hg
  exact ⟨file, hfile, df, hdf, caller, path, hopaque, hcaller, rfl, rfl, hpath, hcase⟩

namespace sample

/-- `m::f` and `n::f`, and `m::main` with a call `r = <path>(y)` on the third line. -/
def calling (name_path : List String) : FileInput where
  blob_oid := ""
  path := "a.py"
  lang := "python"
  facts :=
    { FileFacts.empty with
      defs := [ python_def "m::f" 1 [⟨"x", none, false, false⟩], python_def "n::f" 2 [⟨"x", none, false, false⟩],
        python_def "m::main" 3 []]
      refs :=
        [{ name_path := name_path, scope := ⟨1⟩, kind := .Call, edge_condition := .Always, implicit := none,
           span := ⟨"a.py", 3, some 4⟩, stmt_index := 0, arity := some 1, cut_markers := [] }]
      data_flows :=
        [{ derived := ["r"], source := [], derived_version := 1, scope := ⟨1⟩, transform := .Copy,
           edge_condition := .Always, cut_markers := [.OpaqueCall], callee_fqn := some (join_path name_path),
           args := [["y"]], span := ⟨"a.py", 3, some 0⟩ }]
      scopes := ⟨[⟨none, none⟩, ⟨some .ROOT, some "m::main"⟩]⟩ }

def no_receivers : List FileInput → SymbolTable → Site → Narrowed :=
  fun _ _ _ => .Legacy

/-- The callees of the calls that the summary pass sees in `m::main`. -/
def callees (file : FileInput) : Option (List (Option String)) :=
  ((fn_dataflow [file] (pass_edges no_receivers [file] .default)).get "m::main").map fun fd =>
    fd.calls.map CallSite.callee_fqn

theorem exists_call_of_callees (file : FileInput) (g : String) (h : callees file = some [some g]) :
    ∃ fd cs, (fn_dataflow [file] (pass_edges no_receivers [file] .default)).get "m::main" = some fd ∧ cs ∈ fd.calls ∧
      cs.callee_fqn = some g := by
  obtain ⟨fd, hfd, hcalls⟩ := Option.map_eq_some_iff.mp h
  have hmem : some g ∈ fd.calls.map CallSite.callee_fqn := hcalls ▸ List.mem_singleton_self (some g)
  obtain ⟨cs, hcs, hg⟩ := List.mem_map.mp hmem
  exact ⟨fd, cs, hfd, hcs, hg⟩

/-- The call `f(y)` is bound to `m::f`, which its scope names. -/
theorem scope_call_is_bound :
    ∃ file ∈ [calling ["f"]], ∃ df ∈ file.facts.data_flows, ∃ caller path, is_opaque df = true ∧
      enclosing_def file.facts.scopes file.facts.defs df.scope = some caller ∧ caller.fqn = "m::main" ∧
      df.callee_fqn = some path ∧
      ((∃ id, Agreed no_receivers [calling ["f"]] .default file "m::main" df path "m::f" id) ∨
        path = "m::f" ∧ NamesCallable [calling ["f"]] "m::f") := by
  obtain ⟨fd, cs, hfd, hcs, hg⟩ := exists_call_of_callees (calling ["f"]) "m::f" (by decide +kernel)
  obtain ⟨file, hfile, df, hdf, caller, path, hopaque, hcaller, hf, _, hpath, hcase⟩ :=
    summaries_apply_at_bound_calls no_receivers [calling ["f"]] .default hfd hcs hg
  exact ⟨file, hfile, df, hdf, caller, path, hopaque, hcaller, hf, hpath, hcase⟩

/-- Every call of the function on the line under the path is bound to `g` alone, or none of
them is resolved and the path is the FQN of the callable `g`. -/
def Proved (inputs : List FileInput) (file : FileInput) (f : String) (df : DataFlowFact) (path g : String) : Prop :=
  (∃ id n, (build_nodes inputs)[id.index]? = some n ∧ n.node.fqn = g ∧
    ∀ site ∈ link_sites (build_nodes inputs) inputs, IsCallOf file f df path site →
      BoundTo no_receivers inputs .default site id) ∨
  (∀ site ∈ link_sites (build_nodes inputs) inputs, IsCallOf file f df path site →
      emitted site (resolved_by no_receivers inputs .default site) = []) ∧ path = g ∧ NamesCallable inputs g

/-- The call `m::f(y)` is resolved by name to the set of `m::f` and `n::f`, and the summary
pass takes it for a call of `m::f`. -/
theorem exact_path_overrides_candidates :
    callees (calling ["m", "f"]) = some [some "m::f"] ∧
      ∃ df, (calling ["m", "f"]).facts.data_flows = [df] ∧
        ¬ Proved [calling ["m", "f"]] (calling ["m", "f"]) "m::main" df "m::f" "m::f" := by
  refine ⟨by decide +kernel, _, rfl, ?_⟩
  obtain ⟨site, hsite⟩ : ∃ site, link_sites (build_nodes [calling ["m", "f"]]) [calling ["m", "f"]] = [site] :=
    List.length_eq_one_iff.mp (by decide +kernel)
  have hcall : ∀ site ∈ link_sites (build_nodes [calling ["m", "f"]]) [calling ["m", "f"]],
      site.file = calling ["m", "f"] ∧ site.caller.fqn = "m::main" ∧ is_call_ref site.raw = true ∧
        site.raw.span.line = 3 ∧ site.path = "m::f" ∧
        (emitted site (resolved_by no_receivers [calling ["m", "f"]] .default site)).length = 2 := by
    decide +kernel
  have hmem : site ∈ link_sites (build_nodes [calling ["m", "f"]]) [calling ["m", "f"]] :=
    hsite ▸ List.mem_singleton_self site
  obtain ⟨hfile, hcaller, hkind, hline, hpath, htwo⟩ := hcall site hmem
  rintro (⟨id, n, _, _, hbound⟩ | ⟨hnone, _⟩)
  · obtain ⟨e, he, _⟩ := hbound site hmem ⟨hfile, hcaller, hkind, hline, hpath⟩
    rw [he] at htwo
    cases htwo
  · rw [hnone site hmem ⟨hfile, hcaller, hkind, hline, hpath⟩] at htwo
    cases htwo

end sample

end cgx.resolve
