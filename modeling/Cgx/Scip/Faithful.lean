import Cgx.Scip.Frame

open cgx.core cgx.resolve cgx.store cgx.index sorting

namespace cgx.scip

section

variable (g : ResolvedGraph) (scip : ScipResolver) (opts : ScipRelabelOpts)

/-- The band of a call at a resolved site. -/
def band_of (e : EdgeWithProvenance) (symbol : String) (mapped : MappedSymbol) : Confidence :=
  (pass_over g scip opts).target_conf e.edge.kind symbol mapped

/-- What a relabel keeps, whatever the index says: the nodes, every edge apart from its
band and its target, the rows, and what all endpoints stand for. -/
structure Preserved : Prop where
  node_kept : ∀ n ∈ g.nodes, with_id (placed_id g scip opts n.node.id) n ∈ (relabel g scip opts).1.nodes
  nodes_apart : ∀ n ∈ g.nodes, ∀ m ∈ g.nodes,
    placed_id g scip opts n.node.id = placed_id g scip opts m.node.id → n = m
  edge_kept : ∀ e ∈ g.edges, ∃ e', Descends g scip opts e e'
  edge_framed : ∀ e e', Descends g scip opts e e' →
    e.edge.confidence ≤ e'.edge.confidence ∧ e'.edge.src = placed_id g scip opts e.edge.src ∧
      e'.edge.dst = placed_id g scip opts ((pass_over g scip opts).relabeled e).edge.dst ∧
      e'.edge.kind = e.edge.kind ∧ e'.edge.condition = e.edge.condition ∧
      e'.edge.stmt_index = e.edge.stmt_index ∧ e'.edge.cut_markers = e.edge.cut_markers
  edge_known : ∀ e' ∈ (relabel g scip opts).1.edges, (∃ e ∈ g.edges, Descends g scip opts e e') ∨
    ∃ e ∈ g.edges, ∃ mapped dst, (pass_over g scip opts).foreign e = some mapped ∧
      stem e' = stem (placed_edge g scip opts (ScipRelabel.dep_edge e mapped dst)) ∧
      ∃ n ∈ (relabel g scip opts).1.nodes, n.node.id = e'.edge.dst ∧ n.node.fqn = mapped.qname
  row_known : ∀ c' ∈ (relabel g scip opts).1.candidates, ∃ c ∈ g.candidates,
    c'.rank = c.rank ∧ c'.dst = placed_id g scip opts c.dst
  canonical : check_canonical (into_linked (relabel g scip opts).1) = .ok ()

/-- A call whose symbol can be overridden keeps its target, its group and the rows of
that group. -/
def OverridableKept : Prop :=
  ∀ e e', Descends g scip opts e e' → e.edge.kind.is_call → ∀ symbol mapped,
    (pass_over g scip opts).resolution e.provenance.span = some (symbol, mapped) →
    scip.classify symbol ≠ .FreeOrInherent →
      e'.edge.dst = placed_id g scip opts e.edge.dst ∧
        e'.edge.candidate_group = placed_group g scip opts e.edge.candidate_group ∧
        ∀ c ∈ g.candidates, e.edge.candidate_group = some c.candidate_group →
          ∃ c' ∈ (relabel g scip opts).1.candidates, e'.edge.candidate_group = some c'.candidate_group ∧
            c'.rank = c.rank ∧ c'.dst = placed_id g scip opts c.dst

/-- A site that the pass redirects is left with one call. -/
def CollapsedOnce : Prop :=
  ∀ e ∈ g.edges, e.edge.kind.is_call → ∀ symbol mapped,
    (pass_over g scip opts).resolution e.provenance.span = some (symbol, mapped) →
    (pass_over g scip opts).Settles mapped (band_of g scip opts e symbol mapped) →
      calls_at (relabel g scip opts).1.edges (placed_id g scip opts e.edge.src) e.provenance.span = 1

/-- A site that calls into another package gains one dependency edge. -/
def ForeignOnce : Prop :=
  ∀ e ∈ g.edges, e.edge.kind.is_call → ∀ symbol mapped,
    (pass_over g scip opts).resolution e.provenance.span = some (symbol, mapped) →
    (pass_over g scip opts).is_local_package mapped.package = false →
      calls_at (relabel g scip opts).1.edges (placed_id g scip opts e.edge.src) e.provenance.span =
        calls_at g.edges e.edge.src e.provenance.span + 1

/-- The pass loses nothing and duplicates nothing. -/
structure Faithful : Prop where
  preserved : Preserved g scip opts
  overridable_kept : OverridableKept g scip opts
  collapsed_once : CollapsedOnce g scip opts
  foreign_once : ForeignOnce g scip opts

/-- A call that can be relabeled without loss: a settled or foreign site has no other call,
and the redirect of a symbol that can be overridden changes nothing. -/
structure Lone (e : EdgeWithProvenance) (symbol : String) (mapped : MappedSymbol) : Prop where
  alone : (pass_over g scip opts).Settles mapped (band_of g scip opts e symbol mapped) ∨
    (pass_over g scip opts).is_local_package mapped.package = false →
      calls_at g.edges e.edge.src e.provenance.span = 1
  overridable : scip.classify symbol ≠ .FreeOrInherent →
    (pass_over g scip opts).Settles mapped (band_of g scip opts e symbol mapped) →
      (pass_over g scip opts).redirect mapped (band_of g scip opts e symbol mapped) = some e.edge.dst ∧
        e.edge.candidate_group = none

end

variable {g : ResolvedGraph} {scip : ScipResolver} {opts : ScipRelabelOpts}

/-! ### What is always kept -/

theorem relabel_candidates : (relabel g scip opts).1.candidates =
    (if ran_dirty g scip opts then canonicalize (retain_carried (ran g scip opts))
      else ran g scip opts).candidates :=
  rfl

/-- A row of the walk is kept as long as an edge carries its group. -/
theorem row_kept {row : Candidate} (hrow : row ∈ g.candidates) {w : EdgeWithProvenance}
    (hw : w ∈ (ran g scip opts).edges) (hgr : w.edge.candidate_group = some row.candidate_group) :
    ∃ c' ∈ (relabel g scip opts).1.candidates,
      placed_group g scip opts (some row.candidate_group) = some c'.candidate_group ∧
        c'.rank = row.rank ∧ c'.dst = placed_id g scip opts row.dst := by
  have hmem : { row with dst := placed_id g scip opts row.dst } ∈ (ran g scip opts).candidates := by
    rw [run_parts.2.1]
    exact List.mem_map_of_mem hrow
  rw [relabel_candidates]
  split
  · rename_i hdirty
    have hretained : { row with dst := placed_id g scip opts row.dst } ∈
        (retain_carried (ran g scip opts)).candidates :=
      mem_retained.mpr ⟨⟨row, hrow, rfl⟩, w, hw, hgr⟩
    refine ⟨_, mem_sort_by.mpr (List.mem_map_of_mem hretained), ?_, rfl, rfl⟩
    rw [placed_group, if_pos hdirty]
    rfl
  · rename_i hclean
    refine ⟨_, hmem, ?_, rfl, rfl⟩
    rw [placed_group, if_neg hclean]

theorem row_known {c' : Candidate} (h : c' ∈ (relabel g scip opts).1.candidates) :
    ∃ c ∈ g.candidates, c'.rank = c.rank ∧ c'.dst = placed_id g scip opts c.dst := by
  have hran : ∀ c ∈ (ran g scip opts).candidates, ∃ row ∈ g.candidates,
      c.rank = row.rank ∧ c.dst = placed_id g scip opts row.dst := by
    intro c hc
    rw [run_parts.2.1] at hc
    obtain ⟨row, hrow, rfl⟩ := List.mem_map.mp hc
    exact ⟨row, hrow, rfl, rfl⟩
  rw [relabel_candidates] at h
  split at h
  · obtain ⟨c, hc, rfl⟩ := List.mem_map.mp (mem_sort_by.mp h)
    exact hran c (List.mem_filter.mp hc).1
  · exact hran c' h

theorem relabel_edges_length :
    (relabel g scip opts).1.edges.length = (ran g scip opts).edges.length := by
  rw [relabel_edges]
  split
  · exact canonicalize_edges_length (retain_carried (ran g scip opts))
  · rfl

/-- Every edge of the result is what became of an edge of the graph, or the dependency edge
of a foreign call. -/
theorem edge_known (h : Fits g) {e' : EdgeWithProvenance} (he' : e' ∈ (relabel g scip opts).1.edges) :
    (∃ e ∈ g.edges, Descends g scip opts e e') ∨
      ∃ e ∈ g.edges, ∃ mapped dst, (pass_over g scip opts).foreign e = some mapped ∧
        stem e' = stem (placed_edge g scip opts (ScipRelabel.dep_edge e mapped dst)) ∧
        ∃ n ∈ (relabel g scip opts).1.nodes, n.node.id = e'.edge.dst ∧ n.node.fqn = mapped.qname := by
  obtain ⟨j, hj⟩ := List.mem_iff_getElem?.mp he'
  have hlt : j < (origins g scip opts).length := by
    rw [perm_origins.length_eq, List.length_range, ← relabel_edges_length]
    exact (List.getElem?_eq_some_iff.mp hj).1
  have horigin := List.getElem?_eq_getElem hlt
  obtain ⟨w, hw, e'', he'', hstem, _⟩ := relabel_edge_at horigin
  rw [hj] at he''
  cases he''
  by_cases hold : (origins g scip opts)[j] < g.edges.length
  · have hat := List.getElem?_eq_getElem hold
    exact .inl ⟨_, List.getElem_mem hold, _, j, hat, horigin, hj⟩
  · right
    rw [run_parts.1, List.getElem?_append_right (by simpa using Nat.le_of_not_lt hold)] at hw
    obtain ⟨d, hd, rfl⟩ := List.mem_map.mp (List.mem_of_getElem? hw)
    obtain ⟨e, he, mapped, dst, hforeign, rfl, n, hn, rfl, hfqn⟩ := collected.deps d hd
    have hdst : e'.edge.dst = placed_id g scip opts n.node.id := congrArg (fun e => e.edge.dst) hstem
    exact ⟨e, he, mapped, _, hforeign, hstem, _, h.node_placed hn, hdst.symm, hfqn⟩

theorem preserved (h : Accepted g) : Preserved g scip opts where
  node_kept := fun n hn => h.fits.node_placed (Fits.walked_mem hn)
  nodes_apart := fun n hn m hm => h.fits.placed_inj (Fits.walked_mem hn) (Fits.walked_mem hm)
  edge_kept := fun e he => exists_descends he
  edge_framed := by
    intro e e' hbecame
    have hframed := framed_relabeled (pass_over g scip opts) e
    have hstem := hbecame.spec.1
    refine ⟨?_, ?_, hbecame.dst, ?_, ?_, ?_, ?_⟩
    · rw [hbecame.confidence]
      exact hframed.confidence
    · rw [← hframed.src]
      exact congrArg (fun e => e.edge.src) hstem
    · rw [← hframed.kind]
      exact congrArg (fun e => e.edge.kind) hstem
    · rw [← hframed.condition]
      exact congrArg (fun e => e.edge.condition) hstem
    · rw [← hframed.stmt_index]
      exact congrArg (fun e => e.edge.stmt_index) hstem
    · rw [← hframed.cut_markers]
      exact congrArg (fun e => e.edge.cut_markers) hstem
  edge_known := fun e' he' => edge_known h.fits he'
  row_known := fun c' hc' => row_known hc'
  canonical := check_relabel h

/-! ### The calls of a site -/

/-- A foreign call, by what its site resolves to. -/
theorem foreign_eq {e : EdgeWithProvenance} (hcall : e.edge.kind.is_call) {symbol : String}
    {mapped : MappedSymbol}
    (hres : (pass_over g scip opts).resolution e.provenance.span = some (symbol, mapped)) :
    (pass_over g scip opts).foreign e =
      if (pass_over g scip opts).is_local_package mapped.package then none else some mapped := by
  rw [ScipRelabel.foreign, if_pos hcall, hres, Option.map_some, Option.filter_some]
  cases (pass_over g scip opts).is_local_package mapped.package <;> rfl

/-- All calls of a site resolve alike: they are all foreign or none is. -/
theorem count_foreign {span : Span} {symbol : String} {mapped : MappedSymbol}
    (hres : (pass_over g scip opts).resolution span = some (symbol, mapped)) (src : NodeId) :
    (g.edges.countP fun e => ((pass_over g scip opts).foreign e).isSome && at_call src span e) =
      if (pass_over g scip opts).is_local_package mapped.package then 0 else calls_at g.edges src span := by
  have hsome : ∀ e, at_call src span e = true → ((pass_over g scip opts).foreign e).isSome =
      !(pass_over g scip opts).is_local_package mapped.package := by
    intro e hat
    simp only [at_call, decide_eq_true_eq] at hat
    rw [← hat.2.2] at hres
    rw [foreign_eq hat.1 hres]
    cases (pass_over g scip opts).is_local_package mapped.package <;> rfl
  split
  · rename_i hlocal
    apply List.countP_eq_zero.mpr
    intro e _
    cases hat : at_call src span e with
    | false => simp
    | true => simp [hsome e hat, hlocal]
  · rename_i hforeign
    apply List.countP_congr
    intro e _
    cases hat : at_call src span e with
    | false => simp
    | true => simp [hsome e hat, hforeign]

/-- How many calls a resolved site has afterwards. -/
theorem calls_at_resolved (h : Accepted g) {e : EdgeWithProvenance} (he : e ∈ g.edges) {symbol : String}
    {mapped : MappedSymbol}
    (hres : (pass_over g scip opts).resolution e.provenance.span = some (symbol, mapped)) :
    calls_at (relabel g scip opts).1.edges (placed_id g scip opts e.edge.src) e.provenance.span =
      calls_at g.edges e.edge.src e.provenance.span +
        if (pass_over g scip opts).is_local_package mapped.package then 0
        else calls_at g.edges e.edge.src e.provenance.span := by
  rw [calls_at_relabel h.fits h.ends (h.ends e he).1, count_foreign hres]

theorem collapsed_once_iff (h : Accepted g) : CollapsedOnce g scip opts ↔
    ∀ e ∈ g.edges, e.edge.kind.is_call → ∀ symbol mapped,
      (pass_over g scip opts).resolution e.provenance.span = some (symbol, mapped) →
      (pass_over g scip opts).Settles mapped (band_of g scip opts e symbol mapped) →
        calls_at g.edges e.edge.src e.provenance.span = 1 := by
  have hcount : ∀ e ∈ g.edges, ∀ symbol mapped,
      (pass_over g scip opts).resolution e.provenance.span = some (symbol, mapped) →
      (pass_over g scip opts).Settles mapped (band_of g scip opts e symbol mapped) →
        calls_at (relabel g scip opts).1.edges (placed_id g scip opts e.edge.src) e.provenance.span =
          calls_at g.edges e.edge.src e.provenance.span := by
    intro e he symbol mapped hres hsettles
    rw [calls_at_resolved h he hres, if_pos hsettles.in_tree, Nat.add_zero]
  constructor
  · intro honce e he hcall symbol mapped hres hsettles
    rw [← hcount e he symbol mapped hres hsettles]
    exact honce e he hcall symbol mapped hres hsettles
  · intro hone e he hcall symbol mapped hres hsettles
    rw [hcount e he symbol mapped hres hsettles]
    exact hone e he hcall symbol mapped hres hsettles

theorem foreign_once_iff (h : Accepted g) : ForeignOnce g scip opts ↔
    ∀ e ∈ g.edges, e.edge.kind.is_call → ∀ symbol mapped,
      (pass_over g scip opts).resolution e.provenance.span = some (symbol, mapped) →
      (pass_over g scip opts).is_local_package mapped.package = false →
        calls_at g.edges e.edge.src e.provenance.span = 1 := by
  have hcount : ∀ e ∈ g.edges, ∀ symbol mapped,
      (pass_over g scip opts).resolution e.provenance.span = some (symbol, mapped) →
      (pass_over g scip opts).is_local_package mapped.package = false →
        calls_at (relabel g scip opts).1.edges (placed_id g scip opts e.edge.src) e.provenance.span =
          calls_at g.edges e.edge.src e.provenance.span + calls_at g.edges e.edge.src e.provenance.span := by
    intro e he symbol mapped hres hforeign
    rw [calls_at_resolved h he hres, if_neg (by simp [hforeign])]
  constructor
  · intro honce e he hcall symbol mapped hres hforeign
    have hgain := honce e he hcall symbol mapped hres hforeign
    rw [hcount e he symbol mapped hres hforeign] at hgain
    omega
  · intro hone e he hcall symbol mapped hres hforeign
    rw [hcount e he symbol mapped hres hforeign, hone e he hcall symbol mapped hres hforeign]

/-! ### Symbols that can be overridden -/

theorem overridable_kept_iff (h : Accepted g) : OverridableKept g scip opts ↔
    ∀ e ∈ g.edges, e.edge.kind.is_call → ∀ symbol mapped,
      (pass_over g scip opts).resolution e.provenance.span = some (symbol, mapped) →
      scip.classify symbol ≠ .FreeOrInherent →
      (pass_over g scip opts).Settles mapped (band_of g scip opts e symbol mapped) →
        (pass_over g scip opts).redirect mapped (band_of g scip opts e symbol mapped) = some e.edge.dst ∧
          e.edge.candidate_group = none := by
  constructor
  · intro hkept e he hcall symbol mapped hres hclass hsettles
    obtain ⟨e', hbecame⟩ := @exists_descends g scip opts e he
    obtain ⟨hdst, hgroup, _⟩ := hkept e e' hbecame hcall symbol mapped hres hclass
    obtain ⟨n, hn, hredirect, _⟩ := ScipRelabel.redirect_of_settles hsettles
    have hrelabeled := ScipRelabel.relabeled_of_resolution hcall hres
    change _ = ScipRelabel.bind_target ((pass_over g scip opts).redirect mapped (band_of g scip opts e symbol mapped)) _
      at hrelabeled
    rw [hredirect] at hrelabeled
    constructor
    · rw [hbecame.dst, hrelabeled] at hdst
      obtain ⟨m, hm, hid⟩ := h.fits.exists_node (h.ends e he).2
      rw [← hid] at hdst ⊢
      rw [hredirect, h.fits.placed_inj (Fits.walked_mem hn) (Fits.walked_mem hm) hdst]
    · rw [hbecame.spec.2, hrelabeled] at hgroup
      change placed_group g scip opts none = _ at hgroup
      rw [placed_group, placed_group] at hgroup
      split at hgroup
      · simpa [eq_comm] using hgroup
      · exact hgroup.symm
  · intro hidle e e' hbecame hcall symbol mapped hres hclass
    have he : e ∈ g.edges := by
      obtain ⟨i, _, hi, _⟩ := hbecame
      exact List.mem_of_getElem? hi
    -- Settled or not, the target and the group stay.
    have hsame : ((pass_over g scip opts).relabeled e).edge.dst = e.edge.dst ∧
        ((pass_over g scip opts).relabeled e).edge.candidate_group = e.edge.candidate_group := by
      rw [ScipRelabel.relabeled_of_resolution hcall hres]
      cases hredirect : (pass_over g scip opts).redirect mapped
          ((pass_over g scip opts).target_conf e.edge.kind symbol mapped) with
      | none => exact ⟨raise_dst _ e, raise_group _ e⟩
      | some target =>
        obtain ⟨htarget, hgroup⟩ := hidle e he hcall symbol mapped hres hclass
          (ScipRelabel.settles_of_redirect hredirect).1
        change (pass_over g scip opts).redirect mapped
          ((pass_over g scip opts).target_conf e.edge.kind symbol mapped) = _ at htarget
        rw [hredirect] at htarget
        cases htarget
        exact ⟨rfl, hgroup.symm⟩
    have hgroup := hbecame.spec.2
    rw [hsame.2] at hgroup
    refine ⟨by rw [hbecame.dst, hsame.1], hgroup, ?_⟩
    intro c hc hgr
    obtain ⟨i, _, hi, _⟩ := hbecame
    have hw := List.mem_of_getElem? (@walk_edge_at g scip opts i e hi)
    obtain ⟨c', hc', hplaced, hrank, hdst⟩ := @row_kept g scip opts c hc _ hw (by
      change ((pass_over g scip opts).relabeled e).edge.candidate_group = _
      rw [hsame.2, hgr])
    exact ⟨c', hc', by rw [hgroup, hgr, hplaced], hrank, hdst⟩

/-- The pass loses nothing and duplicates nothing exactly when every settled or foreign
site has one call, and no redirect changes a call whose symbol can be overridden. -/
theorem relabel_faithful_iff (h : Accepted g) : Faithful g scip opts ↔
    ∀ e ∈ g.edges, e.edge.kind.is_call → ∀ symbol mapped,
      (pass_over g scip opts).resolution e.provenance.span = some (symbol, mapped) →
        Lone g scip opts e symbol mapped := by
  constructor
  · intro hfaithful e he hcall symbol mapped hres
    refine ⟨?_, (overridable_kept_iff h).mp hfaithful.overridable_kept e he hcall symbol mapped hres⟩
    intro hsite
    cases hsite with
    | inl hsettles => exact (collapsed_once_iff h).mp hfaithful.collapsed_once e he hcall symbol mapped hres hsettles
    | inr hforeign => exact (foreign_once_iff h).mp hfaithful.foreign_once e he hcall symbol mapped hres hforeign
  · intro hlone
    refine ⟨preserved h, (overridable_kept_iff h).mpr ?_, (collapsed_once_iff h).mpr ?_,
      (foreign_once_iff h).mpr ?_⟩
    · intro e he hcall symbol mapped hres
      exact (hlone e he hcall symbol mapped hres).overridable
    · intro e he hcall symbol mapped hres hsettles
      exact (hlone e he hcall symbol mapped hres).alone (.inl hsettles)
    · intro e he hcall symbol mapped hres hforeign
      exact (hlone e he hcall symbol mapped hres).alone (.inr hforeign)

/-! ### A candidate group that is settled -/

namespace sample

/-- A call from `p::run` with the two candidates `p::f` and `p::g`. -/
def group_graph : ResolvedGraph where
  nodes := call_graph.nodes
  edges :=
    [⟨{ certain_edge 0 .Calls 2 0 with
          confidence := .Possible, tier := .NameSyntactic, rule := "name-arity", candidate_group := some 0 },
        ⟨⟨"a.rs", 3, some 5⟩, "name-arity", .NameSyntactic, ""⟩⟩,
      ⟨{ certain_edge 1 .Calls 2 1 with
          confidence := .Possible, tier := .NameSyntactic, rule := "name-arity", candidate_group := some 0 },
        ⟨⟨"a.rs", 3, some 5⟩, "name-arity", .NameSyntactic, ""⟩⟩]
  candidates := [⟨0, ⟨0⟩, 0⟩, ⟨0, ⟨1⟩, 1⟩]
  unresolved := []

theorem accepted : Accepted group_graph :=
  ⟨rfl, by decide⟩

end sample

theorem relabel_faithful_iff_group :
    Faithful sample.group_graph (sample.index_of "r c p 1 f().") sample.inferred ↔
      ∀ e ∈ sample.group_graph.edges, e.edge.kind.is_call → ∀ symbol mapped,
        (pass_over sample.group_graph (sample.index_of "r c p 1 f().") sample.inferred).resolution
            e.provenance.span = some (symbol, mapped) →
          Lone sample.group_graph (sample.index_of "r c p 1 f().") sample.inferred e symbol mapped :=
  relabel_faithful_iff sample.accepted

/-- Both candidates of a settled call are redirected to its definition, and two equal
edges are left. -/
theorem settled_group_is_doubled :
    ¬ Faithful sample.group_graph (sample.index_of "r c p 1 f().") sample.inferred := by
  intro h
  have hres : (pass_over sample.group_graph (sample.index_of "r c p 1 f().") sample.inferred).resolution
      ⟨"a.rs", 3, some 5⟩ = some ("r c p 1 f().", ⟨"p::f", "p::f", "p", "1"⟩) := by decide +kernel
  have hredirect : (pass_over sample.group_graph (sample.index_of "r c p 1 f().") sample.inferred).redirect
      ⟨"p::f", "p::f", "p", "1"⟩ .Certain = some ⟨0⟩ := by decide +kernel
  have hband : band_of sample.group_graph (sample.index_of "r c p 1 f().") sample.inferred
      (sample.group_graph.edges.headD default) "r c p 1 f()." ⟨"p::f", "p::f", "p", "1"⟩ = .Certain := by
    decide +kernel
  have hone := h.collapsed_once (sample.group_graph.edges.headD default) List.mem_cons_self (by decide)
    _ _ hres (by
      rw [hband]
      exact (ScipRelabel.settles_of_redirect hredirect).1)
  have htwo : calls_at (relabel sample.group_graph (sample.index_of "r c p 1 f().") sample.inferred).1.edges
      (placed_id sample.group_graph (sample.index_of "r c p 1 f().") sample.inferred ⟨2⟩)
      ⟨"a.rs", 3, some 5⟩ = 2 := by decide +kernel
  have hcontra := htwo.symm.trans hone
  omega

end cgx.scip
