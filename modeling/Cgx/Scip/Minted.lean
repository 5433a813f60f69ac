import Cgx.Scip.Raised

open cgx.core cgx.resolve sorting

namespace cgx.scip

/-- Whether an edge is a call of `src` at a span. -/
def at_call (src : NodeId) (span : Span) (e : EdgeWithProvenance) : Bool :=
  e.edge.kind.is_call ∧ e.edge.src = src ∧ e.provenance.span = span

/-- How many call edges a caller has at a span. -/
def calls_at (edges : List EdgeWithProvenance) (src : NodeId) (span : Span) : Nat :=
  edges.countP (at_call src span)

namespace ScipRelabel

variable (pass : ScipRelabel)

/-- The symbol of another package that a call resolves to. -/
def foreign (e : EdgeWithProvenance) : Option MappedSymbol :=
  if e.edge.kind.is_call then
    ((pass.resolution e.provenance.span).map Prod.snd).filter fun mapped =>
      !pass.is_local_package mapped.package
  else none

/-- Whether the pass redirects an edge or takes it out of its group. -/
def moves (e : EdgeWithProvenance) : Bool :=
  (pass.relabeled e).edge.dst ≠ e.edge.dst ∨
    (pass.relabeled e).edge.candidate_group ≠ e.edge.candidate_group

variable {pass}

/-- What the walk collects at one edge: nothing, or the dependency edge of a foreign call. -/
theorem relabel_edge_collects (m : Minted) (e : EdgeWithProvenance) :
    (pass.foreign e = none ∧ (pass.relabel_edge m e).new_edges = m.new_edges ∧
      (pass.relabel_edge m e).new_nodes = m.new_nodes) ∨
    ∃ mapped, pass.foreign e = some mapped ∧
      (pass.relabel_edge m e).new_edges =
        m.new_edges ++ [dep_edge e mapped (pass.external_node m mapped.qname).1] ∧
      (pass.relabel_edge m e).new_nodes = (pass.external_node m mapped.qname).2.new_nodes := by
  by_cases hcall : e.edge.kind.is_call = true
  · cases hres : pass.resolution e.provenance.span with
    | none => exact .inl (by simp [foreign, relabel_edge, hcall, hres])
    | some r =>
      obtain ⟨symbol, mapped⟩ := r
      by_cases hlocal : pass.is_local_package mapped.package = true
      · exact .inl (by simp [foreign, relabel_edge, hcall, hres, hlocal])
      · refine .inr ⟨mapped, by simp [foreign, hcall, hres, hlocal], ?_⟩
        have hexternal : ∀ stats, (pass.external_node { m with stats := stats } mapped.qname).1 =
              (pass.external_node m mapped.qname).1 ∧
            (pass.external_node { m with stats := stats } mapped.qname).2.new_nodes =
              (pass.external_node m mapped.qname).2.new_nodes ∧
            (pass.external_node { m with stats := stats } mapped.qname).2.new_edges = m.new_edges := by
          intro stats
          simp only [external_node]
          split
          · exact ⟨rfl, rfl, rfl⟩
          · split
            · exact ⟨rfl, rfl, rfl⟩
            · exact ⟨rfl, rfl, rfl⟩
        obtain ⟨hid, hnodes, hedges⟩ := hexternal (pass.count m.stats e symbol mapped)
        simp only [relabel_edge, hcall, hres, if_true, hlocal, emit_dep_edge, hid, hnodes, hedges]
        exact ⟨rfl, rfl⟩
  · exact .inl (by simp [foreign, relabel_edge, hcall])

/-- The walk is dirty once it moves an edge. -/
theorem relabel_edge_dirty (m : Minted) (e : EdgeWithProvenance) :
    (pass.relabel_edge m e).dirty = (m.dirty || pass.moves e) := by
  by_cases hcall : e.edge.kind.is_call = true
  · cases hres : pass.resolution e.provenance.span with
    | none => simp [relabel_edge, hcall, hres, moves, relabeled_of_no_resolution fun _ => hres]
    | some r =>
      obtain ⟨symbol, mapped⟩ := r
      have hdirty : (if pass.is_local_package mapped.package then
            { m with stats := pass.count m.stats e symbol mapped }
          else pass.emit_dep_edge { m with stats := pass.count m.stats e symbol mapped } e mapped).dirty =
            m.dirty := by
        split
        · rfl
        · simp only [emit_dep_edge, external_node]
          split
          · rfl
          · split <;> rfl
      rw [moves, relabeled_of_resolution hcall hres]
      simp only [relabel_edge, hcall, hres, if_true]
      rw [hdirty]
      cases pass.redirect mapped (pass.target_conf e.edge.kind symbol mapped) with
      | none => simp [bind_target]
      | some target =>
        cases hgroup : e.edge.candidate_group with
        | none => simp [bind_target, eq_comm]
        | some gr => simp [bind_target]
  · simp [relabel_edge, hcall, moves, relabeled_of_no_resolution fun h => absurd h hcall]

theorem foldl_relabel_edge_dirty (edges : List EdgeWithProvenance) (m : Minted) :
    (edges.foldl pass.relabel_edge m).dirty = (m.dirty || edges.any pass.moves) := by
  induction edges generalizing m with
  | nil => simp
  | cons e rest ih => rw [List.foldl_cons, ih, relabel_edge_dirty, List.any_cons, Bool.or_assoc]

/-! ### Dependency edges -/

theorem provisional_nodes_mono {m m' : Minted} (h : m.new_nodes <+: m'.new_nodes) :
    provisional_nodes pass m <+: provisional_nodes pass m' := by
  obtain ⟨tail, htail⟩ := h
  rw [provisional_nodes, provisional_nodes, ← htail, List.mapIdx_append]
  exact List.prefix_append _ _

/-- The node of a dependency is a node of the walk that has its name. -/
theorem external_node_spec (m : Minted) (qname : String) :
    m.new_nodes <+: (pass.external_node m qname).2.new_nodes ∧
      ∃ n ∈ pass.nodes ++ provisional_nodes pass (pass.external_node m qname).2,
        n.node.id = (pass.external_node m qname).1 ∧ n.node.fqn = qname := by
  rw [external_node]
  split
  · rename_i existing hname
    obtain ⟨n, hn, hid, hfqn⟩ := node_by_fqn_eq_some hname
    exact ⟨List.prefix_refl _, n, List.mem_append_left _ hn, hid, hfqn⟩
  · split
    · rename_i idx hfind
      obtain ⟨hlt, hfqn, _⟩ := List.findIdx?_eq_some_iff_getElem.mp hfind
      refine ⟨List.prefix_refl _, ⟨⟨{ m.new_nodes[idx] with id := pass.provisional_id idx },
        ⟨⟨m.new_nodes[idx].file, 0, none⟩, "scip-external", .Scip, ""⟩⟩, ?_, rfl, by simpa using hfqn⟩⟩
      apply List.mem_append_right
      apply List.mem_of_getElem? (i := idx)
      rw [provisional_nodes, List.getElem?_mapIdx, List.getElem?_eq_getElem hlt]
      rfl
    · refine ⟨List.prefix_append _ _, ⟨⟨{ external_record qname with
          id := pass.provisional_id m.new_nodes.length },
        ⟨⟨(external_record qname).file, 0, none⟩, "scip-external", .Scip, ""⟩⟩, ?_, rfl, rfl⟩⟩
      apply List.mem_append_right
      apply List.mem_of_getElem? (i := m.new_nodes.length)
      simp [provisional_nodes]

/-- What has been collected behind the edges `walked`: for each foreign call one
dependency edge, to a node of the walk that has the name of the symbol. -/
structure Collected (pass : ScipRelabel) (walked : List EdgeWithProvenance) (m : Minted) : Prop where
  deps : ∀ d ∈ m.new_edges, ∃ e ∈ walked, ∃ mapped dst, pass.foreign e = some mapped ∧
    d = dep_edge e mapped dst ∧
    ∃ n ∈ pass.nodes ++ provisional_nodes pass m, n.node.id = dst ∧ n.node.fqn = mapped.qname
  count : ∀ src span, calls_at m.new_edges src span =
    walked.countP fun e => (pass.foreign e).isSome && at_call src span e

theorem Collected.step {walked : List EdgeWithProvenance} {m : Minted} (h : Collected pass walked m)
    (e : EdgeWithProvenance) : Collected pass (walked ++ [e]) (pass.relabel_edge m e) := by
  cases @relabel_edge_collects pass m e with
  | inl hnone =>
    obtain ⟨hforeign, hedges, hnodes⟩ := hnone
    have hprovisional : provisional_nodes pass (pass.relabel_edge m e) = provisional_nodes pass m := by
      rw [provisional_nodes, hnodes, provisional_nodes]
    refine ⟨?_, ?_⟩
    · intro d hd
      rw [hedges] at hd
      obtain ⟨e₀, he₀, hdep⟩ := h.deps d hd
      rw [hprovisional]
      exact ⟨e₀, List.mem_append_left _ he₀, hdep⟩
    · intro src span
      rw [hedges, h.count, List.countP_append, List.countP_singleton, hforeign]
      simp
  | inr hsome =>
    obtain ⟨mapped, hforeign, hedges, hnodes⟩ := hsome
    obtain ⟨hgrows, n, hn, hid, hfqn⟩ := @external_node_spec pass m mapped.qname
    have hprovisional : provisional_nodes pass (pass.relabel_edge m e) =
        provisional_nodes pass (pass.external_node m mapped.qname).2 := by
      rw [provisional_nodes, hnodes, provisional_nodes]
    refine ⟨?_, ?_⟩
    · intro d hd
      rw [hprovisional]
      rw [hedges, List.mem_append, List.mem_singleton] at hd
      cases hd with
      | inl hold =>
        obtain ⟨e₀, he₀, mapped₀, dst, hforeign₀, hdep, n₀, hn₀, hid₀⟩ := h.deps d hold
        refine ⟨e₀, List.mem_append_left _ he₀, mapped₀, dst, hforeign₀, hdep, n₀, ?_, hid₀⟩
        cases List.mem_append.mp hn₀ with
        | inl hnode => exact List.mem_append_left _ hnode
        | inr hminted => exact List.mem_append_right _ ((provisional_nodes_mono hgrows).subset hminted)
      | inr hnew =>
        exact ⟨e, by simp, mapped, _, hforeign, hnew, n, hn, hid, hfqn⟩
    · intro src span
      rw [hedges, calls_at, List.countP_append, List.countP_append, ← calls_at, h.count,
        List.countP_singleton, List.countP_singleton, hforeign]
      simp only [Option.isSome_some, Bool.true_and]
      rfl

theorem Collected.run {walked : List EdgeWithProvenance} {m : Minted} (h : Collected pass walked m)
    (edges : List EdgeWithProvenance) : Collected pass (walked ++ edges) (edges.foldl pass.relabel_edge m) := by
  induction edges generalizing walked m with
  | nil => simpa using h
  | cons e rest ih =>
    have hstep := ih (h.step e)
    rwa [List.append_assoc] at hstep

end ScipRelabel

variable {g : ResolvedGraph} {scip : ScipResolver} {opts : ScipRelabelOpts}

/-- What the walk over a graph collects. -/
theorem collected : ScipRelabel.Collected (pass_over g scip opts) g.edges (minted g scip opts) := by
  have hnew : ScipRelabel.Collected (pass_over g scip opts) [] .new := ⟨by simp [Minted.new], by simp [Minted.new, calls_at]⟩
  exact hnew.run g.edges

end cgx.scip
