import Cgx.Core.Edge
import Cgx.Scip.Commit

open cgx.core cgx.resolve sorting

namespace cgx.scip

/-! ### The parts of a relabel -/

@[simp] theorem raise_src (conf : Confidence) (e : EdgeWithProvenance) :
    (ScipRelabel.raise conf e).edge.src = e.edge.src := by
  rw [ScipRelabel.raise]
  split <;> rfl

@[simp] theorem raise_dst (conf : Confidence) (e : EdgeWithProvenance) :
    (ScipRelabel.raise conf e).edge.dst = e.edge.dst := by
  rw [ScipRelabel.raise]
  split <;> rfl

@[simp] theorem raise_kind (conf : Confidence) (e : EdgeWithProvenance) :
    (ScipRelabel.raise conf e).edge.kind = e.edge.kind := by
  rw [ScipRelabel.raise]
  split <;> rfl

@[simp] theorem raise_group (conf : Confidence) (e : EdgeWithProvenance) :
    (ScipRelabel.raise conf e).edge.candidate_group = e.edge.candidate_group := by
  rw [ScipRelabel.raise]
  split <;> rfl

@[simp] theorem bind_target_src (target : Option NodeId) (e : EdgeWithProvenance) :
    (ScipRelabel.bind_target target e).edge.src = e.edge.src := by
  cases target <;> rfl

@[simp] theorem bind_target_kind (target : Option NodeId) (e : EdgeWithProvenance) :
    (ScipRelabel.bind_target target e).edge.kind = e.edge.kind := by
  cases target <;> rfl

@[simp] theorem bind_target_confidence (target : Option NodeId) (e : EdgeWithProvenance) :
    (ScipRelabel.bind_target target e).edge.confidence = e.edge.confidence := by
  cases target <;> rfl

/-- A raise yields the band where it is above the edge's own confidence. -/
theorem raise_confidence (conf : Confidence) (e : EdgeWithProvenance) :
    (ScipRelabel.raise conf e).edge.confidence = if e.edge.confidence < conf then conf else e.edge.confidence := by
  rw [ScipRelabel.raise]
  split <;> rfl

namespace ScipRelabel

variable {pass : ScipRelabel}

/-- What a call becomes at a site that the index resolves. -/
theorem relabeled_of_resolution {e : EdgeWithProvenance} (hcall : e.edge.kind.is_call) {symbol : String}
    {mapped : MappedSymbol} (h : pass.resolution e.provenance.span = some (symbol, mapped)) :
    pass.relabeled e = bind_target (pass.redirect mapped (pass.target_conf e.edge.kind symbol mapped))
      (raise (pass.target_conf e.edge.kind symbol mapped) e) := by
  rw [relabeled, if_pos hcall, h]

/-- Away from the sites that the index resolves nothing changes. -/
theorem relabeled_of_no_resolution {e : EdgeWithProvenance}
    (h : e.edge.kind.is_call → pass.resolution e.provenance.span = none) : pass.relabeled e = e := by
  rw [relabeled]
  split
  · rename_i hcall
    rw [h hcall]
  · rfl

/-- A raised edge stands at a resolved site and gets its band. -/
theorem raised_resolution {e : EdgeWithProvenance}
    (h : e.edge.confidence < (pass.relabeled e).edge.confidence) :
    e.edge.kind.is_call ∧ ∃ symbol mapped, pass.resolution e.provenance.span = some (symbol, mapped) ∧
      (pass.relabeled e).edge.confidence = pass.target_conf e.edge.kind symbol mapped := by
  have hirrefl : ¬ e.edge.confidence < e.edge.confidence := Nat.lt_irrefl _
  by_cases hcall : e.edge.kind.is_call = true
  · cases hres : pass.resolution e.provenance.span with
    | none =>
      rw [relabeled_of_no_resolution fun _ => hres] at h
      exact absurd h hirrefl
    | some r =>
      obtain ⟨symbol, mapped⟩ := r
      refine ⟨hcall, symbol, mapped, rfl, ?_⟩
      rw [relabeled_of_resolution hcall hres, bind_target_confidence, raise_confidence] at h ⊢
      split
      · rfl
      · rename_i hle
        rw [if_neg hle] at h
        exact absurd h hirrefl
  · rw [relabeled_of_no_resolution fun hcall' => absurd hcall' hcall] at h
    exact absurd h hirrefl

/-- A certain band needs a unique definition that nothing overrides, in an index that is
not fail-closed. -/
theorem certain_target_conf {kind : EdgeKind} {symbol : String} {mapped : MappedSymbol}
    (h : pass.target_conf kind symbol mapped = .Certain) :
    pass.resolver.classify symbol = .FreeOrInherent ∧ pass.resolver.def_count mapped = 1 ∧
      kind ≠ .CallsVirtual ∧ pass.fail_closed = false := by
  rw [target_conf] at h
  split at h
  · cases h
  · rename_i hcap
    rw [not_and] at hcap
    have hclosed : pass.fail_closed = false := by
      by_contra hne
      exact hcap (by simpa using hne) h
    rw [band] at h
    by_cases hvirtual : kind = .CallsVirtual
    · rw [if_pos hvirtual] at h
      exact absurd h (Confidence.weakest_Probable_ne _)
    · rw [if_neg hvirtual] at h
      cases hclass : pass.resolver.classify symbol with
      | FreeOrInherent =>
        rw [hclass] at h
        dsimp only at h
        split at h
        · rename_i hunique
          exact ⟨rfl, hunique, hvirtual, hclosed⟩
        · cases h
      | TraitMember =>
        rw [hclass] at h
        cases h
      | VirtualMember =>
        rw [hclass] at h
        cases h

/-! ### The node of a definition -/

theorem node_by_fqn_eq_some {fqn : String} {id : NodeId} (h : pass.node_by_fqn fqn = some id) :
    ∃ n ∈ pass.nodes, n.node.id = id ∧ n.node.fqn = fqn := by
  obtain ⟨n, hfind, hid⟩ := Option.map_eq_some_iff.mp h
  refine ⟨n, List.mem_reverse.mp (List.mem_of_find?_eq_some hfind), hid, ?_⟩
  simpa using List.find?_some hfind

theorem node_by_fqn_eq_none {fqn : String} (h : pass.node_by_fqn fqn = none) :
    ∀ n ∈ pass.nodes, n.node.fqn ≠ fqn := by
  intro n hn
  have hfind := List.find?_eq_none.mp (Option.map_eq_none_iff.mp h) n (List.mem_reverse.mpr hn)
  simpa using hfind

/-- A function or method that starts on a line of a file. -/
def StartsAt (n : NodeRecord) (file : String) (line : UInt32) : Prop :=
  is_method_kind n.kind ∧ n.file = file ∧ n.line_start = line

theorem node_by_loc_eq_some {file : String} {line : UInt32} {id : NodeId}
    (h : pass.node_by_loc file line = some id) :
    ∃ n ∈ pass.nodes, n.node.id = id ∧ StartsAt n.node file line := by
  obtain ⟨n, hfind, hid⟩ := Option.map_eq_some_iff.mp h
  refine ⟨n, List.mem_reverse.mp (List.mem_of_find?_eq_some hfind), hid, ?_⟩
  simpa [StartsAt] using List.find?_some hfind

theorem node_by_loc_eq_none {file : String} {line : UInt32} (h : pass.node_by_loc file line = none) :
    ∀ n ∈ pass.nodes, ¬ StartsAt n.node file line := by
  intro n hn
  have hfind := List.find?_eq_none.mp (Option.map_eq_none_iff.mp h) n (List.mem_reverse.mpr hn)
  simpa [StartsAt] using hfind

/-- A node stands at the only definition site of an overload. -/
def AtDefinition (pass : ScipRelabel) (mapped : MappedSymbol) (n : NodeRecord) : Prop :=
  ∃ loc, pass.resolver.unique_def_loc mapped = some loc ∧
    StartsAt n loc.relative_path (one_based loc.range.start_line)

/-- The node of a resolved symbol: the one of its qualified name. Where a name is shared by
overloads, it is the function or method at the definition of the overload, and the one of
the name only if none starts there. -/
def StandsFor (pass : ScipRelabel) (mapped : MappedSymbol) (n : NodeRecord) : Prop :=
  match pass.resolver.scheme with
  | .RustAnalyzer => n.fqn = mapped.qname
  | .ScipClang =>
    pass.AtDefinition mapped n ∨
      n.fqn = mapped.qname ∧ ∀ other ∈ pass.nodes, ¬ pass.AtDefinition mapped other.node

/-- SCIP settles a call: the symbol is in the tree, its only definition is known, and the
index may be trusted about that. -/
structure Settles (pass : ScipRelabel) (mapped : MappedSymbol) (conf : Confidence) : Prop where
  in_tree : pass.is_local_package mapped.package
  unique : pass.resolver.def_count mapped = 1
  trusted : pass.fail_closed = false
  certain : pass.resolver.scheme = .ScipClang → conf = .Certain
  known : ∃ n ∈ pass.nodes, pass.StandsFor mapped n.node

theorem resolve_overload_node_stands {mapped : MappedSymbol}
    (hscheme : pass.resolver.scheme = .ScipClang) {id : NodeId}
    (h : pass.resolve_overload_node mapped = some id) :
    ∃ n ∈ pass.nodes, n.node.id = id ∧ pass.StandsFor mapped n.node := by
  rw [resolve_overload_node, Option.or_eq_some_iff] at h
  cases h with
  | inl hloc =>
    obtain ⟨loc, hunique, hnode⟩ := Option.bind_eq_some_iff.mp hloc
    obtain ⟨n, hn, hid, hstarts⟩ := node_by_loc_eq_some hnode
    refine ⟨n, hn, hid, ?_⟩
    rw [StandsFor, hscheme]
    exact .inl ⟨loc, hunique, hstarts⟩
  | inr hname =>
    obtain ⟨hnone, hfqn⟩ := hname
    obtain ⟨n, hn, hid, heq⟩ := node_by_fqn_eq_some hfqn
    refine ⟨n, hn, hid, ?_⟩
    rw [StandsFor, hscheme]
    refine .inr ⟨heq, ?_⟩
    rintro other hother ⟨loc, hunique, hstarts⟩
    rw [hunique, Option.bind_some] at hnone
    exact node_by_loc_eq_none hnone other hother hstarts

theorem exists_resolve_overload_node {mapped : MappedSymbol}
    (hscheme : pass.resolver.scheme = .ScipClang)
    (h : ∃ n ∈ pass.nodes, pass.StandsFor mapped n.node) :
    ∃ id, pass.resolve_overload_node mapped = some id := by
  obtain ⟨n, hn, hstands⟩ := h
  rw [StandsFor, hscheme] at hstands
  cases hresolve : pass.resolve_overload_node mapped with
  | some id => exact ⟨id, rfl⟩
  | none =>
    rw [resolve_overload_node, Option.or_eq_none_iff] at hresolve
    obtain ⟨hloc, hname⟩ := hresolve
    cases hstands with
    | inl hat =>
      obtain ⟨loc, hunique, hstarts⟩ := hat
      rw [hunique, Option.bind_some] at hloc
      exact absurd hstarts (node_by_loc_eq_none hloc n hn)
    | inr hfqn => exact absurd hfqn.1 (node_by_fqn_eq_none hname n hn)

/-- A settled call is redirected to the node of its symbol. -/
theorem redirect_of_settles {mapped : MappedSymbol} {conf : Confidence} (h : pass.Settles mapped conf) :
    ∃ n ∈ pass.nodes, pass.redirect mapped conf = some n.node.id ∧ pass.StandsFor mapped n.node := by
  have hguard : pass.resolver.def_count mapped = 1 ∧ (!pass.fail_closed) = true ∧
      pass.is_local_package mapped.package = true := ⟨h.unique, by simp [h.trusted], h.in_tree⟩
  rw [redirect, if_pos hguard]
  cases hscheme : pass.resolver.scheme with
  | ScipClang =>
    rw [if_pos (h.certain hscheme)]
    obtain ⟨id, hid⟩ := exists_resolve_overload_node hscheme h.known
    obtain ⟨n, hn, hnid, hstands⟩ := resolve_overload_node_stands hscheme hid
    exact ⟨n, hn, by rw [hid, hnid], hstands⟩
  | RustAnalyzer =>
    obtain ⟨n, hn, hstands⟩ := h.known
    rw [StandsFor, hscheme] at hstands
    cases hname : pass.node_by_fqn mapped.qname with
    | none => exact absurd hstands (node_by_fqn_eq_none hname n hn)
    | some id =>
      obtain ⟨m, hm, hid, hfqn⟩ := node_by_fqn_eq_some hname
      refine ⟨m, hm, by rw [hid], ?_⟩
      rw [StandsFor, hscheme]
      exact hfqn

end ScipRelabel

/-! ### Raised edges -/

/-- A node is a definition of a resolved symbol: it has its name and, where the name is
shared by overloads, starts at a definition of the overload. -/
def Defines (scip : ScipResolver) (mapped : MappedSymbol) (n : NodeRecord) : Prop :=
  n.fqn = mapped.qname ∧ (scip.scheme = .ScipClang →
    ∃ loc ∈ scip.def_by_overload mapped,
      n.file = loc.relative_path ∧ n.line_start = one_based loc.range.start_line)

/-- Every call that the pass raises is bound to a definition of the symbol at its site. -/
def RaisedConfirmed (g : ResolvedGraph) (scip : ScipResolver) (opts : ScipRelabelOpts) : Prop :=
  ∀ e e', Descends g scip opts e e' → e.edge.kind.is_call → e.edge.confidence < e'.edge.confidence →
    ∃ symbol mapped, (pass_over g scip opts).resolution e.provenance.span = some (symbol, mapped) ∧
      ∃ n ∈ (relabel g scip opts).1.nodes, n.node.id = e'.edge.dst ∧ Defines scip mapped n.node

variable {g : ResolvedGraph} {scip : ScipResolver} {opts : ScipRelabelOpts}

theorem Descends.confidence {e e' : EdgeWithProvenance} (h : Descends g scip opts e e') :
    e'.edge.confidence = ((pass_over g scip opts).relabeled e).edge.confidence :=
  congrArg (fun e => e.edge.confidence) h.spec.1

theorem Descends.dst {e e' : EdgeWithProvenance} (h : Descends g scip opts e e') :
    e'.edge.dst = placed_id g scip opts ((pass_over g scip opts).relabeled e).edge.dst :=
  congrArg (fun e => e.edge.dst) h.spec.1

theorem Fits.walked_mem {n : NodeWithProvenance} (hn : n ∈ g.nodes) : n ∈ walked_nodes g scip opts :=
  List.mem_append_left _ hn

/-- A call is raised to the band of the symbol at its site, and to the highest band only
for a unique definition that nothing overrides. If the call is settled, it is bound to the
node of the symbol and leaves its candidate group. -/
theorem raised_edge_confirmed (hfits : Fits g) {e e' : EdgeWithProvenance}
    (hbecame : Descends g scip opts e e') (hraised : e.edge.confidence < e'.edge.confidence) :
    e.edge.kind.is_call ∧
      ∃ symbol mapped, (pass_over g scip opts).resolution e.provenance.span = some (symbol, mapped) ∧
        e'.edge.confidence = (pass_over g scip opts).target_conf e.edge.kind symbol mapped ∧
        (e'.edge.confidence = .Certain →
          scip.classify symbol = .FreeOrInherent ∧ scip.def_count mapped = 1 ∧
            e.edge.kind ≠ .CallsVirtual ∧ opts.compdb ≠ .Partial) ∧
        ((pass_over g scip opts).Settles mapped e'.edge.confidence →
          e'.edge.candidate_group = none ∧
            ∃ n ∈ (relabel g scip opts).1.nodes, n.node.id = e'.edge.dst ∧
              (pass_over g scip opts).StandsFor mapped n.node) := by
  have hconf := hbecame.confidence
  rw [hconf] at hraised
  obtain ⟨hcall, symbol, mapped, hres, hband⟩ := ScipRelabel.raised_resolution hraised
  rw [hband] at hconf
  refine ⟨hcall, symbol, mapped, hres, hconf, ?_, ?_⟩
  · intro hcertain
    rw [hconf] at hcertain
    obtain ⟨hclass, hunique, hkind, hclosed⟩ := ScipRelabel.certain_target_conf hcertain
    refine ⟨hclass, hunique, hkind, ?_⟩
    intro hpartial
    simp [ScipRelabel.fail_closed, pass_over, CompdbCompleteness.is_fail_closed, hpartial] at hclosed
  · intro hsettles
    rw [hconf] at hsettles
    obtain ⟨n, hn, hredirect, hstands⟩ := ScipRelabel.redirect_of_settles hsettles
    have hrelabeled := ScipRelabel.relabeled_of_resolution hcall hres
    rw [hredirect] at hrelabeled
    refine ⟨?_, with_id (placed_id g scip opts n.node.id) n, hfits.node_placed (Fits.walked_mem hn), ?_, hstands⟩
    · rw [hbecame.spec.2, hrelabeled]
      change placed_group g scip opts none = none
      rw [placed_group]
      split <;> rfl
    · rw [hbecame.dst, hrelabeled]
      rfl

/-! ### Two calls resolved by an index -/

namespace sample

/-- A name-matched call from `p::run` to `p::g`. -/
def call_graph : ResolvedGraph where
  nodes := [function_node 0 "p::f", function_node 1 "p::g", function_node 2 "p::run"].map
    fun n => ⟨n, ⟨⟨n.file, n.line_start, none⟩, "", .NameSyntactic, ""⟩⟩
  edges :=
    [⟨{ certain_edge 0 .Calls 2 1 with confidence := .Possible, tier := .NameSyntactic, rule := "name-arity" },
      ⟨⟨"a.rs", 3, some 5⟩, "name-arity", .NameSyntactic, ""⟩⟩]
  candidates := []
  unresolved := []

/-- An index that defines `p::f` and resolves the call to `symbol`. -/
def index_of (symbol : String) : ScipResolver where
  index :=
    { metadata := ⟨"", ""⟩
      documents := [⟨"a.rs",
        [⟨"r c p 1 f().", 1, ⟨0, 0, 0, 1⟩⟩, ⟨symbol, 0, ⟨2, 4, 2, 5⟩⟩], []⟩]
      external_symbols := [] }

def inferred : ScipRelabelOpts := ⟨[], .NotApplicable⟩

/-- The call of the graph and what it becomes. -/
def call : EdgeWithProvenance := call_graph.edges.headD default

def became (symbol : String) : EdgeWithProvenance :=
  ((relabel call_graph (index_of symbol) inferred).1.edges.reverse.headD default)

theorem fits : Fits call_graph where
  dense := by
    refine ⟨?_, by decide⟩
    intro i n hi
    match i, hi with
    | 0, hi => cases hi; rfl
    | 1, hi => cases hi; rfl
    | 2, hi => cases hi; rfl
  room := by decide

theorem bound_descends : Descends call_graph (index_of "r c p 1 f().") inferred call (became "r c p 1 f().") :=
  ⟨0, 0, rfl, by decide +kernel, by decide +kernel⟩

theorem foreign_descends : Descends call_graph (index_of "r c q 1 f().") inferred call (became "r c q 1 f().") :=
  ⟨0, 1, rfl, by decide +kernel, by decide +kernel⟩

end sample

theorem raised_edge_confirmed_at_call :
    sample.call.edge.kind.is_call ∧
      ∃ symbol mapped, (pass_over sample.call_graph (sample.index_of "r c p 1 f().") sample.inferred).resolution
          sample.call.provenance.span = some (symbol, mapped) ∧
        (sample.became "r c p 1 f().").edge.confidence =
          (pass_over sample.call_graph (sample.index_of "r c p 1 f().") sample.inferred).target_conf
            sample.call.edge.kind symbol mapped ∧
        ((sample.became "r c p 1 f().").edge.confidence = .Certain →
          (sample.index_of "r c p 1 f().").classify symbol = .FreeOrInherent ∧
            (sample.index_of "r c p 1 f().").def_count mapped = 1 ∧
            sample.call.edge.kind ≠ .CallsVirtual ∧ sample.inferred.compdb ≠ .Partial) ∧
        ((pass_over sample.call_graph (sample.index_of "r c p 1 f().") sample.inferred).Settles mapped
            (sample.became "r c p 1 f().").edge.confidence →
          (sample.became "r c p 1 f().").edge.candidate_group = none ∧
            ∃ n ∈ (relabel sample.call_graph (sample.index_of "r c p 1 f().") sample.inferred).1.nodes,
              n.node.id = (sample.became "r c p 1 f().").edge.dst ∧
              (pass_over sample.call_graph (sample.index_of "r c p 1 f().") sample.inferred).StandsFor
                mapped n.node) :=
  raised_edge_confirmed sample.fits sample.bound_descends (by decide +kernel)

/-- A call whose occurrence names a function of another package is raised although its
target is a function of the tree. -/
theorem foreign_symbol_raises_local_call :
    ¬ RaisedConfirmed sample.call_graph (sample.index_of "r c q 1 f().") sample.inferred := by
  intro h
  obtain ⟨symbol, mapped, hres, n, hn, hid, hdefines, _⟩ :=
    h _ _ sample.foreign_descends (by decide) (by decide +kernel)
  have hsymbol : (pass_over sample.call_graph (sample.index_of "r c q 1 f().") sample.inferred).resolution
      sample.call.provenance.span = some ("r c q 1 f().", ⟨"q::f", "q::f", "q", "1"⟩) := by decide +kernel
  rw [hsymbol] at hres
  cases hres
  have hnames : ∀ n ∈ (relabel sample.call_graph (sample.index_of "r c q 1 f().") sample.inferred).1.nodes,
      n.node.id = (sample.became "r c q 1 f().").edge.dst → n.node.fqn ≠ "q::f" := by decide +kernel
  exact hnames n hn hid hdefines

end cgx.scip
