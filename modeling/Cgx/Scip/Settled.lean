import Cgx.Resolve.Cha
import Cgx.Scip.Faithful

open cgx.core cgx.resolve sorting

namespace cgx.scip

/-! ### What becomes of an edge in the dispatch passes -/

/-- The origins of edges that all stay in place. -/
def own_origins (edges : List EdgeWithProvenance) : List (Option Nat) :=
  (List.range edges.length).map some

theorem own_became {edges : List EdgeWithProvenance} {e e' : EdgeWithProvenance}
    (h : Became (own_origins edges) edges edges e e') : e' = e := by
  obtain ⟨i, j, hi, hj, he'⟩ := h
  rw [own_origins, List.getElem?_map, Option.map_eq_some_iff] at hj
  obtain ⟨p, hp, heq⟩ := hj
  cases heq
  obtain ⟨_, hget⟩ := List.getElem?_eq_some_iff.mp hp
  rw [List.getElem_range] at hget
  subst hget
  rw [hi] at he'
  exact (Option.some.inj he').symm

theorem exists_own_became {edges : List EdgeWithProvenance} {e : EdgeWithProvenance} (h : e ∈ edges) :
    ∃ e', Became (own_origins edges) edges edges e e' := by
  obtain ⟨i, hi⟩ := List.mem_iff_getElem?.mp h
  refine ⟨e, i, i, hi, ?_, hi⟩
  have hlt := (List.getElem?_eq_some_iff.mp hi).1
  rw [own_origins, List.getElem?_map, List.getElem?_range hlt]
  rfl

/-- Whether a replacement of CHA takes the place of an edge. -/
def cha_replaces (g : ResolvedGraph) (e : EdgeWithProvenance) : Bool :=
  (cha_replacements g).any fun r => virtual_site NAME_METHOD_RULE e = some r.key

/-- The edges that CHA adds. -/
def cha_additions (g : ResolvedGraph) : List EdgeWithProvenance :=
  (cha_replacements g).flatMap fun r => r.dsts.map (build_cha_edge r)

def cha_origins (g : ResolvedGraph) : List (Option Nat) :=
  if cha_replacements g = [] then own_origins g.edges
  else
    canonical_after (sifted_origins (fun e => !cha_replaces g e) g.edges (cha_additions g).length)
      (replace_sites NAME_METHOD_RULE build_cha_edge (cha_replacements g) g)

theorem run_cha_edges (g : ResolvedGraph) : (run_cha g).1.edges =
    if cha_replacements g = [] then g.edges
    else (canonicalize (replace_sites NAME_METHOD_RULE build_cha_edge (cha_replacements g) g)).edges := by
  rw [run_cha]
  cases cha_replacements g with
  | nil => rfl
  | cons r rest => rfl

theorem replace_sites_edges (g : ResolvedGraph) :
    (replace_sites NAME_METHOD_RULE build_cha_edge (cha_replacements g) g).edges =
      (g.edges.filter fun e => !cha_replaces g e).map id ++ cha_additions g := by
  rw [List.map_id]
  rfl

/-- What an edge becomes in CHA. -/
def BecameByCha (g : ResolvedGraph) : EdgeWithProvenance → EdgeWithProvenance → Prop :=
  Became (cha_origins g) g.edges (run_cha g).1.edges

theorem exists_became_by_cha {g : ResolvedGraph} {e : EdgeWithProvenance} (he : e ∈ g.edges) :
    (∃ e', BecameByCha g e e') ↔ cha_replaces g e = false := by
  rw [BecameByCha, run_cha_edges, cha_origins]
  split
  · rename_i hnone
    simp only [cha_replaces, hnone, List.any_nil, iff_true]
    exact exists_own_became he
  · rw [became_sifted_iff (replace_sites_edges g) he, Bool.not_eq_true']

theorem became_by_cha_stem {g : ResolvedGraph} {e e' : EdgeWithProvenance} (h : BecameByCha g e e') :
    stem e' = stem e := by
  rw [BecameByCha, run_cha_edges, cha_origins] at h
  split at h
  · rw [own_became h]
  · obtain ⟨_, _, rfl⟩ := became_sifted_stem (replace_sites_edges g) h
    rfl

def rta_origins (g : ResolvedGraph) : List (Option Nat) :=
  if g.edges.any (is_dropped g) then
    canonical_after (sifted_origins (fun e => !is_dropped g e) g.edges 0) (prune_sites g)
  else own_origins g.edges

/-- What an edge becomes in RTA. -/
def BecameByRta (g : ResolvedGraph) : EdgeWithProvenance → EdgeWithProvenance → Prop :=
  Became (rta_origins g) g.edges (run_rta g).1.edges

/-- The groups that pruning leaves with one target. -/
def single_after_rta (g : ResolvedGraph) : UInt32 → Bool :=
  is_singleton_group ((g.edges.filter fun e => !is_dropped g e).map (upgrade g))

theorem prune_sites_edges (g : ResolvedGraph) : (prune_sites g).edges =
    (g.edges.filter fun e => !is_dropped g e).map (fun e => shed_group (single_after_rta g) (upgrade g e)) ++
      [] := by
  rw [List.append_nil, ← Function.comp_def, ← List.map_map]
  rfl

theorem exists_became_by_rta {g : ResolvedGraph} {e : EdgeWithProvenance} (he : e ∈ g.edges) :
    (∃ e', BecameByRta g e e') ↔ is_dropped g e = false := by
  rw [BecameByRta, run_rta, rta_origins]
  split
  · have hiff := became_sifted_iff (prune_sites_edges g) he
    rwa [Bool.not_eq_true'] at hiff
  · rename_i hnone
    have hkept : is_dropped g e = false := by
      simpa using List.any_eq_false.mp (by simpa using hnone) e he
    simp only [hkept, iff_true]
    exact exists_own_became he

/-- RTA upgrades only at pruned sites, and a pruned site loses an edge. -/
theorem upgrade_of_none_dropped {g : ResolvedGraph} (hnone : g.edges.any (is_dropped g) = false)
    (e : EdgeWithProvenance) : at_pruned_site g e = false := by
  by_contra hpruned
  rw [Bool.not_eq_false, at_pruned_site, Option.any_eq_true] at hpruned
  obtain ⟨key, hkey, houtcome⟩ := hpruned
  have hout : site_outcome g key = .pruned := by simpa using houtcome
  have hall : ¬ ((site_edges CHA_RULE g key).all
      (keeps_candidate g (instantiated_types g (reachable_callers g)))) = true := by
    intro hall
    rw [site_outcome] at hout
    simp only [hall, if_true] at hout
    split at hout <;> cases hout
  simp only [List.all_eq_true, not_forall] at hall
  obtain ⟨d, hd, hdrop⟩ := hall
  obtain ⟨hmem, hsite⟩ := mem_site_edges.mp hd
  have hdropped : is_dropped g d = true := by
    simp [is_dropped, at_pruned_site, hsite, hout, hdrop]
  rw [List.any_eq_false] at hnone
  exact hnone d hmem hdropped

theorem became_by_rta_stem {g : ResolvedGraph} {e e' : EdgeWithProvenance} (h : BecameByRta g e e') :
    stem e' = stem (upgrade g e) := by
  rw [BecameByRta, run_rta, rta_origins] at h
  split at h
  · obtain ⟨_, _, rfl⟩ := became_sifted_stem (prune_sites_edges g) h
    rfl
  · rename_i hnone
    rw [own_became h, upgrade, if_neg]
    rw [upgrade_of_none_dropped (by simpa using hnone)]
    exact Bool.false_ne_true

/-! ### Calls that SCIP settles -/

section

variable (g : ResolvedGraph) (scip : ScipResolver) (opts : ScipRelabelOpts)

/-- The relabeled graph and what CHA makes of it. -/
def before_cha : ResolvedGraph :=
  (relabel g scip opts).1

def before_rta : ResolvedGraph :=
  (run_cha (before_cha g scip opts)).1

/-- A call that the pass bound to the only definition of its symbol. -/
def Bound (e' : EdgeWithProvenance) : Prop :=
  ∃ e symbol mapped, Descends g scip opts e e' ∧ e.edge.kind.is_call ∧
    (pass_over g scip opts).resolution e.provenance.span = some (symbol, mapped) ∧
    (pass_over g scip opts).Settles mapped (band_of g scip opts e symbol mapped)

/-- An edge of the relabeled graph is still there after the dispatch passes. -/
def Stays (e' : EdgeWithProvenance) : Prop :=
  ∃ c d, BecameByCha (before_cha g scip opts) e' c ∧ BecameByRta (before_rta g scip opts) c d ∧
    d.edge.src = e'.edge.src ∧ d.edge.dst = e'.edge.dst ∧ d.edge.confidence = e'.edge.confidence

/-- The dispatch passes leave every bound call and add no edge to its site. -/
def StaysSettled : Prop :=
  ∀ e', Bound g scip opts e' →
    Stays g scip opts e' ∧ ∀ a ∈ cha_additions (before_cha g scip opts), site_key a ≠ site_key e'

/-- A call that the dispatch passes do not touch: CHA does not rescope its site, and RTA
does not prune it there. -/
structure Undisturbed (e' : EdgeWithProvenance) : Prop where
  not_rescoped : ∀ key, site_key e' = some key →
    rescope (Lattice.build (before_cha g scip opts)) (before_cha g scip opts) key = none
  not_pruned : at_pruned_site (before_rta g scip opts) e' →
    keeps_candidate (before_rta g scip opts)
        (instantiated_types (before_rta g scip opts) (reachable_callers (before_rta g scip opts))) e' ∧
      e'.edge.confidence = .Probable

end

/-- A replacement stands for a site that is rescoped. -/
theorem rescope_of_mem {g : ResolvedGraph} {r : Replacement} (h : r ∈ cha_replacements g) :
    ∃ r', rescope (Lattice.build g) g r.key = some r' := by
  obtain ⟨key, r', hr', hkey⟩ := (exists_cha_replacement (p := fun key _ _ => key = r.key)).mp ⟨r, h, rfl⟩
  rw [(rescope_eq_some hr').1] at hkey
  rw [hkey] at hr'
  exact ⟨r', hr'⟩

/-- The edges that CHA adds stand at the sites it rescopes. -/
theorem no_additions_iff {g : ResolvedGraph} {e : EdgeWithProvenance} :
    (∀ a ∈ cha_additions g, site_key a ≠ site_key e) ↔
      ∀ key, site_key e = some key → rescope (Lattice.build g) g key = none := by
  have hsite : ∀ r ∈ cha_replacements g, ∀ dst, site_key (build_cha_edge r dst) = some r.key := by
    intro r hr dst
    obtain ⟨_, _, hsrc, hid⟩ := virtual_site_eq_some.mp (build_cha_edge_site (at_site_of_mem hr) dst)
    rw [site_key, hid, Option.map_some, hsrc]
  constructor
  · intro hnone key hkey
    cases hscope : rescope (Lattice.build g) g key with
    | none => rfl
    | some r =>
      obtain ⟨_, _, _, _, _, hne⟩ := rescope_eq_some hscope
      obtain ⟨dst, hdst⟩ := List.exists_mem_of_ne_nil _ hne
      obtain ⟨r', hr', hr'key, hdst'⟩ :=
        (mem_cha_replacements_key hscope (p := fun _ dsts => dst ∈ dsts)).mpr hdst
      have hmem : build_cha_edge r' dst ∈ cha_additions g :=
        List.mem_flatMap.mpr ⟨r', hr', List.mem_map_of_mem hdst'⟩
      refine absurd ?_ (hnone _ hmem)
      rw [hsite r' hr' dst, hr'key, hkey]
  · intro hscope a ha heq
    obtain ⟨r, hr, hdst⟩ := List.mem_flatMap.mp ha
    obtain ⟨dst, _, rfl⟩ := List.mem_map.mp hdst
    rw [hsite r hr dst] at heq
    obtain ⟨r', hr'⟩ := rescope_of_mem hr
    rw [hscope r.key heq.symm] at hr'
    cases hr'

/-- At a site that CHA does not rescope, it replaces nothing. -/
theorem not_replaced_of_not_rescoped {g : ResolvedGraph} {e : EdgeWithProvenance}
    (h : ∀ key, site_key e = some key → rescope (Lattice.build g) g key = none) :
    cha_replaces g e = false := by
  rw [cha_replaces, List.any_eq_false]
  intro r hr hsite
  obtain ⟨_, _, hsrc, hid⟩ := virtual_site_eq_some.mp (of_decide_eq_true hsite)
  have hkey : site_key e = some r.key := by rw [site_key, hid, Option.map_some, hsrc]
  obtain ⟨r', hr'⟩ := rescope_of_mem hr
  rw [h r.key hkey] at hr'
  cases hr'

variable {g : ResolvedGraph} {scip : ScipResolver} {opts : ScipRelabelOpts}

theorem Bound.mem {e' : EdgeWithProvenance} (h : Bound g scip opts e') :
    e' ∈ (before_cha g scip opts).edges := by
  obtain ⟨_, _, _, ⟨_, _, _, _, he'⟩, _⟩ := h
  exact List.mem_of_getElem? he'

/-- Once CHA has left the site alone, RTA decides. -/
theorem stays_iff {e' : EdgeWithProvenance} (he' : e' ∈ (before_cha g scip opts).edges)
    (hcha : cha_replaces (before_cha g scip opts) e' = false) :
    Stays g scip opts e' ↔ (at_pruned_site (before_rta g scip opts) e' →
      keeps_candidate (before_rta g scip opts)
          (instantiated_types (before_rta g scip opts) (reachable_callers (before_rta g scip opts))) e' ∧
        e'.edge.confidence = .Probable) := by
  have hfields : ∀ {c d}, BecameByCha (before_cha g scip opts) e' c →
      BecameByRta (before_rta g scip opts) c d →
        stem d = stem (upgrade (before_rta g scip opts) e') := by
    intro c d hbycha hbyrta
    have hstem := became_by_cha_stem hbycha
    have hupgrade : ∀ e, stem (upgrade (before_rta g scip opts) e) =
        stem (upgrade (before_rta g scip opts) (stem e)) := by
      intro e
      have hpruned : at_pruned_site (before_rta g scip opts) (stem e) =
          at_pruned_site (before_rta g scip opts) e := rfl
      rw [upgrade, upgrade, hpruned]
      split <;> rfl
    rw [became_by_rta_stem hbyrta, hupgrade, hstem, ← hupgrade]
  constructor
  · rintro ⟨c, d, hbycha, hbyrta, _, _, hconf⟩ hpruned
    have hstem := became_by_cha_stem hbycha
    have hkept : is_dropped (before_rta g scip opts) e' = false := by
      have hdropped : is_dropped (before_rta g scip opts) (stem c) = false :=
        (exists_became_by_rta (List.mem_of_getElem? hbycha.choose_spec.choose_spec.2.2)).mp ⟨d, hbyrta⟩
      rw [hstem] at hdropped
      exact hdropped
    constructor
    · simpa [is_dropped, hpruned] using hkept
    · have hafter := congrArg (fun e => e.edge.confidence) (hfields hbycha hbyrta)
      change d.edge.confidence = (upgrade (before_rta g scip opts) e').edge.confidence at hafter
      rw [← hconf, hafter, upgrade, if_pos hpruned]
  · intro hrta
    obtain ⟨c, hbycha⟩ := (exists_became_by_cha he').mpr hcha
    have hstem := became_by_cha_stem hbycha
    have hkept : is_dropped (before_rta g scip opts) (stem c) = false := by
      rw [hstem]
      change is_dropped (before_rta g scip opts) e' = false
      rw [is_dropped]
      cases hpruned : at_pruned_site (before_rta g scip opts) e' with
      | false => rfl
      | true => simp [(hrta hpruned).1]
    obtain ⟨d, hbyrta⟩ :=
      (exists_became_by_rta (List.mem_of_getElem? hbycha.choose_spec.choose_spec.2.2)).mpr hkept
    have hafter := hfields hbycha hbyrta
    refine ⟨c, d, hbycha, hbyrta, ?_, ?_, ?_⟩
    · have hsrc := congrArg (fun e => e.edge.src) hafter
      refine hsrc.trans ?_
      change (upgrade (before_rta g scip opts) e').edge.src = _
      rw [upgrade]
      split <;> rfl
    · have hdst := congrArg (fun e => e.edge.dst) hafter
      refine hdst.trans ?_
      change (upgrade (before_rta g scip opts) e').edge.dst = _
      rw [upgrade]
      split <;> rfl
    · have hconf := congrArg (fun e => e.edge.confidence) hafter
      refine hconf.trans ?_
      change (upgrade (before_rta g scip opts) e').edge.confidence = _
      rw [upgrade]
      split
      · rename_i hpruned
        exact (hrta hpruned).2.symm
      · rfl

namespace sample

/-- `p::run` calls `p::T::m` over a trait that `p::S` implements. -/
def trait_graph : ResolvedGraph where
  nodes :=
    [{ function_node 0 "p::S" with kind := .Type }, function_node 1 "p::S::m",
      { function_node 2 "p::T" with kind := .Type }, { function_node 3 "p::T::m" with is_abstract := true },
      function_node 4 "p::run"].map fun n => ⟨n, ⟨⟨n.file, n.line_start, none⟩, "", .NameSyntactic, ""⟩⟩
  edges :=
    [⟨certain_edge 0 .Implements 0 2, ⟨⟨"a.rs", 1, none⟩, "impl-relation", .ScopeGraph, ""⟩⟩,
      ⟨{ certain_edge 1 .CallsVirtual 4 3 with
          confidence := .Probable, rule := NAME_METHOD_RULE, site_id := some ⟨7⟩ },
        ⟨⟨"a.rs", 5, some 9⟩, NAME_METHOD_RULE, .ScopeGraph, ""⟩⟩]
  candidates := []
  unresolved := []

/-- An index that defines `p::T::m` once and resolves the call to it. -/
def trait_index : ScipResolver where
  index :=
    { metadata := ⟨"", ""⟩
      documents := [⟨"a.rs",
        [⟨"r c p 1 T#m().", 1, ⟨3, 0, 3, 1⟩⟩, ⟨"r c p 1 T#m().", 0, ⟨4, 8, 4, 9⟩⟩], []⟩]
      external_symbols := [] }

def trait_call : EdgeWithProvenance := trait_graph.edges.getLastD default

end sample

end cgx.scip
