import Cgx.Resolve.ChaSound
import Cgx.Resolve.Cha

open cgx.core sorting Relation

namespace cgx.resolve

variable {g : ResolvedGraph}

/-! ### Live code -/

/-- One call edge. -/
def CallEdge (g : ResolvedGraph) (a b : NodeId) : Prop :=
  ∃ e ∈ g.edges, e.edge.kind.is_call = true ∧ e.edge.src = a ∧ e.edge.dst = b

/-- Some root calls the node, directly or through others. -/
def Live (g : ResolvedGraph) (id : NodeId) : Prop :=
  ∃ root ∈ rta_roots g, ReflTransGen (CallEdge g) root id

/-- Live code constructs the type. -/
def Instantiated (g : ResolvedGraph) (ty : String) : Prop :=
  ∃ e ∈ g.edges, e.edge.kind = .Instantiates ∧ Live g e.edge.src ∧ fqn_by_id g e.edge.dst = some ty

theorem mem_callees {a b : NodeId} : b ∈ callees g a ↔ CallEdge g a b := by
  simp only [callees, CallEdge, List.mem_map, List.mem_filter, Bool.and_eq_true, decide_eq_true_eq]
  constructor
  · rintro ⟨e, ⟨he, hcall, hsrc⟩, hdst⟩
    exact ⟨e, he, hcall, hsrc, hdst⟩
  · rintro ⟨e, he, hcall, hsrc, hdst⟩
    exact ⟨e, ⟨he, hcall, hsrc⟩, hdst⟩

theorem mem_reachable_callers {id : NodeId} : id ∈ reachable_callers g ↔ Live g id := by
  have hnext : closure.Next (callees g) = CallEdge g := by
    funext a b
    exact propext mem_callees
  have hdst : ∀ a b, CallEdge g a b → b ∈ rta_roots g ++ g.edges.map fun e => e.edge.dst := by
    rintro a b ⟨e, he, _, _, heq⟩
    exact List.mem_append_right _ (List.mem_map.mpr ⟨e, he, heq⟩)
  rw [reachable_callers, closure.mem_closure_of (fun x hx => List.mem_append_left _ hx)
    (fun x _ y hy => hdst x y (mem_callees.mp hy)), hnext]
  rfl

theorem mem_instantiated_types {ty : String} :
    ty ∈ instantiated_types g (reachable_callers g) ↔ Instantiated g ty := by
  simp only [instantiated_types, Instantiated, List.mem_filterMap, List.mem_filter, Bool.and_eq_true,
    decide_eq_true_eq, List.contains_iff_mem, mem_reachable_callers, and_assoc]

/-! ### What is pruned -/

/-- The candidate's parent name, if it has one, is a type that live code constructs. -/
def LiveParent (g : ResolvedGraph) (id : NodeId) : Prop :=
  ∀ fqn parent method, fqn_by_id g id = some fqn → split_fqn fqn = some (parent, method) →
    Instantiated g parent

/-- An edge from live code hides a construction: a construction with any marker, or a marker
behind which one may stand. -/
def Cut (g : ResolvedGraph) : Prop :=
  ∃ e ∈ g.edges, Live g e.edge.src ∧
    (e.edge.kind = .Instantiates ∧ e.edge.cut_markers ≠ [] ∨
      ∃ marker ∈ e.edge.cut_markers, hides_construction marker = true)

/-- A site without a cut that has both kinds of candidates. -/
def Prunable (g : ResolvedGraph) (key : SiteKey) : Prop :=
  (∀ e ∈ site_edges CHA_RULE g key, e.edge.cut_markers = []) ∧ ¬ Cut g ∧
    (∃ id ∈ targets CHA_RULE g key, LiveParent g id) ∧ ∃ id ∈ targets CHA_RULE g key, ¬ LiveParent g id

theorem keeps_candidate_iff {e : EdgeWithProvenance} :
    keeps_candidate g (instantiated_types g (reachable_callers g)) e = true ↔ LiveParent g e.edge.dst := by
  rw [keeps_candidate, LiveParent]
  cases hfqn : fqn_by_id g e.edge.dst with
  | none => simp
  | some fqn =>
    rw [Option.bind_some, declaring_type]
    cases hsplit : split_fqn fqn with
    | none =>
      simp only [Option.map_none, true_iff]
      intro fqn' parent method heq hparts
      cases heq
      rw [hsplit] at hparts
      cases hparts
    | some parts =>
      simp only [Option.map_some, List.contains_iff_mem, mem_instantiated_types, Option.some.injEq]
      constructor
      · intro h fqn' parent method heq hparts
        subst heq
        rw [hsplit] at hparts
        cases hparts
        exact h
      · intro h
        exact h fqn parts.1 parts.2 rfl hsplit

theorem construction_under_cut_iff :
    construction_under_cut g (reachable_callers g) = true ↔ Cut g := by
  simp only [construction_under_cut, Cut, Bool.or_eq_true, List.any_eq_true, Bool.and_eq_true,
    decide_eq_true_eq, List.contains_iff_mem, mem_reachable_callers, Bool.not_eq_true',
    List.isEmpty_eq_false_iff]
  constructor
  · intro h
    cases h with
    | inl hcons =>
      obtain ⟨e, he, ⟨hkind, hlive⟩, hcut⟩ := hcons
      exact ⟨e, he, hlive, .inl ⟨hkind, hcut⟩⟩
    | inr hcall =>
      obtain ⟨e, he, hlive, hmarker⟩ := hcall
      exact ⟨e, he, hlive, .inr hmarker⟩
  · rintro ⟨e, he, hlive, h⟩
    cases h with
    | inl hcons => exact .inl ⟨e, he, ⟨hcons.1, hlive⟩, hcons.2⟩
    | inr hmarker => exact .inr ⟨e, he, hlive, hmarker⟩

theorem site_outcome_pruned {key : SiteKey} : site_outcome g key = .pruned ↔ Prunable g key := by
  have htargets : ∀ p : NodeId → Prop, (∃ id ∈ targets CHA_RULE g key, p id) ↔
      ∃ e ∈ site_edges CHA_RULE g key, p e.edge.dst := by
    intro p
    simp only [targets, List.mem_map]
    constructor
    · rintro ⟨id, ⟨e, he, heq⟩, hp⟩
      exact ⟨e, he, heq ▸ hp⟩
    · rintro ⟨e, he, hp⟩
      exact ⟨_, ⟨e, he, rfl⟩, hp⟩
  rw [Prunable, htargets, htargets, site_outcome]
  by_cases hcut : (site_edges CHA_RULE g key).any (fun e => !e.edge.cut_markers.isEmpty) ||
      construction_under_cut g (reachable_callers g)
  · rw [if_pos hcut]
    constructor
    · intro h
      cases h
    · rintro ⟨hsite, hcons, _⟩
      rw [Bool.or_eq_true, construction_under_cut_iff] at hcut
      obtain hany | hcons' := hcut
      · obtain ⟨e, he, hmarkers⟩ := List.any_eq_true.mp hany
        rw [hsite e he] at hmarkers
        cases hmarkers
      · exact absurd hcons' hcons
  · rw [if_neg hcut]
    rw [Bool.or_eq_true, construction_under_cut_iff, not_or] at hcut
    obtain ⟨hsite, hcons⟩ := hcut
    have hsite : ∀ e ∈ site_edges CHA_RULE g key, e.edge.cut_markers = [] := by
      intro e he
      by_contra hne
      exact hsite (List.any_eq_true.mpr ⟨e, he, by simpa using hne⟩)
    by_cases hall : (site_edges CHA_RULE g key).all
        (keeps_candidate g (instantiated_types g (reachable_callers g))) = true
    · rw [if_pos hall]
      constructor
      · intro h
        cases h
      · rintro ⟨_, _, _, e, he, hdead⟩
        exact absurd (keeps_candidate_iff.mp (List.all_eq_true.mp hall e he)) hdead
    · rw [if_neg hall]
      have hdead : ∃ e ∈ site_edges CHA_RULE g key, ¬ LiveParent g e.edge.dst := by
        by_contra hnone
        apply hall
        rw [List.all_eq_true]
        intro e he
        rw [keeps_candidate_iff]
        by_contra hlive
        exact hnone ⟨e, he, hlive⟩
      by_cases hany : (site_edges CHA_RULE g key).any
          (keeps_candidate g (instantiated_types g (reachable_callers g))) = true
      · rw [if_pos hany]
        obtain ⟨e, he, hkeep⟩ := List.any_eq_true.mp hany
        exact ⟨fun _ => ⟨hsite, hcons, ⟨e, he, keeps_candidate_iff.mp hkeep⟩, hdead⟩, fun _ => rfl⟩
      · rw [if_neg hany]
        constructor
        · intro h
          cases h
        · rintro ⟨_, _, ⟨e, he, hlive⟩, _⟩
          exact absurd (List.any_eq_true.mpr ⟨e, he, keeps_candidate_iff.mpr hlive⟩) hany

theorem is_dropped_iff {e : EdgeWithProvenance} :
    is_dropped g e = true ↔
      ∃ key, virtual_site CHA_RULE e = some key ∧ Prunable g key ∧ ¬ LiveParent g e.edge.dst := by
  rw [is_dropped, at_pruned_site, Bool.and_eq_true, Bool.not_eq_true', ← Bool.not_eq_true,
    keeps_candidate_iff, Option.any_eq_true]
  constructor
  · rintro ⟨⟨key, hkey, hpruned⟩, hdead⟩
    exact ⟨key, hkey, site_outcome_pruned.mp (of_decide_eq_true hpruned), hdead⟩
  · rintro ⟨key, hkey, hpruned, hdead⟩
    exact ⟨⟨key, hkey, decide_eq_true (site_outcome_pruned.mpr hpruned)⟩, hdead⟩

/-! ### The targets a site keeps -/

theorem upgrade_site (g : ResolvedGraph) (e : EdgeWithProvenance) (key : SiteKey) :
    (virtual_site CHA_RULE (upgrade g e) = some key ∨ virtual_site RTA_RULE (upgrade g e) = some key) ↔
      (virtual_site CHA_RULE e = some key ∨ virtual_site RTA_RULE e = some key) := by
  rw [upgrade]
  split
  · rename_i hpruned
    rw [at_pruned_site, Option.any_eq_true] at hpruned
    obtain ⟨key', hkey', _⟩ := hpruned
    obtain ⟨hkind, hrule, hsrc, hsite⟩ := virtual_site_eq_some.mp hkey'
    simp only [virtual_site_eq_some, hkind, hrule, hsrc, hsite, true_and]
    have hne : RTA_RULE ≠ CHA_RULE := by decide
    simp [hne, hne.symm]
  · rfl

/-- The targets of a site's trait-scoped edges, pruned or not. -/
def dispatch_targets (g : ResolvedGraph) (key : SiteKey) (id : NodeId) : Prop :=
  id ∈ targets CHA_RULE g key ∨ id ∈ targets RTA_RULE g key

theorem dispatch_targets_iff {key : SiteKey} {id : NodeId} :
    dispatch_targets g key id ↔ ∃ e ∈ g.edges, (virtual_site CHA_RULE e = some key ∨
      virtual_site RTA_RULE e = some key) ∧ e.edge.dst = id := by
  rw [dispatch_targets, mem_targets, mem_targets]
  constructor
  · intro h
    cases h with
    | inl hcha =>
      obtain ⟨e, he, hsite, hdst⟩ := hcha
      exact ⟨e, he, .inl hsite, hdst⟩
    | inr hrta =>
      obtain ⟨e, he, hsite, hdst⟩ := hrta
      exact ⟨e, he, .inr hsite, hdst⟩
  · rintro ⟨e, he, hsite, hdst⟩
    cases hsite with
    | inl hcha => exact .inl ⟨e, he, hcha, hdst⟩
    | inr hrta => exact .inr ⟨e, he, hrta, hdst⟩

theorem dispatch_targets_run_rta {key : SiteKey} {id : NodeId} :
    dispatch_targets (run_rta g).1 key id ↔ ∃ e ∈ g.edges, (virtual_site CHA_RULE e = some key ∨
      virtual_site RTA_RULE e = some key) ∧ e.edge.dst = id ∧ is_dropped g e = false := by
  rw [run_rta]
  split
  · rw [dispatch_targets_iff, exists_edge_canonicalize fun e => Iff.rfl]
    have hdst : ∀ e, (upgrade g e).edge.dst = e.edge.dst := by
      intro e
      rw [upgrade]
      split <;> rfl
    simp only [prune_sites, List.mem_map, List.mem_filter, Bool.not_eq_true']
    constructor
    · rintro ⟨_, ⟨_, ⟨e, ⟨he, hkept⟩, rfl⟩, rfl⟩, hsite, heq⟩
      refine ⟨e, he, (upgrade_site g e key).mp hsite, ?_, hkept⟩
      rw [← heq, ← hdst e]
      rfl
    · rintro ⟨e, he, hsite, heq, hkept⟩
      refine ⟨_, ⟨_, ⟨e, ⟨he, hkept⟩, rfl⟩, rfl⟩, (upgrade_site g e key).mpr hsite, ?_⟩
      rw [← heq, ← hdst e]
      rfl
  · rename_i hnone
    rw [dispatch_targets_iff]
    have hkept : ∀ e ∈ g.edges, is_dropped g e = false := by simpa using hnone
    constructor
    · rintro ⟨e, he, hsite, hdst⟩
      exact ⟨e, he, hsite, hdst, hkept e he⟩
    · rintro ⟨e, he, hsite, hdst, _⟩
      exact ⟨e, he, hsite, hdst⟩

/-! ### Soundness of the pruning -/

/-- The candidate is what a receiver of type `ty` runs: the type's own member, or the body
that it inherits. -/
def RunsFor (g : ResolvedGraph) (ty : String) (id : NodeId) : Prop :=
  ∃ n, (g.nodes.reverse.find? fun n => n.node.id = id) = some n ∧
    ((∃ method, split_fqn n.node.fqn = some (ty, method)) ∨
      ∃ declaring method, ¬ Declares g ty method ∧ Nearest g method ty declaring ∧
        split_fqn n.node.fqn = some (declaring, method) ∧ n.node.is_abstract = false)

/-- Live code constructs types that the graph may not show: it has a dangling reference, or
a construction behind a cut. -/
def HidesConstruction (g : ResolvedGraph) : Prop :=
  (∃ u ∈ g.unresolved, Live g u.caller) ∨
    ∃ e ∈ g.edges, e.edge.kind = .Instantiates ∧ Live g e.edge.src ∧ e.edge.cut_markers ≠ []

/-- Pruning drops nothing that an instantiated type runs, and nothing at all when a
construction may be hidden. -/
structure PrunesSafely (g : ResolvedGraph) : Prop where
  keeps : ∀ key id ty, id ∈ targets CHA_RULE g key → Instantiated g ty → RunsFor g ty id →
    dispatch_targets (run_rta g).1 key id
  guarded : HidesConstruction g → (run_rta g).1 = g ∧ (run_rta g).2.sites_pruned = 0

theorem drops_iff {key : SiteKey} {id : NodeId} (hid : id ∈ targets CHA_RULE g key) :
    ¬ dispatch_targets (run_rta g).1 key id ↔
      Prunable g key ∧ ¬ LiveParent g id ∧ id ∉ targets RTA_RULE g key := by
  rw [dispatch_targets_run_rta]
  constructor
  · intro hgone
    obtain ⟨e, he, hsite, heq⟩ := mem_targets.mp hid
    have hdropped : is_dropped g e = true := by
      by_contra hkept
      exact hgone ⟨e, he, .inl hsite, heq, by simpa using hkept⟩
    obtain ⟨key', hkey', hprunable, hdead⟩ := is_dropped_iff.mp hdropped
    rw [hsite] at hkey'
    cases hkey'
    refine ⟨hprunable, heq ▸ hdead, fun hrta => ?_⟩
    obtain ⟨e', he', hsite', heq'⟩ := mem_targets.mp hrta
    apply hgone
    refine ⟨e', he', .inr hsite', heq', ?_⟩
    by_contra hdropped'
    obtain ⟨key', hkey', _⟩ := is_dropped_iff.mp (by simpa using hdropped' : is_dropped g e' = true)
    have hcha := (virtual_site_eq_some.mp hkey').2.1
    rw [(virtual_site_eq_some.mp hsite').2.1] at hcha
    exact absurd hcha (by decide)
  · rintro ⟨hprunable, hdead, hrta⟩ ⟨e, he, hsite, heq, hkept⟩
    cases hsite with
    | inl hcha =>
      have hdropped := is_dropped_iff.mpr ⟨key, hcha, hprunable, heq ▸ hdead⟩
      rw [hkept] at hdropped
      cases hdropped
    | inr hrta' => exact hrta (mem_targets.mpr ⟨e, he, hrta', heq⟩)

/-- No site is prunable exactly when the pass does nothing. -/
theorem idle_iff : (∀ key, ¬ Prunable g key) ↔ (run_rta g).1 = g ∧ (run_rta g).2.sites_pruned = 0 := by
  constructor
  · intro hnone
    have hkept : g.edges.any (is_dropped g) = false := by
      rw [List.any_eq_false]
      intro e _ hdropped
      obtain ⟨key, _, hprunable, _⟩ := is_dropped_iff.mp hdropped
      exact hnone key hprunable
    refine ⟨by rw [run_rta, hkept]; rfl, ?_⟩
    rw [run_rta, rta_stats]
    apply List.countP_eq_zero.mpr
    intro key _ hpruned
    exact hnone key (site_outcome_pruned.mp (of_decide_eq_true hpruned))
  · rintro ⟨_, hzero⟩ key hprunable
    rw [run_rta, rta_stats] at hzero
    have hkey : key ∈ collect_sites CHA_RULE g := by
      rw [mem_collect_sites]
      intro hnil
      obtain ⟨id, hid, _⟩ := hprunable.2.2.1
      rw [targets, hnil] at hid
      cases hid
    exact List.countP_eq_zero.mp hzero key hkey (decide_eq_true (site_outcome_pruned.mpr hprunable))

/-- Pruning is safe exactly when no prunable site stands in a graph whose live code has a
dangling reference, and at none of them a candidate without an instantiated parent is what an
instantiated type runs. -/
theorem prunes_safely_iff (g : ResolvedGraph) :
    PrunesSafely g ↔ ∀ key, Prunable g key →
      (∀ u ∈ g.unresolved, ¬ Live g u.caller) ∧
        ∀ id ∈ targets CHA_RULE g key, ∀ ty, Instantiated g ty → RunsFor g ty id →
          LiveParent g id ∨ id ∈ targets RTA_RULE g key := by
  constructor
  · intro hsafe key hprunable
    refine ⟨fun u hu hlive => ?_, fun id hid ty hty hruns => ?_⟩
    · exact idle_iff.mpr (hsafe.guarded (.inl ⟨u, hu, hlive⟩)) key hprunable
    · by_contra hnot
      rw [not_or] at hnot
      exact (drops_iff hid).mpr ⟨hprunable, hnot.1, hnot.2⟩ (hsafe.keeps key id ty hid hty hruns)
  · intro hcond
    refine ⟨fun key id ty hid hty hruns => ?_, fun hhidden => idle_iff.mp fun key hprunable => ?_⟩
    · by_contra hgone
      obtain ⟨hprunable, hdead, hrta⟩ := (drops_iff hid).mp hgone
      cases (hcond key hprunable).2 id hid ty hty hruns with
      | inl hlive => exact hdead hlive
      | inr hkept => exact hrta hkept
    · cases hhidden with
      | inl hdangling =>
        obtain ⟨u, hu, hlive⟩ := hdangling
        exact (hcond key hprunable).1 u hu hlive
      | inr hcut =>
        obtain ⟨e, he, hkind, hlive, hmarkers⟩ := hcut
        exact hprunable.2.1 ⟨e, he, hlive, .inl ⟨hkind, hmarkers⟩⟩

namespace sample

/-- A trait-scoped candidate of the call at line 9. -/
def cha_edge (dst : UInt32) (group : Option UInt32) : EdgeWithProvenance :=
  build_cha_edge ⟨site, name_method_edge dst group, [⟨dst⟩], group⟩ ⟨dst⟩

/-- `Square` inherits the default `Shape::area`, `Disc` overrides it; `main` makes both. -/
def disc_graph : ResolvedGraph where
  nodes := [java_node 0 .Function "main" false, java_node 1 .Type "Shape" true,
    java_node 2 .Method "Shape::area" false, java_node 3 .Type "Disc" false,
    java_node 4 .Method "Disc::area" false, java_node 5 .Type "Square" false]
  edges := [cha_edge 2 (some 0), java_edge 0 3 .Instantiates, cha_edge 4 (some 0),
    java_edge 0 5 .Instantiates, java_edge 3 1 .Implements, java_edge 5 1 .Implements]
  candidates := [⟨0, ⟨2⟩, 0⟩, ⟨0, ⟨4⟩, 1⟩]
  unresolved := []

/-- The default body that the instantiated `Square` runs is dropped: its parent is the
interface, which nothing instantiates. -/
theorem inherited_body_is_dropped :
    ⟨2⟩ ∈ targets CHA_RULE disc_graph site ∧ Instantiated disc_graph "Square" ∧
      RunsFor disc_graph "Square" ⟨2⟩ ∧ ¬ dispatch_targets (run_rta disc_graph).1 site ⟨2⟩ := by
  refine ⟨by decide, mem_instantiated_types.mp (by decide), ?_, ?_⟩
  · refine ⟨java_node 2 .Method "Shape::area" false, by decide, .inr ⟨"Shape", "area", ?_, ?_, by decide, rfl⟩⟩
    · have hown : ∀ n ∈ disc_graph.nodes, split_fqn n.node.fqn ≠ some ("Square", "area") := by decide
      exact fun ⟨n, hn, _, hsplit⟩ => hown n hn hsplit
    · refine .direct (.inl (by rw [Implements]; decide)) ?_
      exact ⟨java_node 2 .Method "Shape::area" false, by decide, rfl, by decide⟩
  · rw [dispatch_targets]
    decide

end sample

end cgx.resolve
