import Cgx.Resolve.Cha
import Mathlib.Data.List.Dedup

open cgx.core sorting

namespace cgx.resolve

/-! ### What canonical order leaves alone -/

/-- An edge without the numbers that canonical order assigns. -/
def stem (e : EdgeWithProvenance) : EdgeWithProvenance :=
  { e with edge := { e.edge with id := ⟨0⟩, candidate_group := none } }

theorem perm_canonicalize_stems (g : ResolvedGraph) :
    ((canonicalize g).edges.map stem).Perm (g.edges.map stem) := by
  have hids : ∀ l : List EdgeWithProvenance,
      (l.mapIdx fun i e => { e with edge := { e.edge with id := ⟨UInt32.ofNat i⟩ } }).map stem =
        l.map stem := by
    intro l
    rw [List.mapIdx_eq_zipIdx_map, List.map_map]
    have hfst : l.map stem = (l.zipIdx.map Prod.fst).map stem := by rw [List.zipIdx_map_fst]
    rw [hfst, List.map_map]
    rfl
  simp only [canonicalize]
  rw [hids]
  refine ((perm_sort_by _).map stem).trans ?_
  rw [List.map_map]
  exact (perm_sort_by g.edges).map stem

@[simp] theorem nodes_canonicalize (g : ResolvedGraph) : (canonicalize g).nodes = g.nodes := rfl

/-- A property that does not look at the assigned numbers is one of stems. -/
theorem exists_stem {p : EdgeWithProvenance → Prop} (hp : ∀ e, p (stem e) ↔ p e)
    {l : List EdgeWithProvenance} : (∃ e ∈ l, p e) ↔ ∃ e ∈ l.map stem, p e := by
  constructor
  · rintro ⟨e, he, h⟩
    exact ⟨stem e, List.mem_map_of_mem he, (hp e).mpr h⟩
  · rintro ⟨e, he, h⟩
    obtain ⟨e', he', rfl⟩ := List.mem_map.mp he
    exact ⟨e', he', (hp e').mp h⟩

theorem exists_edge_canonicalize {g : ResolvedGraph} {p : EdgeWithProvenance → Prop}
    (hp : ∀ e, p (stem e) ↔ p e) : (∃ e ∈ (canonicalize g).edges, p e) ↔ ∃ e ∈ g.edges, p e := by
  rw [exists_stem hp, exists_stem hp (l := g.edges)]
  constructor
  · rintro ⟨e, he, h⟩
    exact ⟨e, (perm_canonicalize_stems g).mem_iff.mp he, h⟩
  · rintro ⟨e, he, h⟩
    exact ⟨e, (perm_canonicalize_stems g).mem_iff.mpr he, h⟩

/-! ### Sites -/

/-- The targets of a site's edges of one rule. -/
def targets (rule : String) (g : ResolvedGraph) (key : SiteKey) : List NodeId :=
  (site_edges rule g key).map fun e => e.edge.dst

theorem mem_targets {rule : String} {g : ResolvedGraph} {key : SiteKey} {id : NodeId} :
    id ∈ targets rule g key ↔ ∃ e ∈ g.edges, virtual_site rule e = some key ∧ e.edge.dst = id := by
  simp only [targets, site_edges, List.mem_map, List.mem_filter, decide_eq_true_eq]
  constructor
  · rintro ⟨e, ⟨he, hsite⟩, hdst⟩
    exact ⟨e, he, hsite, hdst⟩
  · rintro ⟨e, he, hsite, hdst⟩
    exact ⟨e, ⟨he, hsite⟩, hdst⟩

theorem mem_collect_sites {rule : String} {g : ResolvedGraph} {key : SiteKey} :
    key ∈ collect_sites rule g ↔ site_edges rule g key ≠ [] := by
  rw [collect_sites, mem_sort_by, List.mem_dedup, List.mem_filterMap, site_edges, ne_eq,
    List.filter_eq_nil_iff]
  simp

theorem virtual_site_eq_some {rule : String} {e : EdgeWithProvenance} {key : SiteKey} :
    virtual_site rule e = some key ↔
      e.edge.kind = .CallsVirtual ∧ e.edge.rule = rule ∧ e.edge.src = key.1 ∧ e.edge.site_id = some key.2 := by
  obtain ⟨src, site_id⟩ := key
  rw [virtual_site]
  split
  · rename_i h
    rw [site_key, Option.map_eq_some_iff]
    constructor
    · rintro ⟨s, hs, heq⟩
      cases heq
      exact ⟨h.1, h.2, rfl, hs⟩
    · rintro ⟨_, _, hsrc, hsite⟩
      exact ⟨site_id, hsite, by rw [hsrc]⟩
  · rename_i h
    constructor
    · intro hsome
      cases hsome
    · rintro ⟨hkind, hrule, _⟩
      exact absurd ⟨hkind, hrule⟩ h

/-! ### Replacements -/

theorem number_groups_fields (next : UInt32) (rs : List Replacement) :
    (number_groups next rs).map (fun r => (r.key, r.proto, r.dsts)) =
      rs.map fun r => (r.key, r.proto, r.dsts) := by
  induction rs generalizing next with
  | nil => rfl
  | cons r rest ih =>
    rw [number_groups]
    split <;> simp [ih]

/-- A prototype stands at the site it is replaced at. -/
def Replacement.AtSite (rule : String) (r : Replacement) : Prop :=
  virtual_site rule r.proto = some r.key

theorem rescope_eq_some {l : Lattice} {g : ResolvedGraph} {key : SiteKey} {r : Replacement}
    (h : rescope l g key = some r) :
    r.key = key ∧ (site_edges NAME_METHOD_RULE g key).head? = some r.proto ∧
      ∃ method, short_name_of g.nodes r.proto.edge.dst = some method ∧
        r.dsts = canonicalize_candidate_dsts (l.trait_scoped_candidates method) ∧ r.dsts ≠ [] := by
  simp only [rescope, Option.bind_eq_bind, Option.bind_eq_some_iff] at h
  obtain ⟨proto, hproto, method, hmethod, hdsts⟩ := h
  split at hdsts
  · cases hdsts
  · rename_i hne
    cases hdsts
    exact ⟨rfl, hproto, method, hmethod, rfl, hne⟩

theorem mem_site_edges {rule : String} {g : ResolvedGraph} {key : SiteKey} {e : EdgeWithProvenance} :
    e ∈ site_edges rule g key ↔ e ∈ g.edges ∧ virtual_site rule e = some key := by
  rw [site_edges, List.mem_filter, decide_eq_true_eq]

/-- The replacements are those of the sites, up to their groups. -/
theorem exists_cha_replacement {g : ResolvedGraph} {p : SiteKey → EdgeWithProvenance → List NodeId → Prop} :
    (∃ r ∈ cha_replacements g, p r.key r.proto r.dsts) ↔
      ∃ key r, rescope (Lattice.build g) g key = some r ∧ p r.key r.proto r.dsts := by
  have hfields := number_groups_fields (next_group g)
    ((collect_sites NAME_METHOD_RULE g).filterMap (rescope (Lattice.build g) g))
  constructor
  · rintro ⟨r, hr, h⟩
    have hmem : (r.key, r.proto, r.dsts) ∈ (cha_replacements g).map fun r => (r.key, r.proto, r.dsts) :=
      List.mem_map_of_mem hr
    rw [cha_replacements, hfields] at hmem
    obtain ⟨r', hr', heq⟩ := List.mem_map.mp hmem
    obtain ⟨key, _, hscope⟩ := List.mem_filterMap.mp hr'
    simp only [Prod.mk.injEq] at heq
    rw [← heq.1, ← heq.2.1, ← heq.2.2] at h
    exact ⟨key, r', hscope, h⟩
  · rintro ⟨key, r, hscope, h⟩
    have hkey : key ∈ collect_sites NAME_METHOD_RULE g := by
      rw [mem_collect_sites]
      intro hnil
      have hhead := (rescope_eq_some hscope).2.1
      rw [hnil] at hhead
      cases hhead
    have hmem : (r.key, r.proto, r.dsts) ∈ ((collect_sites NAME_METHOD_RULE g).filterMap
        (rescope (Lattice.build g) g)).map fun r => (r.key, r.proto, r.dsts) :=
      List.mem_map.mpr ⟨r, List.mem_filterMap.mpr ⟨key, hkey, hscope⟩, rfl⟩
    rw [← hfields] at hmem
    obtain ⟨r', hr', heq⟩ := List.mem_map.mp hmem
    simp only [Prod.mk.injEq] at heq
    rw [← heq.1, ← heq.2.1, ← heq.2.2] at h
    exact ⟨r', hr', h⟩

/-- A site that is rescoped is replaced by exactly its own replacement. -/
theorem mem_cha_replacements_key {g : ResolvedGraph} {key : SiteKey} {r : Replacement}
    (h : rescope (Lattice.build g) g key = some r) {p : EdgeWithProvenance → List NodeId → Prop} :
    (∃ r' ∈ cha_replacements g, r'.key = key ∧ p r'.proto r'.dsts) ↔ p r.proto r.dsts := by
  rw [exists_cha_replacement (p := fun k proto dsts => k = key ∧ p proto dsts)]
  constructor
  · rintro ⟨key', r', hscope, hkey, hp⟩
    have heq := (rescope_eq_some hscope).1
    rw [heq] at hkey
    subst hkey
    rw [h] at hscope
    cases hscope
    exact hp
  · intro hp
    exact ⟨key, r, h, (rescope_eq_some h).1, hp⟩

/-- The edges after CHA, up to the numbers that canonical order assigns: those that no
replacement touches, and those of the replacements. -/
theorem exists_edge_run_cha {g : ResolvedGraph} {p : EdgeWithProvenance → Prop}
    (hp : ∀ e, p (stem e) ↔ p e) :
    (∃ e ∈ (run_cha g).1.edges, p e) ↔
      (∃ e ∈ g.edges, p e ∧ ∀ r ∈ cha_replacements g, virtual_site NAME_METHOD_RULE e ≠ some r.key) ∨
        ∃ r ∈ cha_replacements g, ∃ dst ∈ r.dsts, p (build_cha_edge r dst) := by
  rw [run_cha]
  split
  · rename_i hnone
    simp [hnone]
  · rename_i replacements heq
    rw [exists_edge_canonicalize hp]
    simp only [replace_sites, List.mem_append, List.mem_filter, List.mem_flatMap, List.mem_map]
    constructor
    · rintro ⟨e, hmem, h⟩
      cases hmem with
      | inl hkept =>
        refine .inl ⟨e, hkept.1, h, fun r hr hsite => ?_⟩
        have hall := hkept.2
        simp only [Bool.not_eq_true', List.any_eq_false, decide_eq_true_eq] at hall
        exact hall r hr hsite
      | inr hnew =>
        obtain ⟨r, hr, dst, hdst, rfl⟩ := hnew
        exact .inr ⟨r, hr, dst, hdst, h⟩
    · intro h
      cases h with
      | inl hkept =>
        obtain ⟨e, he, hpe, hsite⟩ := hkept
        refine ⟨e, .inl ⟨he, ?_⟩, hpe⟩
        simp only [Bool.not_eq_true', List.any_eq_false, decide_eq_true_eq]
        exact hsite
      | inr hnew =>
        obtain ⟨r, hr, dst, hdst, hpe⟩ := hnew
        exact ⟨_, .inr ⟨r, hr, dst, hdst, rfl⟩, hpe⟩

@[simp] theorem nodes_run_cha (g : ResolvedGraph) : (run_cha g).1.nodes = g.nodes := by
  rw [run_cha]
  split <;> rfl

/-- What a prototype hands on to its edges. -/
theorem build_cha_edge_site {r : Replacement} (h : r.AtSite NAME_METHOD_RULE) (dst : NodeId) :
    virtual_site CHA_RULE (build_cha_edge r dst) = some r.key := by
  rw [Replacement.AtSite, virtual_site_eq_some] at h
  rw [virtual_site_eq_some]
  exact ⟨h.1, rfl, h.2.2.1, h.2.2.2⟩

theorem at_site_of_mem {g : ResolvedGraph} {r : Replacement} (h : r ∈ cha_replacements g) :
    r.AtSite NAME_METHOD_RULE := by
  have hexists := exists_cha_replacement (g := g) (p := fun key proto _ => key = r.key ∧ proto = r.proto)
  obtain ⟨key, r', hscope, hkey, hproto⟩ := hexists.mp ⟨r, h, rfl, rfl⟩
  obtain ⟨hkey', hhead, _⟩ := rescope_eq_some hscope
  rw [Replacement.AtSite, ← hkey, ← hproto, hkey']
  exact (mem_site_edges.mp (List.mem_of_mem_head? hhead)).2

/-- The trait-scoped targets of a rescoped site. -/
theorem mem_targets_run_cha {g : ResolvedGraph} {key : SiteKey} {r : Replacement}
    (h : rescope (Lattice.build g) g key = some r) {id : NodeId} :
    id ∈ targets CHA_RULE (run_cha g).1 key ↔ id ∈ targets CHA_RULE g key ∨ id ∈ r.dsts := by
  rw [mem_targets, exists_edge_run_cha fun e => Iff.rfl, mem_targets]
  apply or_congr
  · constructor
    · rintro ⟨e, he, hsite, _⟩
      exact ⟨e, he, hsite⟩
    · rintro ⟨e, he, hsite⟩
      refine ⟨e, he, hsite, fun r' _ hname => ?_⟩
      have hcha := (virtual_site_eq_some.mp hsite.1).2.1
      have hmethod := (virtual_site_eq_some.mp hname).2.1
      rw [hcha] at hmethod
      exact absurd hmethod (by decide)
  · rw [← mem_cha_replacements_key h (p := fun _ dsts => id ∈ dsts)]
    constructor
    · rintro ⟨r', hr', dst, hdst, hsite, heq⟩
      rw [build_cha_edge_site (at_site_of_mem hr')] at hsite
      subst heq
      exact ⟨r', hr', Option.some.inj hsite, hdst⟩
    · rintro ⟨r', hr', hkey, hdst⟩
      refine ⟨r', hr', id, hdst, ?_, rfl⟩
      rw [build_cha_edge_site (at_site_of_mem hr'), hkey]

end cgx.resolve
