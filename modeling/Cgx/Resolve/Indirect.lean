import Mathlib.Data.List.Nodup
import Cgx.Resolve.Sig
import Cgx.Resolve.Sites

open cgx.core sorting

namespace cgx.resolve

/-! ### Arities -/

theorem digit_value_of_is_digit {c : Char} (h : c.isDigit = true) : digit_value c = some (c.toNat - '0'.toNat) := by
  have hbounds : '0'.val ≤ c.val ∧ c.val ≤ '9'.val := by
    rw [Char.isDigit, Bool.and_eq_true_iff] at h
    exact ⟨of_decide_eq_true h.1, of_decide_eq_true h.2⟩
  exact if_pos hbounds

theorem parse_digits_eq {digits : List Char} (h : ∀ c ∈ digits, c.isDigit = true) (n : Nat) :
    parse_digits n digits = some (Nat.ofDigitChars 10 digits n) := by
  induction digits generalizing n with
  | nil => rfl
  | cons c rest ih =>
    rw [parse_digits, digit_value_of_is_digit (h c List.mem_cons_self), Option.bind_some,
      ih (fun c hc => h c (List.mem_cons_of_mem _ hc)), Nat.ofDigitChars_cons]

/-- A word-sized number is read back. -/
theorem parse_usize_to_string {n : Nat} (h : n < 2 ^ 64) : parse_usize (toString n).toList = some n := by
  have htext : (toString n).toList = Nat.toDigits 10 n := Nat.toList_repr
  have hdigits : ∀ c ∈ Nat.toDigits 10 n, c.isDigit = true :=
    fun c hc => Nat.isDigit_of_mem_toDigits (by omega) (by omega) hc
  have hsign : (Nat.toDigits 10 n).head? ≠ some '+' := by
    intro hplus
    have hdigit := hdigits _ (List.mem_of_mem_head? hplus)
    revert hdigit
    decide
  rw [htext, parse_usize, if_neg hsign, if_neg Nat.toDigits_ne_nil, parse_digits_eq hdigits,
    Nat.ofDigitChars_ten_toDigits, Option.filter_some, decide_eq_true h, if_pos rfl]

/-! ### The sites that are collected -/

variable {g : ResolvedGraph}

theorem remove_edges_at_nil (edges : List EdgeWithProvenance) : remove_edges_at [] edges = edges := by
  rw [remove_edges_at, List.filter_eq_self.mpr fun e _ => by simp, List.zipIdx_map_fst]

theorem mem_remove_edges_at {drop : List Nat} {edges : List EdgeWithProvenance} {e : EdgeWithProvenance} :
    e ∈ remove_edges_at drop edges ↔ ∃ i, edges[i]? = some e ∧ i ∉ drop := by
  simp only [remove_edges_at, List.mem_map, List.mem_filter, Prod.exists, exists_and_right, exists_eq_right,
    List.mem_zipIdx_iff_getElem?, Bool.not_eq_true', List.contains_eq_mem, decide_eq_false_iff_not]

theorem placeholder_site_eq_some {e : EdgeWithProvenance} {key : SiteKey} :
    placeholder_site e = some key ↔ is_placeholder e = true ∧ site_key e = some key := by
  rw [placeholder_site]
  split
  · rename_i h
    exact (and_iff_right h).symm
  · rename_i h
    exact iff_of_false (fun hnone => nomatch hnone) fun hboth => h hboth.1

/-- The first placeholder of a site, with its position. -/
def first_placeholder (g : ResolvedGraph) (key : SiteKey) : Option (EdgeWithProvenance × Nat) :=
  g.edges.zipIdx.find? fun e => placeholder_site e.1 = some key

theorem first_placeholder_spec {key : SiteKey} {e : EdgeWithProvenance} {i : Nat}
    (h : first_placeholder g key = some (e, i)) :
    g.edges[i]? = some e ∧ placeholder_site e = some key ∧
      ∀ j e', j < i → g.edges[j]? = some e' → placeholder_site e' ≠ some key := by
  rw [first_placeholder, List.find?_eq_some_iff_getElem] at h
  obtain ⟨hsite, k, hk, heq, hbefore⟩ := h
  rw [List.getElem_zipIdx, Nat.zero_add] at heq
  obtain ⟨rfl, rfl⟩ := Prod.mk.inj heq
  refine ⟨List.getElem?_eq_getElem _, of_decide_eq_true hsite, fun j e' hj he' hkey => ?_⟩
  have hnot := hbefore j hj
  rw [List.getElem_zipIdx] at hnot
  obtain ⟨hlt, rfl⟩ := List.getElem?_eq_some_iff.mp he'
  simp [hkey] at hnot

theorem exists_first_placeholder {key : SiteKey} {e : EdgeWithProvenance} (he : e ∈ g.edges)
    (hkey : placeholder_site e = some key) : ∃ first i, first_placeholder g key = some (first, i) := by
  obtain ⟨i, hi⟩ := List.mem_iff_getElem?.mp he
  have hsome : (first_placeholder g key).isSome := by
    rw [first_placeholder, List.find?_isSome]
    exact ⟨(e, i), List.mem_zipIdx_iff_getElem?.mpr hi, decide_eq_true hkey⟩
  obtain ⟨⟨first, i⟩, hfirst⟩ := Option.isSome_iff_exists.mp hsome
  exact ⟨first, i, hfirst⟩

theorem mem_collect_indirect_sites {site : IndirectSite} :
    site ∈ collect_indirect_sites g ↔ first_placeholder g site.key = some (site.edge, site.edge_index) ∧
      site.arity = parse_arity site.edge.edge.rule := by
  rw [collect_indirect_sites, List.mem_filterMap]
  constructor
  · rintro ⟨key, _, hsite⟩
    obtain ⟨⟨e, i⟩, hfirst, rfl⟩ := Option.map_eq_some_iff.mp hsite
    exact ⟨hfirst, rfl⟩
  · rintro ⟨hfirst, harity⟩
    obtain ⟨hi, hsite, _⟩ := first_placeholder_spec hfirst
    refine ⟨site.key, ?_, ?_⟩
    · rw [mem_sort_by, List.mem_dedup, List.mem_filterMap]
      exact ⟨site.edge, List.mem_of_getElem? hi, hsite⟩
    · rw [first_placeholder] at hfirst
      rw [hfirst, Option.map_some, ← harity]

/-- Each site is collected once. -/
theorem nodup_collected_keys : ((collect_indirect_sites g).map IndirectSite.key).Nodup := by
  have hsub : ((collect_indirect_sites g).map IndirectSite.key).Sublist
      (sort_by site_key_cmp (g.edges.filterMap placeholder_site).dedup) := by
    rw [collect_indirect_sites, List.map_filterMap]
    generalize sort_by site_key_cmp (g.edges.filterMap placeholder_site).dedup = keys
    induction keys with
    | nil => exact .slnil
    | cons key rest ih =>
      rw [List.filterMap_cons, Option.map_map]
      cases g.edges.zipIdx.find? fun e => placeholder_site e.1 = some key with
      | none => exact ih.cons key
      | some e => exact ih.cons_cons key
  exact hsub.nodup ((perm_sort_by _).nodup_iff.mpr (List.nodup_dedup _))

/-! ### The placeholders that stay -/

theorem eq_of_same_site (hdistinct : (g.edges.filterMap placeholder_site).Nodup) {i j : Nat} {a b : EdgeWithProvenance}
    {key : SiteKey} (hi : g.edges[i]? = some a) (hj : g.edges[j]? = some b) (ha : placeholder_site a = some key)
    (hb : placeholder_site b = some key) : i = j := by
  rw [List.Nodup, List.pairwise_filterMap, List.pairwise_iff_getElem] at hdistinct
  obtain ⟨hilt, rfl⟩ := List.getElem?_eq_some_iff.mp hi
  obtain ⟨hjlt, rfl⟩ := List.getElem?_eq_some_iff.mp hj
  obtain hlt | heq | hgt := Nat.lt_trichotomy i j
  · exact absurd rfl (hdistinct i j hilt hjlt hlt key ha key hb)
  · exact heq
  · exact absurd rfl (hdistinct j i hjlt hilt hgt key hb key ha)

/-- No placeholder stays if and only if each of them has a site of its own. -/
theorem placeholders_removed_iff (hsites : ∀ e ∈ g.edges, is_placeholder e = true → e.edge.site_id.isSome = true) :
    (∀ e ∈ remove_edges_at ((collect_indirect_sites g).map IndirectSite.edge_index) g.edges, is_placeholder e = false) ↔
      (g.edges.filterMap placeholder_site).Nodup := by
  have hkey : ∀ e ∈ g.edges, is_placeholder e = true → ∃ key, placeholder_site e = some key := by
    intro e he hplaceholder
    obtain ⟨site_id, hid⟩ := Option.isSome_iff_exists.mp (hsites e he hplaceholder)
    exact ⟨_, placeholder_site_eq_some.mpr ⟨hplaceholder, Option.map_eq_some_iff.mpr ⟨site_id, hid, rfl⟩⟩⟩
  constructor
  · intro hgone
    rw [List.Nodup, List.pairwise_filterMap, List.pairwise_iff_getElem]
    intro i j hi hj hlt key hki key' hkj heq
    subst heq
    -- The later one is not the first of its site.
    have hstays : g.edges[j] ∈ remove_edges_at ((collect_indirect_sites g).map IndirectSite.edge_index) g.edges := by
      refine mem_remove_edges_at.mpr ⟨j, List.getElem?_eq_getElem hj, fun hdrop => ?_⟩
      obtain ⟨site, hsite, rfl⟩ := List.mem_map.mp hdrop
      obtain ⟨hedge, hsitekey, hfirst⟩ := first_placeholder_spec (mem_collect_indirect_sites.mp hsite).1
      have hsame : g.edges[site.edge_index] = site.edge := Option.some.inj ((List.getElem?_eq_getElem hj).symm.trans hedge)
      rw [hsame, hsitekey] at hkj
      obtain rfl := Option.some.inj hkj
      exact hfirst i _ hlt (List.getElem?_eq_getElem hi) hki
    have hnot := hgone _ hstays
    rw [(placeholder_site_eq_some.mp hkj).1] at hnot
    cases hnot
  · intro hdistinct e he
    obtain ⟨i, hi, hkept⟩ := mem_remove_edges_at.mp he
    by_contra hplaceholder
    have hmem := List.mem_of_getElem? hi
    obtain ⟨key, hsite⟩ := hkey e hmem (by simpa using hplaceholder)
    obtain ⟨first, j, hfirst⟩ := exists_first_placeholder hmem hsite
    obtain ⟨hj, hfirstsite, _⟩ := first_placeholder_spec hfirst
    have hij : j = i := eq_of_same_site hdistinct hj hi hfirstsite hsite
    refine hkept (List.mem_map.mpr ⟨⟨j, key, first, parse_arity first.edge.rule⟩, ?_, hij⟩)
    exact mem_collect_indirect_sites.mpr ⟨hfirst, rfl⟩

/-! ### The edges after the pass -/

/-- An edge to a candidate that was chosen by signature. -/
def is_sig_edge (e : EdgeWithProvenance) : Bool :=
  is_indirect_kind e.edge.kind && decide (e.edge.rule = SIG_RULE)

/-- What an edge says of the call that it stands for. -/
structure SigCall where
  key : Option SiteKey
  dst : NodeId
  condition : EdgeCondition
  stmt_index : Option UInt32
deriving DecidableEq

def sig_call (e : EdgeWithProvenance) : SigCall :=
  ⟨site_key e, e.edge.dst, e.edge.condition, e.edge.stmt_index⟩

def sig_calls (g : ResolvedGraph) : List SigCall :=
  (g.edges.filter is_sig_edge).map sig_call

/-- The call of an edge, to another target. -/
def call_to (e : EdgeWithProvenance) (dst : NodeId) : SigCall :=
  { sig_call e with dst := dst }

/-- The calls that take the place of a placeholder: one for each candidate. -/
def calls_for (g : ResolvedGraph) (e : EdgeWithProvenance) : List SigCall :=
  (compatible g (lang_of g e.edge.src) (parse_arity e.edge.rule)).map (call_to e)

/-- What does not look at the numbers of the edges is the same for stems. -/
theorem map_filter_stem {α : Type} {p : EdgeWithProvenance → Bool} {f : EdgeWithProvenance → α}
    (hp : ∀ e, p (stem e) = p e) (hf : ∀ e, f (stem e) = f e) (l : List EdgeWithProvenance) :
    ((l.map stem).filter p).map f = (l.filter p).map f := by
  rw [List.filter_map, List.map_map]
  have hp' : p ∘ stem = p := funext hp
  have hf' : f ∘ stem = f := funext hf
  rw [hp', hf']

@[simp] theorem nodes_run_sig : (run_sig g).1.nodes = g.nodes := by
  rw [run_sig]
  split <;> rfl

theorem perm_run_sig_stems :
    ((run_sig g).1.edges.map stem).Perm
      ((remove_edges_at ((collect_indirect_sites g).map IndirectSite.edge_index) g.edges ++
        (sig_replacements g).flatMap fun r => r.dsts.map (build_sig_edge r)).map stem) := by
  rw [run_sig]
  split
  · rename_i hnone
    rw [hnone, List.map_nil, remove_edges_at_nil, sig_replacements, hnone, List.filterMap_nil, number_groups,
      List.flatMap_nil, List.append_nil]
  · exact perm_canonicalize_stems _

theorem is_placeholder_sig_edge (r : Replacement) (dst : NodeId) : is_placeholder (build_sig_edge r dst) = false := by
  have hrule : INDIRECT_RULE_PREFIX.toList.isPrefixOf SIG_RULE.toList = false := by decide
  rw [is_placeholder]
  exact Bool.and_eq_false_imp.mpr fun _ => hrule

/-- After the pass there is no placeholder exactly if each of them had a site of its own. -/
theorem run_sig_gone_iff (hsites : ∀ e ∈ g.edges, is_placeholder e = true → e.edge.site_id.isSome = true) :
    (∀ e ∈ (run_sig g).1.edges, is_placeholder e = false) ↔ (g.edges.filterMap placeholder_site).Nodup := by
  rw [← placeholders_removed_iff hsites]
  have hstems : ∀ l : List EdgeWithProvenance, (∀ e ∈ l, is_placeholder e = false) ↔
      ∀ e ∈ l.map stem, is_placeholder e = false := by
    intro l
    rw [List.forall_mem_map]
    rfl
  rw [hstems, hstems (remove_edges_at _ _)]
  constructor
  · intro h e he
    refine h e (perm_run_sig_stems.mem_iff.mpr ?_)
    rw [List.map_append]
    exact List.mem_append_left _ he
  · intro h e he
    rw [perm_run_sig_stems.mem_iff, List.map_append] at he
    cases List.mem_append.mp he with
    | inl hold => exact h e hold
    | inr hnew =>
      obtain ⟨e', he', rfl⟩ := List.mem_map.mp hnew
      obtain ⟨r, _, hr⟩ := List.mem_flatMap.mp he'
      obtain ⟨dst, _, rfl⟩ := List.mem_map.mp hr
      exact is_placeholder_sig_edge r dst

/-- Groups aside, the replacements make one call of each site and candidate. -/
theorem flatMap_sig_replacements {β : Type} (f : EdgeWithProvenance → NodeId → β) :
    (sig_replacements g).flatMap (fun r => r.dsts.map (f r.proto)) =
      (collect_indirect_sites g).flatMap fun site =>
        (compatible g (lang_of g site.edge.edge.src) site.arity).map (f site.edge) := by
  have hfields := congrArg (fun l => l.flatMap fun r : SiteKey × EdgeWithProvenance × List NodeId => r.2.2.map (f r.2.1))
    (number_groups_fields (next_group g) ((collect_indirect_sites g).filterMap (sig_replacement g)))
  simp only [List.flatMap_map] at hfields
  rw [sig_replacements, hfields]
  generalize collect_indirect_sites g = sites
  induction sites with
  | nil => rfl
  | cons site rest ih =>
    rw [List.filterMap_cons, List.flatMap_cons, sig_replacement]
    split
    · rename_i hnone
      split at hnone
      · rename_i hnil
        rw [ih, hnil]
        rfl
      · cases hnone
    · rename_i r hsome
      split at hsome
      · cases hsome
      · obtain rfl := Option.some.inj hsome
        rw [List.flatMap_cons, ih]

theorem is_placeholder_proto {r : Replacement} (hr : r ∈ sig_replacements g) : is_placeholder r.proto = true := by
  have hmem : (r.key, r.proto, r.dsts) ∈ (sig_replacements g).map fun r => (r.key, r.proto, r.dsts) :=
    List.mem_map_of_mem hr
  rw [sig_replacements, number_groups_fields] at hmem
  obtain ⟨r', hr', heq⟩ := List.mem_map.mp hmem
  obtain ⟨site, hsite, hsome⟩ := List.mem_filterMap.mp hr'
  have hproto : r'.proto = site.edge := by
    rw [sig_replacement] at hsome
    split at hsome
    · cases hsome
    · rw [← Option.some.inj hsome]
  obtain ⟨_, hkey, _⟩ := first_placeholder_spec (mem_collect_indirect_sites.mp hsite).1
  rw [← (Prod.mk.inj (Prod.mk.inj heq).2).1, hproto]
  exact (placeholder_site_eq_some.mp hkey).1

/-- The candidate edges after the pass are those that replace the sites. -/
theorem perm_sig_calls (hnone : ∀ e ∈ g.edges, is_sig_edge e = false) :
    (sig_calls (run_sig g).1).Perm
      (((collect_indirect_sites g).map IndirectSite.edge).flatMap (calls_for g)) := by
  have hstem := fun l => map_filter_stem (p := is_sig_edge) (f := sig_call) (fun _ => rfl) (fun _ => rfl) l
  have hperm := (perm_run_sig_stems (g := g)).filter is_sig_edge |>.map sig_call
  rw [hstem, hstem, List.filter_append, List.map_append] at hperm
  have hold : (remove_edges_at ((collect_indirect_sites g).map IndirectSite.edge_index) g.edges).filter is_sig_edge = [] := by
    rw [List.filter_eq_nil_iff]
    intro e he
    obtain ⟨i, hi, _⟩ := mem_remove_edges_at.mp he
    rw [hnone e (List.mem_of_getElem? hi)]
    exact Bool.false_ne_true
  have hnew : ((sig_replacements g).flatMap fun r => r.dsts.map (build_sig_edge r)).filter is_sig_edge =
      (sig_replacements g).flatMap fun r => r.dsts.map (build_sig_edge r) := by
    rw [List.filter_eq_self]
    intro e he
    obtain ⟨r, hr, he⟩ := List.mem_flatMap.mp he
    obtain ⟨dst, _, rfl⟩ := List.mem_map.mp he
    have hkind := (Bool.and_eq_true_iff.mp (is_placeholder_proto hr)).1
    exact Bool.and_eq_true_iff.mpr ⟨hkind, decide_eq_true rfl⟩
  rw [hold, hnew, List.map_nil, List.nil_append] at hperm
  have hcalls : ((sig_replacements g).flatMap fun r => r.dsts.map (build_sig_edge r)).map sig_call =
      ((collect_indirect_sites g).map IndirectSite.edge).flatMap (calls_for g) := by
    rw [List.map_flatMap, List.flatMap_map]
    have hrow : ∀ r : Replacement, (r.dsts.map (build_sig_edge r)).map sig_call =
        r.dsts.map (call_to r.proto) := by
      intro r
      rw [List.map_map]
      rfl
    simp only [hrow]
    rw [flatMap_sig_replacements]
    apply List.flatMap_congr
    intro site hsite
    rw [calls_for, (mem_collect_indirect_sites.mp hsite).2]
  rw [hcalls] at hperm
  exact hperm

/-- When each placeholder has a site of its own, all of them are collected. -/
theorem perm_collected (hdistinct : (g.edges.filterMap placeholder_site).Nodup)
    (hsites : ∀ e ∈ g.edges, is_placeholder e = true → e.edge.site_id.isSome = true) :
    ((collect_indirect_sites g).map IndirectSite.edge).Perm (g.edges.filter is_placeholder) := by
  have hkeys : (sort_by site_key_cmp (g.edges.filterMap placeholder_site).dedup).Perm
      (g.edges.filterMap placeholder_site) := by
    rw [hdistinct.dedup]
    exact perm_sort_by _
  have hedges : (collect_indirect_sites g).map IndirectSite.edge =
      (sort_by site_key_cmp (g.edges.filterMap placeholder_site).dedup).filterMap fun key =>
        (first_placeholder g key).map Prod.fst := by
    rw [collect_indirect_sites, List.map_filterMap]
    simp only [Option.map_map]
    rfl
  rw [hedges]
  refine (hkeys.filterMap _).trans (.of_eq ?_)
  rw [List.filterMap_filterMap, ← List.filterMap_eq_filter]
  apply List.filterMap_congr
  intro e he
  rw [Option.guard]
  split
  · rename_i hplaceholder
    obtain ⟨site_id, hid⟩ := Option.isSome_iff_exists.mp (hsites e he hplaceholder)
    have hkey : placeholder_site e = some (e.edge.src, site_id) :=
      placeholder_site_eq_some.mpr ⟨hplaceholder, by rw [site_key, hid, Option.map_some]⟩
    rw [hkey, Option.bind_some]
    obtain ⟨first, j, hfirst⟩ := exists_first_placeholder he hkey
    obtain ⟨hj, hfirstkey, _⟩ := first_placeholder_spec hfirst
    rw [hfirst, Option.map_some]
    obtain ⟨i, hi⟩ := List.mem_iff_getElem?.mp he
    rw [eq_of_same_site hdistinct hj hi hfirstkey hkey, hi] at hj
    exact hj.symm
  · rename_i hplaceholder
    rw [placeholder_site, if_neg hplaceholder, Option.bind_none]

end cgx.resolve
