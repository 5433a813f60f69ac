import Cgx.Diff.Diff

open cgx.core cgx.store sorted_map Std

namespace cgx.diff

section

variable (g : LinkedGraph)

/-- The edges of one identity, in canonical order. -/
def edges_at (identity : EdgeIdentity) : List EdgeRecord :=
  g.edges.filter fun e => (identity_of g e).map Prod.fst = some identity

/-- The last edge of an identity in canonical order, which stands for all of them. -/
def representative (identity : EdgeIdentity) : Option EdgeRecord :=
  (edges_at g identity).getLast?

end

variable {g base head : LinkedGraph}

/-! ### The indexes -/

theorem mem_edges_at {identity : EdgeIdentity} {e : EdgeRecord} :
    e ∈ edges_at g identity ↔ e ∈ g.edges ∧ ∃ line, identity_of g e = some (identity, line) := by
  rw [edges_at, List.mem_filter, decide_eq_true_eq, Option.map_eq_some_iff]
  constructor
  · rintro ⟨he, ⟨_, line⟩, hid, rfl⟩
    exact ⟨he, line, hid⟩
  · rintro ⟨he, line, hid⟩
    exact ⟨he, (identity, line), hid, rfl⟩

theorem representative_mem {identity : EdgeIdentity} {e : EdgeRecord} (h : representative g identity = some e) :
    e ∈ edges_at g identity :=
  List.mem_of_getLast? h

theorem representative_eq_none {identity : EdgeIdentity} :
    representative g identity = none ↔ ∀ e ∈ g.edges, ∀ line, identity_of g e ≠ some (identity, line) := by
  rw [representative, List.getLast?_eq_none_iff, List.eq_nil_iff_forall_not_mem]
  constructor
  · exact fun h e he line hid => h e (mem_edges_at.mpr ⟨he, line, hid⟩)
  · intro h e he
    obtain ⟨hmem, line, hid⟩ := mem_edges_at.mp he
    exact h e hmem line hid

/-- The index holds the representative of every identity, with its line. -/
theorem mem_index_edges {identity : EdgeIdentity} {e : EdgeRecord} {line : UInt32} :
    (identity, e, line) ∈ index_edges g ↔
      representative g identity = some e ∧ identity_of g e = some (identity, line) := by
  rw [index_edges, mem_of_list, representative, edges_at]
  induction g.edges using List.reverseRecOn with
  | nil => simp
  | append_singleton edges last ih =>
    rw [List.filterMap_append, List.filter_append, List.filter_append]
    cases hid : identity_of g last with
    | none =>
      rw [List.filterMap_cons_none (by rw [hid]; rfl), List.filterMap_nil, List.filter_nil, List.append_nil,
        List.filter_cons_of_neg (by simp [hid]), List.filter_nil, List.append_nil]
      exact ih
    | some i =>
      rw [List.filterMap_cons_some (by rw [hid]; rfl), List.filterMap_nil]
      by_cases hkey : i.1 = identity
      · rw [List.filter_cons_of_pos (by simpa using hkey), List.filter_nil, List.getLast?_concat,
          List.filter_cons_of_pos (by simpa [hid] using hkey), List.filter_nil, List.getLast?_concat,
          Option.some_inj, Option.some_inj]
        constructor
        · intro h
          obtain ⟨h₁, h₂, h₃⟩ := by simpa using h
          subst h₂
          exact ⟨rfl, by rw [hid, ← h₁, ← h₃]⟩
        · rintro ⟨rfl, hid'⟩
          rw [hid] at hid'
          cases hid'
          rfl
      · rw [List.filter_cons_of_neg (by simpa using hkey), List.filter_nil, List.append_nil,
          List.filter_cons_of_neg (by simpa [hid] using hkey), List.filter_nil, List.append_nil]
        exact ih

theorem sorted_index_edges : Sorted EdgeIdentity.cmp (index_edges g) :=
  sorted_of_list _

/-- An identity is in the index when an edge has it. -/
theorem exists_mem_index_edges {identity : EdgeIdentity} {e : EdgeRecord}
    (h : representative g identity = some e) : ∃ line, (identity, e, line) ∈ index_edges g := by
  obtain ⟨_, line, hid⟩ := mem_edges_at.mp (representative_mem h)
  exact ⟨line, mem_index_edges.mpr ⟨h, hid⟩⟩

theorem get?_index_edges_none {identity : EdgeIdentity} :
    get? EdgeIdentity.cmp identity (index_edges g) = none ↔ representative g identity = none := by
  rw [get?_eq_none]
  constructor
  · intro h
    cases hrep : representative g identity with
    | none => rfl
    | some e =>
      obtain ⟨line, hmem⟩ := exists_mem_index_edges hrep
      exact absurd hmem (h (e, line))
  · rintro h ⟨e, line⟩ hmem
    rw [(mem_index_edges.mp hmem).1] at h
    cases h

/-! ### What the lists hold -/

theorem mem_edges_only {d : DiffEdge} {here there : LinkedGraph} :
    d ∈ edges_only (index_edges here) (index_edges there) ↔
      representative here d.identity = some d.record ∧
        identity_of here d.record = some (d.identity, d.line) ∧ representative there d.identity = none := by
  rw [edges_only, List.mem_filterMap]
  constructor
  · rintro ⟨⟨identity, record, line⟩, hmem, hnone⟩
    dsimp only at hnone
    split at hnone
    · rename_i hget
      cases hnone
      obtain ⟨hrep, hid⟩ := mem_index_edges.mp hmem
      exact ⟨hrep, hid, get?_index_edges_none.mp hget⟩
    · cases hnone
  · rintro ⟨hrep, hid, hnone⟩
    refine ⟨(d.identity, d.record, d.line), mem_index_edges.mpr ⟨hrep, hid⟩, ?_⟩
    dsimp only
    rw [get?_index_edges_none.mpr hnone]

theorem mem_changed_edges {c : ChangedEdge} : c ∈ (diff_graphs base head).changed_edges ↔
    representative base c.identity = some c.base ∧ representative head c.identity = some c.head ∧
      c.changes = classify_change c.base c.head ∧ c.changes.any = true := by
  change c ∈ List.filterMap _ (index_edges head) ↔ _
  rw [List.mem_filterMap]
  constructor
  · rintro ⟨⟨identity, h_edge, line⟩, hmem, hchanged⟩
    dsimp only at hchanged
    split at hchanged
    · cases hchanged
    · rename_i b_edge b_line hget
      split at hchanged
      · rename_i hany
        cases hchanged
        have hbase := mem_index_edges.mp ((get?_eq_some sorted_index_edges).mp hget)
        exact ⟨hbase.1, (mem_index_edges.mp hmem).1, rfl, hany⟩
      · cases hchanged
  · obtain ⟨identity, b_edge, h_edge, changes⟩ := c
    rintro ⟨hbase, hhead, hchanges, hany⟩
    dsimp only at hbase hhead hchanges hany
    subst hchanges
    obtain ⟨b_line, hbmem⟩ := exists_mem_index_edges hbase
    obtain ⟨h_line, hhmem⟩ := exists_mem_index_edges hhead
    refine ⟨(identity, h_edge, h_line), hhmem, ?_⟩
    dsimp only
    rw [(get?_eq_some sorted_index_edges).mpr hbmem]
    dsimp only
    rw [if_pos hany]

theorem any_classify_change {b h : EdgeRecord} : (classify_change b h).any = false ↔
    b.condition = h.condition ∧ b.confidence = h.confidence ∧ b.tier = h.tier ∧
      b.candidate_group = h.candidate_group ∧ b.cfg_condition = h.cfg_condition := by
  simp only [EdgeChanges.any, classify_change, Bool.or_eq_false_iff, decide_eq_false_iff_not, ne_eq,
    Decidable.not_not, and_assoc]

/-! ### Symbols -/

/-- The names of a graph's symbols. -/
def Named (g : LinkedGraph) (fqn : String) : Prop :=
  ∃ n ∈ g.nodes, n.fqn = fqn

theorem exists_mem_index_nodes {fqn : String} : (∃ node, (fqn, node) ∈ index_nodes g) ↔ Named g fqn := by
  rw [index_nodes, exists_mem_of_list, Named]
  constructor
  · rintro ⟨e, he, rfl⟩
    obtain ⟨n, hn, rfl⟩ := List.mem_map.mp he
    exact ⟨n, hn, rfl⟩
  · rintro ⟨n, hn, rfl⟩
    exact ⟨(n.fqn, n), List.mem_map_of_mem hn, rfl⟩

/-- The names on one side only are the listed ones. -/
theorem exists_mem_nodes_only {here there : LinkedGraph} {fqn : String} :
    (∃ d ∈ nodes_only (index_nodes here) (index_nodes there), d.fqn = fqn) ↔
      Named here fqn ∧ ¬ Named there fqn := by
  have hnone : get? compare fqn (index_nodes there) = none ↔ ∀ node, (fqn, node) ∉ index_nodes there := get?_eq_none
  rw [← exists_mem_index_nodes, ← exists_mem_index_nodes, not_exists, ← hnone]
  constructor
  · rintro ⟨d, hd, rfl⟩
    rw [nodes_only, List.mem_filterMap] at hd
    obtain ⟨⟨fqn, node⟩, hmem, hlisted⟩ := hd
    dsimp only at hlisted
    split at hlisted
    · rename_i hget
      cases hlisted
      exact ⟨⟨node, hmem⟩, hget⟩
    · cases hlisted
  · rintro ⟨⟨node, hmem⟩, hget⟩
    refine ⟨⟨fqn, node⟩, List.mem_filterMap.mpr ⟨(fqn, node), hmem, ?_⟩, rfl⟩
    dsimp only
    rw [hget]

/-! ### Exactness -/

/-- What an edge says, apart from its identity and its group. -/
def meaning (e : EdgeRecord) : EdgeCondition × Confidence × Tier × Option String :=
  (e.condition, e.confidence, e.tier, e.cfg_condition)

/-- Two graphs with the same names whose representatives say the same and are grouped the
same way. -/
structure SameGraph (base head : LinkedGraph) : Prop where
  names : ∀ fqn, Named base fqn ↔ Named head fqn
  edges : ∀ identity, Option.Rel (fun b h => meaning b = meaning h)
    (representative base identity) (representative head identity)
  lone : ∀ identity, (edges_at base identity).length ≤ 1 → (edges_at head identity).length ≤ 1 →
    (edges_at base identity).map meaning = (edges_at head identity).map meaning
  groups : ∀ i j b b' h h', representative base i = some b → representative base j = some b' →
    representative head i = some h → representative head j = some h' →
      (b.candidate_group = none ↔ h.candidate_group = none) ∧
        (b.candidate_group = b'.candidate_group ↔ h.candidate_group = h'.candidate_group)

def ChangedEdge.swap (c : ChangedEdge) : ChangedEdge :=
  { c with base := c.head, head := c.base }

/-- The diff read in the other direction. -/
def GraphDiff.swap (d : GraphDiff) : GraphDiff where
  added_edges := d.removed_edges
  removed_edges := d.added_edges
  changed_edges := d.changed_edges.map ChangedEdge.swap
  added_nodes := d.removed_nodes
  removed_nodes := d.added_nodes

/-- What a diff is worth: it is empty only between graphs whose representatives agree, it
lists every name and identity of one side and every representative that says something
else, and it reads the same in both directions. -/
structure DiffExact (base head : LinkedGraph) : Prop where
  same_of_empty : (diff_graphs base head).is_empty = true → SameGraph base head
  empty_of_same : (∀ fqn, Named base fqn ↔ Named head fqn) →
    (∀ identity, Option.Rel (fun b h => meaning b = meaning h ∧ b.candidate_group = h.candidate_group)
      (representative base identity) (representative head identity)) → (diff_graphs base head).is_empty = true
  added : ∀ e ∈ head.edges, ∃ identity line, identity_of head e = some (identity, line) ∧
    (edges_at base identity = [] → ∃ d ∈ (diff_graphs base head).added_edges, d.identity = identity)
  removed : ∀ e ∈ base.edges, ∃ identity line, identity_of base e = some (identity, line) ∧
    (edges_at head identity = [] → ∃ d ∈ (diff_graphs base head).removed_edges, d.identity = identity)
  changed : ∀ identity b h, representative base identity = some b → representative head identity = some h →
    meaning b ≠ meaning h →
      ∃ c ∈ (diff_graphs base head).changed_edges, c.identity = identity ∧ c.base = b ∧ c.head = h
  swapped : diff_graphs head base = (diff_graphs base head).swap

theorem identity_of_canonical (h : Canonical g) {e : EdgeRecord} (he : e ∈ g.edges) :
    ∃ identity line, identity_of g e = some (identity, line) := by
  obtain ⟨hsrc, hdst⟩ := h.edge_ends e he
  rw [identity_of, List.getElem?_eq_getElem hsrc, List.getElem?_eq_getElem hdst]
  exact ⟨_, _, rfl⟩

theorem edges_only_eq_nil {here there : LinkedGraph} :
    edges_only (index_edges here) (index_edges there) = [] ↔
      ∀ identity, representative there identity = none → representative here identity = none := by
  rw [List.eq_nil_iff_forall_not_mem]
  constructor
  · intro h identity hnone
    cases hrep : representative here identity with
    | none => rfl
    | some e =>
      obtain ⟨_, line, hid⟩ := mem_edges_at.mp (representative_mem hrep)
      exact absurd (mem_edges_only.mpr ⟨hrep, hid, hnone⟩) (h ⟨identity, e, line⟩)
  · intro h d hd
    obtain ⟨hrep, _, hnone⟩ := mem_edges_only.mp hd
    rw [h d.identity hnone] at hrep
    cases hrep

theorem nodes_only_eq_nil {here there : LinkedGraph} :
    nodes_only (index_nodes here) (index_nodes there) = [] ↔ ∀ fqn, Named here fqn → Named there fqn := by
  rw [List.eq_nil_iff_forall_not_mem]
  constructor
  · intro h fqn hhere
    by_contra hthere
    obtain ⟨d, hd, _⟩ := exists_mem_nodes_only.mpr ⟨hhere, hthere⟩
    exact h d hd
  · intro h d hd
    obtain ⟨hhere, hthere⟩ := exists_mem_nodes_only.mp ⟨d, hd, rfl⟩
    exact hthere (h d.fqn hhere)

theorem changed_edges_eq_nil : (diff_graphs base head).changed_edges = [] ↔
    ∀ identity b h, representative base identity = some b → representative head identity = some h →
      meaning b = meaning h ∧ b.candidate_group = h.candidate_group := by
  rw [List.eq_nil_iff_forall_not_mem]
  constructor
  · intro hnil identity b h hb hh
    cases hany : (classify_change b h).any with
    | true => exact absurd (mem_changed_edges.mpr ⟨hb, hh, rfl, hany⟩) (hnil ⟨identity, b, h, classify_change b h⟩)
    | false =>
      obtain ⟨hcondition, hconfidence, htier, hgroup, hcfg⟩ := any_classify_change.mp hany
      exact ⟨by rw [meaning, hcondition, hconfidence, htier, hcfg, meaning], hgroup⟩
  · intro h c hc
    obtain ⟨hb, hh, hchanges, hany⟩ := mem_changed_edges.mp hc
    obtain ⟨hmeaning, hgroup⟩ := h c.identity c.base c.head hb hh
    simp only [meaning, Prod.mk.injEq] at hmeaning
    obtain ⟨hcondition, hconfidence, htier, hcfg⟩ := hmeaning
    rw [hchanges, any_classify_change.mpr ⟨hcondition, hconfidence, htier, hgroup, hcfg⟩] at hany
    cases hany

/-- A diff is empty when the names agree and the representatives agree in everything that
is compared. -/
theorem is_empty_iff : (diff_graphs base head).is_empty = true ↔
    (∀ fqn, Named base fqn ↔ Named head fqn) ∧
      ∀ identity, Option.Rel (fun b h => meaning b = meaning h ∧ b.candidate_group = h.candidate_group)
        (representative base identity) (representative head identity) := by
  have hparts : (diff_graphs base head).is_empty = true ↔
      edges_only (index_edges head) (index_edges base) = [] ∧
        edges_only (index_edges base) (index_edges head) = [] ∧ (diff_graphs base head).changed_edges = [] ∧
          nodes_only (index_nodes head) (index_nodes base) = [] ∧
            nodes_only (index_nodes base) (index_nodes head) = [] := by
    simp only [GraphDiff.is_empty, Bool.and_eq_true, List.isEmpty_iff, and_assoc]
    rfl
  rw [hparts, edges_only_eq_nil, edges_only_eq_nil, changed_edges_eq_nil, nodes_only_eq_nil, nodes_only_eq_nil]
  constructor
  · rintro ⟨hadded, hremoved, hchanged, hnew, hgone⟩
    refine ⟨fun fqn => ⟨hgone fqn, hnew fqn⟩, fun identity => ?_⟩
    cases hb : representative base identity with
    | none =>
      rw [hadded identity hb]
      exact .none
    | some b =>
      cases hh : representative head identity with
      | none =>
        rw [hremoved identity hh] at hb
        cases hb
      | some h => exact .some (hchanged identity b h hb hh)
  · rintro ⟨hnames, hedges⟩
    refine ⟨?_, ?_, ?_, fun fqn => (hnames fqn).mpr, fun fqn => (hnames fqn).mp⟩
    · intro identity hnone
      have hrel := hedges identity
      rw [hnone] at hrel
      cases hhead : representative head identity with
      | none => rfl
      | some h =>
        rw [hhead] at hrel
        cases hrel
    · intro identity hnone
      have hrel := hedges identity
      rw [hnone] at hrel
      cases hbase : representative base identity with
      | none => rfl
      | some b =>
        rw [hbase] at hrel
        cases hrel
    · intro identity b h hb hh
      have hrel := hedges identity
      rw [hb, hh] at hrel
      cases hrel with
      | some hsame => exact hsame

/-- Rows in ascending order of their keys keep it where a part of them is kept under its key. -/
theorem pairwise_filterMap_of_key {α β κ : Type} {cmp : κ → κ → Ordering} {key : α → κ} {key' : β → κ} {f : α → Option β}
    (hkey : ∀ a b, f a = some b → key' b = key a) {rows : List α}
    (h : rows.Pairwise fun a a' => cmp (key a) (key a') = .lt) :
    (rows.filterMap f).Pairwise fun b b' => cmp (key' b) (key' b') = .lt := by
  refine List.Pairwise.filterMap f (fun a a' hlt b hb b' hb' => ?_) h
  rw [hkey a b hb, hkey a' b' hb']
  exact hlt

theorem swap_changed : (diff_graphs head base).changed_edges =
    (diff_graphs base head).changed_edges.map ChangedEdge.swap := by
  have hascending : ∀ base head : LinkedGraph, (diff_graphs base head).changed_edges.Pairwise
      fun a b => EdgeIdentity.cmp a.identity b.identity = .lt := by
    intro base head
    change (List.filterMap _ (index_edges head)).Pairwise _
    refine pairwise_filterMap_of_key ?_ sorted_index_edges
    rintro ⟨identity, h_edge, index⟩ c hc
    dsimp only at hc
    split at hc
    · cases hc
    · split at hc
      · cases hc
        rfl
      · cases hc
  have hswap : ∀ b h : EdgeRecord, classify_change b h = classify_change h b := by
    intro b h
    simp only [classify_change, ne_comm]
  refine eq_of_ascending (hascending head base) (List.pairwise_map.mpr (hascending base head)) ?_
  intro c
  rw [List.mem_map, mem_changed_edges]
  constructor
  · rintro ⟨hb, hh, hchanges, hany⟩
    rw [hswap] at hchanges
    exact ⟨c.swap, mem_changed_edges.mpr ⟨hh, hb, hchanges, hany⟩, rfl⟩
  · rintro ⟨c, hc, rfl⟩
    obtain ⟨hb, hh, hchanges, hany⟩ := mem_changed_edges.mp hc
    rw [hswap] at hchanges
    exact ⟨hh, hb, hchanges, hany⟩

theorem map_meaning_lone {identity : EdgeIdentity} (hlone : (edges_at g identity).length ≤ 1) :
    (edges_at g identity).map meaning = ((representative g identity).map meaning).toList := by
  rw [representative]
  cases hedges : edges_at g identity with
  | nil => rfl
  | cons e rest =>
    rw [hedges, List.length_cons] at hlone
    have hrest : rest = [] := List.length_eq_zero_iff.mp (by omega)
    rw [hrest]
    rfl

theorem same_of_is_empty (h : (diff_graphs base head).is_empty = true) : SameGraph base head := by
  obtain ⟨hnames, hedges⟩ := is_empty_iff.mp h
  have hsame : ∀ {identity b h}, representative base identity = some b → representative head identity = some h →
      meaning b = meaning h ∧ b.candidate_group = h.candidate_group := by
    intro identity b h hb hh
    have hrel := hedges identity
    rw [hb, hh] at hrel
    cases hrel with
    | some hsame => exact hsame
  refine ⟨hnames, ?_, ?_, ?_⟩
  · intro identity
    have hrel := hedges identity
    generalize representative base identity = b at hrel
    generalize representative head identity = h at hrel
    cases hrel with
    | none => exact .none
    | some hsame => exact .some hsame.1
  · intro identity hbase hhead
    rw [map_meaning_lone hbase, map_meaning_lone hhead]
    have hrel := hedges identity
    generalize representative base identity = b at hrel
    generalize representative head identity = h at hrel
    cases hrel with
    | none => rfl
    | some hsame => rw [Option.map_some, Option.map_some, hsame.1]
  · intro i j b b' h h' hb hb' hh hh'
    rw [(hsame hb hh).2, (hsame hb' hh').2]
    exact ⟨.rfl, .rfl⟩

/-- Between canonical graphs a diff is exact for the representatives of the identities. -/
theorem diff_exact (hbase : check_canonical base = .ok ()) (hhead : check_canonical head = .ok ()) :
    DiffExact base head := by
  have hunlisted : ∀ {here there : LinkedGraph} {identity line} {e : EdgeRecord}, e ∈ here.edges →
      identity_of here e = some (identity, line) → edges_at there identity = [] →
        ∃ d ∈ edges_only (index_edges here) (index_edges there), d.identity = identity := by
    intro here there identity line e he hid hnone
    cases hrep : representative here identity with
    | none => exact absurd hid (representative_eq_none.mp hrep e he line)
    | some rep =>
      obtain ⟨_, line', hid'⟩ := mem_edges_at.mp (representative_mem hrep)
      have hthere : representative there identity = none := by rw [representative, hnone]; rfl
      exact ⟨⟨identity, rep, line'⟩, mem_edges_only.mpr ⟨hrep, hid', hthere⟩, rfl⟩
  refine ⟨same_of_is_empty, fun hnames hedges => is_empty_iff.mpr ⟨hnames, hedges⟩, ?_, ?_, ?_, ?_⟩
  · intro e he
    obtain ⟨identity, line, hid⟩ := identity_of_canonical (canonical_of_check hhead) he
    exact ⟨identity, line, hid, hunlisted he hid⟩
  · intro e he
    obtain ⟨identity, line, hid⟩ := identity_of_canonical (canonical_of_check hbase) he
    exact ⟨identity, line, hid, hunlisted he hid⟩
  · intro identity b h hb hh hne
    cases hany : (classify_change b h).any with
    | true => exact ⟨⟨identity, b, h, classify_change b h⟩, mem_changed_edges.mpr ⟨hb, hh, rfl, hany⟩, rfl, rfl, rfl⟩
    | false =>
      obtain ⟨hcondition, hconfidence, htier, _, hcfg⟩ := any_classify_change.mp hany
      exact absurd (by rw [meaning, hcondition, hconfidence, htier, hcfg, meaning]) hne
  · rw [GraphDiff.swap, ← swap_changed]
    rfl

/-! ### Parallel edges -/

namespace sample

def symbol (i : Nat) (fqn : String) : NodeRecord :=
  { (default : NodeRecord) with id := .ofIndex i, fqn, file := "a.rs", line_start := .ofNat i }

/-- A call and its exceptional twin, which share an identity. -/
def call (id : Nat) (condition : EdgeCondition) (confidence : Confidence) : EdgeRecord :=
  { (default : EdgeRecord) with id := ⟨.ofNat id⟩, src := ⟨0⟩, dst := ⟨1⟩, condition, confidence }

def twins (confidence : Confidence) : LinkedGraph where
  nodes := [symbol 0 "p::f", symbol 1 "p::g"]
  edges := [call 0 .Always confidence, call 1 .Exception .Certain]
  candidates := []

end sample

/-- The first of two parallel calls changes and the diff is empty. -/
theorem shadowed_call_is_not_listed : ¬ ∀ base head : LinkedGraph, check_canonical base = .ok () →
    check_canonical head = .ok () → (diff_graphs base head).is_empty = true →
      ∀ identity, ((edges_at base identity).map meaning).Perm ((edges_at head identity).map meaning) := by
  intro h
  have hperm := h (sample.twins .Certain) (sample.twins .Possible) (by decide +kernel) (by decide +kernel)
    (by decide +kernel) ⟨"p::f", "p::g", default, "a.rs", none⟩
  have hmem : (.Always, .Certain, default, none) ∈
      (edges_at (sample.twins .Certain) ⟨"p::f", "p::g", default, "a.rs", none⟩).map meaning := by decide +kernel
  exact absurd (hperm.mem_iff.mp hmem) (by decide +kernel)

theorem diff_exact_twins : DiffExact (sample.twins .Certain) (sample.twins .Possible) :=
  diff_exact (by decide +kernel) (by decide +kernel)

end cgx.diff
