import Cgx.Index.FixedPoint
import Cgx.Lib.Groups
import Cgx.Resolve.Placeholders
import Cgx.Resolve.Cha

open cgx.core cgx.frontend cgx.resolve cgx.store sorting groups

namespace cgx.index

/-! ### The groups of a graph -/

/-- The group of an edge and its target, if it is in a group. -/
def member (e : EdgeWithProvenance) : Option (UInt32 × NodeId) :=
  e.edge.candidate_group.map fun group => (group, e.edge.dst)

def members (edges : List EdgeWithProvenance) : List (UInt32 × NodeId) :=
  edges.filterMap member

def listed_row (c : Candidate) : (UInt32 × NodeId) × UInt32 :=
  ((c.candidate_group, c.dst), c.rank)

/-- The rules that the dispatch passes look at. -/
def pass_rules : List String :=
  [NAME_METHOD_RULE, CHA_RULE, RTA_RULE]

/-- Two edges are candidates of one call: they share its site and kind, and no pass tells
them apart by their rules. -/
structure OneCall (e e' : EdgeWithProvenance) : Prop where
  src : e.edge.src = e'.edge.src
  site_id : e.edge.site_id = e'.edge.site_id
  kind : e.edge.kind = e'.edge.kind
  rule : ∀ rule ∈ pass_rules, e.edge.rule = rule ↔ e'.edge.rule = rule

/-- The edges of a candidate group are candidates of one call with several distinct targets,
and the candidate table has one row for each of them under a rank of its own. -/
structure GroupsSound (edges : List EdgeWithProvenance) (candidates : List Candidate) : Prop where
  balanced : Balanced (members edges) (candidates.map listed_row)
  one_call : ∀ e ∈ edges, ∀ e' ∈ edges, ∀ group, e.edge.candidate_group = some group →
    e'.edge.candidate_group = some group → OneCall e e'
  settled : ∀ e ∈ edges, e.edge.candidate_group.isSome = true → is_placeholder e = false

theorem OneCall.symm {e e' : EdgeWithProvenance} (h : OneCall e e') : OneCall e' e :=
  ⟨h.src.symm, h.site_id.symm, h.kind.symm, fun rule hrule => (h.rule rule hrule).symm⟩

theorem OneCall.virtual_site {e e' : EdgeWithProvenance} (h : OneCall e e') (rule : String) (hrule : rule ∈ pass_rules) :
    virtual_site rule e = virtual_site rule e' := by
  have hiff := h.rule rule hrule
  have hsite : site_key e = site_key e' := by
    rw [site_key, site_key, h.site_id, h.src]
  rw [cgx.resolve.virtual_site, cgx.resolve.virtual_site, h.kind, hsite]
  simp only [hiff]

theorem mem_members {edges : List EdgeWithProvenance} {p : UInt32 × NodeId} :
    p ∈ members edges ↔ ∃ e ∈ edges, e.edge.candidate_group = some p.1 ∧ e.edge.dst = p.2 := by
  rw [members, List.mem_filterMap]
  constructor
  · rintro ⟨e, he, hmember⟩
    obtain ⟨group, hgroup, rfl⟩ := Option.map_eq_some_iff.mp hmember
    exact ⟨e, he, hgroup, rfl⟩
  · rintro ⟨e, he, hgroup, hdst⟩
    exact ⟨e, he, by rw [member, hgroup, hdst]; rfl⟩

theorem member_of_group {e : EdgeWithProvenance} {group : UInt32} (h : e.edge.candidate_group = some group) :
    member e = some (group, e.edge.dst) := by
  rw [member, h]
  rfl

@[simp] theorem members_append (edges edges' : List EdgeWithProvenance) :
    members (edges ++ edges') = members edges ++ members edges' :=
  List.filterMap_append

/-- Members are those of the edges that are in a group. -/
theorem members_eq_nil {edges : List EdgeWithProvenance} (h : ∀ e ∈ edges, e.edge.candidate_group = none) :
    members edges = [] := by
  rw [members, List.filterMap_eq_nil_iff]
  intro e he
  rw [member, h e he]
  rfl

theorem members_length_le (edges : List EdgeWithProvenance) : (members edges).length ≤ edges.length :=
  List.length_filterMap_le _ _

/-- Two edges of a graph with the same group and target are the same edge. -/
theorem eq_of_member {edges : List EdgeWithProvenance} (h : (members edges).Nodup) {e e' : EdgeWithProvenance}
    (he : e ∈ edges) (he' : e' ∈ edges) {p : UInt32 × NodeId} (hp : member e = some p) (hp' : member e' = some p) :
    e = e' := by
  induction edges with
  | nil => cases he
  | cons first rest ih =>
    rw [members, List.filterMap_cons] at h
    have hlater : ∀ later ∈ rest, member later = some p → member first ≠ some p := by
      intro later hlater hmember hfirst
      rw [hfirst] at h
      exact (List.nodup_cons.mp h).1 (List.mem_filterMap.mpr ⟨later, hlater, hmember⟩)
    have hrest : (members rest).Nodup := by
      cases hfirst : member first with
      | none =>
        rw [hfirst] at h
        exact h
      | some q =>
        rw [hfirst] at h
        exact (List.nodup_cons.mp h).2
    obtain rfl | hmem := List.mem_cons.mp he
    · obtain rfl | hmem' := List.mem_cons.mp he'
      · rfl
      · exact absurd hp (hlater e' hmem' hp')
    · obtain rfl | hmem' := List.mem_cons.mp he'
      · exact absurd hp' (hlater e hmem hp)
      · exact ih hrest hmem hmem'

/-! ### Canonical order -/

variable {g : ResolvedGraph}

theorem members_number_at (edges : List EdgeWithProvenance) : members (edges.map (number_at 0)) = members edges := by
  rw [members, List.filterMap_map]
  rfl

theorem members_rename (ρ : UInt32 → UInt32) (edges : List EdgeWithProvenance) :
    members (edges.map fun e => number_at 0 (rename_edge ρ e)) = (members edges).map (Prod.map ρ id) := by
  rw [members, members, List.filterMap_map, List.map_filterMap]
  congr 1
  funext e
  change (e.edge.candidate_group.map ρ).map _ = (e.edge.candidate_group.map _).map _
  cases e.edge.candidate_group <;> rfl

theorem grouped_of_mem_members {p : UInt32 × NodeId} (h : p ∈ members g.edges) : Grouped g p.1 := by
  obtain ⟨e, he, hgroup, _⟩ := mem_members.mp h
  exact .inl (mem_carried_groups.mpr ⟨e, he, hgroup⟩)

/-- Canonical order keeps the groups sound. -/
theorem GroupsSound.canonicalize (h : GroupsSound g.edges g.candidates) :
    GroupsSound (canonicalize g).edges (canonicalize g).candidates where
  balanced := by
    have hrenamed := h.balanced.rename (f := number g) (t := id)
      (fun p hp q hq => number_inj (grouped_of_mem_members hp) (grouped_of_mem_members hq)) fun _ _ _ _ => id
    have hmembers : ((members g.edges).map (Prod.map (number g) id)).Perm (members (cgx.resolve.canonicalize g).edges) := by
      have hperm := (perm_edges_canonicalize g).filterMap member
      rw [← members, ← members, members_number_at, members_rename] at hperm
      exact hperm.symm
    refine hrenamed.perm hmembers ?_
    rw [candidates_canonicalize, List.map_map]
    refine List.Perm.trans (.of_eq ?_) ((perm_sort_by _).map listed_row).symm
    rw [List.map_map]
    rfl
  one_call e he e' he' group hgroup hgroup' := by
    obtain ⟨b, hb, j, rfl⟩ := exists_of_mem_canonicalize he
    obtain ⟨b', hb', j', rfl⟩ := exists_of_mem_canonicalize he'
    obtain ⟨old, hold, heq⟩ := Option.map_eq_some_iff.mp hgroup
    obtain ⟨old', hold', heq'⟩ := Option.map_eq_some_iff.mp hgroup'
    have hsame : old = old' := number_inj (.inl (mem_carried_groups.mpr ⟨b, hb, hold⟩))
      (.inl (mem_carried_groups.mpr ⟨b', hb', hold'⟩)) (heq.trans heq'.symm)
    subst hsame
    have hcall := h.one_call b hb b' hb' old hold hold'
    exact ⟨hcall.src, hcall.site_id, hcall.kind, hcall.rule⟩
  settled e he hsome := by
    obtain ⟨b, hb, j, rfl⟩ := exists_of_mem_canonicalize he
    refine h.settled b hb ?_
    obtain ⟨group, hgroup⟩ := Option.isSome_iff_exists.mp hsome
    obtain ⟨old, hold, _⟩ := Option.map_eq_some_iff.mp hgroup
    rw [hold]
    rfl

/-! ### Dropping and adding groups -/

variable {edges edges' : List EdgeWithProvenance} {candidates candidates' : List Candidate}

/-- Edges without groups change nothing. -/
theorem GroupsSound.of_ungrouped (h : ∀ e ∈ edges, e.edge.candidate_group = none) : GroupsSound edges [] where
  balanced := by
    rw [members_eq_nil h]
    exact .nil
  one_call e he _ _ group hgroup := by
    rw [h e he] at hgroup
    cases hgroup
  settled e he hsome := by
    rw [h e he] at hsome
    cases hsome

theorem members_filter {keep : EdgeWithProvenance → Bool} {kept : UInt32 × NodeId → Bool}
    (h : ∀ e ∈ edges, ∀ p, member e = some p → keep e = kept p) :
    members (edges.filter keep) = (members edges).filter kept := by
  rw [members, members, List.filterMap_filter, List.filter_filterMap]
  apply List.filterMap_congr
  intro e he
  cases hmember : member e with
  | none => simp
  | some p =>
    rw [h e he p hmember, Option.filter_some]

theorem listed_rows_filter (keep : UInt32 × NodeId → Bool) (candidates : List Candidate) :
    (candidates.filter fun c => keep (c.candidate_group, c.dst)).map listed_row =
      (candidates.map listed_row).filter fun r => keep r.1 := by
  rw [List.filter_map]
  rfl

/-- Whole groups can go. -/
theorem GroupsSound.filter_groups (h : GroupsSound edges candidates) (keep : EdgeWithProvenance → Bool)
    (kept : UInt32 → Bool) (hkeep : ∀ e ∈ edges, ∀ group, e.edge.candidate_group = some group → keep e = kept group) :
    GroupsSound (edges.filter keep) (candidates.filter fun c => kept c.candidate_group) where
  balanced := by
    have hmembers : members (edges.filter keep) = (members edges).filter fun p => kept p.1 := by
      apply members_filter
      intro e he p hp
      obtain ⟨group, hgroup, rfl⟩ := Option.map_eq_some_iff.mp hp
      exact hkeep e he group hgroup
    rw [hmembers, listed_rows_filter (fun p => kept p.1)]
    exact h.balanced.filter_groups kept
  one_call e he e' he' := h.one_call e (List.mem_of_mem_filter he) e' (List.mem_of_mem_filter he')
  settled e he := h.settled e (List.mem_of_mem_filter he)

/-- Parts without a common group can be put together. -/
theorem GroupsSound.append (h : GroupsSound edges candidates) (h' : GroupsSound edges' candidates')
    (hapart : ∀ p ∈ members edges, ∀ q ∈ members edges', p.1 ≠ q.1) :
    GroupsSound (edges ++ edges') (candidates ++ candidates') where
  balanced := by
    rw [members_append, List.map_append]
    exact h.balanced.append h'.balanced hapart
  one_call e he e' he' group hgroup hgroup' := by
    have hmember : ∀ {l : List EdgeWithProvenance} {x : EdgeWithProvenance}, x ∈ l →
        x.edge.candidate_group = some group → (group, x.edge.dst) ∈ members l :=
      fun hx hg => mem_members.mpr ⟨_, hx, hg, rfl⟩
    obtain hfirst | hsecond := List.mem_append.mp he
    · obtain hfirst' | hsecond' := List.mem_append.mp he'
      · exact h.one_call e hfirst e' hfirst' group hgroup hgroup'
      · exact (hapart (group, e.edge.dst) (hmember hfirst hgroup) (group, e'.edge.dst) (hmember hsecond' hgroup') rfl).elim
    · obtain hfirst' | hsecond' := List.mem_append.mp he'
      · exact (hapart (group, e'.edge.dst) (hmember hfirst' hgroup') (group, e.edge.dst) (hmember hsecond hgroup) rfl).elim
      · exact h'.one_call e hsecond e' hsecond' group hgroup hgroup'
  settled e he := (List.mem_append.mp he).elim (h.settled e) (h'.settled e)

/-! ### New groups -/

/-- The candidate edges of replacements. -/
def candidate_edges (rule : String) (confidence : Replacement → Confidence) (replacements : List Replacement) :
    List EdgeWithProvenance :=
  replacements.flatMap fun r => r.dsts.map (candidate_edge rule (confidence r) r)

/-- One edge to each of several distinct targets, all candidates of one call. -/
theorem GroupsSound.of_targets {f : NodeId → EdgeWithProvenance} {group : UInt32} {dsts : List NodeId}
    (hmember : ∀ dst, member (f dst) = some (group, dst)) (hcall : ∀ dst dst', OneCall (f dst) (f dst'))
    (hsettled : ∀ dst, is_placeholder (f dst) = false) (hnodup : dsts.Nodup) (hseveral : 1 < dsts.length)
    (hroom : dsts.length ≤ 2 ^ 32) :
    GroupsSound (dsts.map f) (dsts.mapIdx fun rank dst => ⟨group, dst, UInt32.ofNat rank⟩) where
  balanced := by
    have hmembers : members (dsts.map f) = dsts.map fun dst => (group, dst) := by
      have hcomp : member ∘ f = some ∘ fun dst => (group, dst) := funext hmember
      rw [members, List.filterMap_map, hcomp, ← List.filterMap_map, List.filterMap_some]
    have hrows : (dsts.mapIdx fun rank dst => (⟨group, dst, UInt32.ofNat rank⟩ : Candidate)).map listed_row =
        ranked_rows UInt32.ofNat group dsts := by
      rw [ranked_rows, List.mapIdx_eq_zipIdx_map, List.map_map, List.mapIdx_eq_zipIdx_map]
      rfl
    rw [hmembers, hrows]
    apply Balanced.of_group hnodup hseveral
    intro i j hi hj heq
    have hnat := congrArg UInt32.toNat heq
    rw [UInt32.toNat_ofNat_of_lt' (Nat.lt_of_lt_of_le hi hroom),
      UInt32.toNat_ofNat_of_lt' (Nat.lt_of_lt_of_le hj hroom)] at hnat
    exact hnat
  one_call e he e' he' _ _ _ := by
    obtain ⟨dst, _, rfl⟩ := List.mem_map.mp he
    obtain ⟨dst', _, rfl⟩ := List.mem_map.mp he'
    exact hcall dst dst'
  settled e he _ := by
    obtain ⟨dst, _, rfl⟩ := List.mem_map.mp he
    exact hsettled dst

/-- The edges of one replacement with a group. -/
theorem GroupsSound.of_replacement {rule : String} (hrule : INDIRECT_RULE_PREFIX.toList.isPrefixOf rule.toList = false)
    (confidence : Confidence) {r : Replacement} {group : UInt32} (hgroup : r.group = some group) (hnodup : r.dsts.Nodup)
    (hseveral : 1 < r.dsts.length) (hroom : r.dsts.length ≤ 2 ^ 32) :
    GroupsSound (r.dsts.map (candidate_edge rule confidence r)) r.rows := by
  have hrows : r.rows = r.dsts.mapIdx fun rank dst => ⟨group, dst, UInt32.ofNat rank⟩ := by
    rw [Replacement.rows, hgroup]
  rw [hrows]
  apply GroupsSound.of_targets
  · exact fun dst => member_of_group hgroup
  · exact fun dst dst' => ⟨rfl, rfl, rfl, fun _ _ => Iff.rfl⟩
  · exact fun dst => Bool.and_eq_false_imp.mpr fun _ => hrule
  · exact hnodup
  · exact hseveral
  · exact hroom

/-- The replacements that get a group. -/
def several (replacements : List Replacement) : Nat :=
  replacements.countP fun r => 1 < r.dsts.length

/-- Numbered replacements are sound, and their groups are at least the first number. -/
theorem number_groups_sound {rule : String} (hrule : INDIRECT_RULE_PREFIX.toList.isPrefixOf rule.toList = false)
    (confidence : Replacement → Confidence) {replacements : List Replacement} (next : UInt32)
    (hnone : ∀ r ∈ replacements, r.group = none)
    (hdsts : ∀ r ∈ replacements, r.dsts.Nodup ∧ r.dsts.length ≤ 2 ^ 32)
    (hroom : next.toNat + several replacements < 2 ^ 32) :
    GroupsSound (candidate_edges rule confidence (number_groups next replacements))
        ((number_groups next replacements).flatMap Replacement.rows) ∧
      ∀ p ∈ members (candidate_edges rule confidence (number_groups next replacements)), next.toNat ≤ p.1.toNat := by
  induction replacements generalizing next with
  | nil => exact ⟨.of_ungrouped fun e he => absurd he List.not_mem_nil, fun p hp => absurd hp List.not_mem_nil⟩
  | cons r rest ih =>
    have hrest : ∀ r' ∈ rest, r'.group = none := fun r' hr' => hnone r' (List.mem_cons_of_mem r hr')
    have hdsts' : ∀ r' ∈ rest, r'.dsts.Nodup ∧ r'.dsts.length ≤ 2 ^ 32 :=
      fun r' hr' => hdsts r' (List.mem_cons_of_mem r hr')
    obtain ⟨hnodup, hlength⟩ := hdsts r List.mem_cons_self
    rw [several, List.countP_cons] at hroom
    rw [number_groups]
    split
    case isTrue hseveral =>
      rw [decide_eq_true hseveral, if_pos rfl] at hroom
      have hnext : (next + 1).toNat = next.toNat + 1 := by
        rw [UInt32.toNat_add]
        exact Nat.mod_eq_of_lt (by simp; omega)
      obtain ⟨htail, hbound⟩ := ih (next + 1) hrest hdsts' (by rw [hnext, several]; omega)
      have hhead := GroupsSound.of_replacement hrule (confidence { r with group := some next })
        (r := { r with group := some next }) rfl hnodup hseveral hlength
      have hown : ∀ p ∈ members (r.dsts.map (candidate_edge rule (confidence { r with group := some next })
          { r with group := some next })), p.1 = next := by
        intro p hp
        obtain ⟨e, he, hgroup, _⟩ := mem_members.mp hp
        obtain ⟨dst, _, rfl⟩ := List.mem_map.mp he
        exact (Option.some.inj hgroup).symm
      rw [candidate_edges, List.flatMap_cons, List.flatMap_cons, members_append]
      constructor
      · apply hhead.append htail
        intro p hp q hq heq
        have hle := hbound q hq
        rw [← heq, hown p hp, hnext] at hle
        omega
      · intro p hp
        obtain hp | hp := List.mem_append.mp hp
        · rw [hown p hp]
        · have hle := hbound p hp
          omega
    case isFalse hsingle =>
      rw [decide_eq_false hsingle, if_neg Bool.false_ne_true, Nat.add_zero] at hroom
      obtain ⟨htail, hbound⟩ := ih next hrest hdsts' hroom
      have hungrouped : ∀ e ∈ r.dsts.map (candidate_edge rule (confidence r) r), e.edge.candidate_group = none := by
        intro e he
        obtain ⟨dst, _, rfl⟩ := List.mem_map.mp he
        exact hnone r List.mem_cons_self
      have hrows : r.rows = [] := by
        rw [Replacement.rows, hnone r List.mem_cons_self]
      rw [candidate_edges, List.flatMap_cons, List.flatMap_cons, hrows, members_append, members_eq_nil hungrouped,
        List.nil_append]
      refine ⟨(GroupsSound.of_ungrouped hungrouped).append htail ?_, hbound⟩
      intro p hp
      rw [members_eq_nil hungrouped] at hp
      cases hp

/-! ### The numbers that a pass hands out -/

theorem toNat_max (a b : UInt32) : (max a b).toNat = max a.toNat b.toNat := by
  have hmax : max a b = if a ≤ b then b else a := rfl
  rw [hmax]
  split
  case isTrue hle => exact (Nat.max_eq_right hle).symm
  case isFalse hgt =>
    have hle : b.toNat ≤ a.toNat := Nat.le_of_lt (Nat.lt_of_not_le hgt)
    exact (Nat.max_eq_left hle).symm

theorem toNat_foldl_max (l : List UInt32) (a : UInt32) :
    (l.foldl max a).toNat = (l.map UInt32.toNat).foldl max a.toNat := by
  induction l generalizing a with
  | nil => rfl
  | cons b rest ih => rw [List.foldl_cons, List.map_cons, List.foldl_cons, ih, toNat_max]

theorem le_foldl_max {l : List Nat} {a k : Nat} (ha : a < k) (hl : ∀ b ∈ l, b < k) :
    a ≤ l.foldl max a ∧ (∀ b ∈ l, b ≤ l.foldl max a) ∧ l.foldl max a < k := by
  induction l generalizing a with
  | nil => exact ⟨Nat.le_refl a, fun b hb => absurd hb List.not_mem_nil, ha⟩
  | cons b rest ih =>
    rw [List.forall_mem_cons] at hl
    obtain ⟨hinit, hrest, hbound⟩ := ih (a := max a b) (by omega) hl.2
    rw [List.foldl_cons]
    refine ⟨by omega, ?_, hbound⟩
    rw [List.forall_mem_cons]
    exact ⟨by omega, hrest⟩

/-- The groups of the edges are numbered without gaps in the order they appear. -/
def Dense (edges : List EdgeWithProvenance) : Prop :=
  ∃ k, numbering.firsts (edges.filterMap fun e => e.edge.candidate_group) = numbering.counted k

theorem dense_canonicalize (g : ResolvedGraph) : Dense (cgx.resolve.canonicalize g).edges := by
  have hfirsts := (lower_before_canonicalize g).firsts_eq
  rw [carried_groups, sort_edges_canonicalize] at hfirsts
  exact ⟨_, hfirsts⟩

theorem map_fst_members (edges : List EdgeWithProvenance) :
    (members edges).map Prod.fst = edges.filterMap fun e => e.edge.candidate_group := by
  rw [members, List.map_filterMap]
  congr 1
  funext e
  rw [member, Option.map_map]
  exact Option.map_id'

/-- A dense graph has room for as many groups as edges could fill. -/
theorem Dense.bound (hdense : Dense edges) (h : GroupsSound edges candidates) :
    ∃ k, 2 * k ≤ edges.length ∧ ∀ group ∈ edges.filterMap fun e => e.edge.candidate_group, group.toNat < k := by
  obtain ⟨k, hk⟩ := hdense
  have hnodup := numbering.nodup_firsts (edges.filterMap fun e => e.edge.candidate_group)
  have hlength : k = (numbering.firsts (edges.filterMap fun e => e.edge.candidate_group)).length := by
    rw [hk, numbering.length_counted]
  have hroom := length_le_of_nodup hnodup
  have hperm : (numbering.firsts (edges.filterMap fun e => e.edge.candidate_group)).Perm
      ((members edges).map Prod.fst).dedup := by
    rw [List.perm_ext_iff_of_nodup hnodup (List.nodup_dedup _)]
    intro group
    rw [numbering.mem_firsts, List.mem_dedup, map_fst_members]
  have htwo := h.balanced.two_mul_groups_le
  have hmembers := members_length_le edges
  have heq := hperm.length_eq
  refine ⟨k, by omega, ?_⟩
  intro group hgroup
  rw [← numbering.mem_counted (by omega), ← hk, numbering.mem_firsts]
  exact hgroup

/-- The next group of a dense graph is free, and low enough for the edges there are. -/
theorem next_group_spec (hdense : Dense g.edges) (h : GroupsSound g.edges g.candidates) (hroom : g.edges.length < 2 ^ 32) :
    2 * (next_group g).toNat ≤ g.edges.length ∧ ∀ p ∈ members g.edges, p.1.toNat < (next_group g).toNat := by
  obtain ⟨k, hk, hbelow⟩ := hdense.bound h
  have hused : ∀ p ∈ members g.edges, p.1 ∈ g.edges.filterMap fun e => e.edge.candidate_group := by
    intro p hp
    rw [← map_fst_members]
    exact List.mem_map_of_mem hp
  rw [next_group]
  cases hgroups : g.edges.filterMap fun e => e.edge.candidate_group with
  | nil =>
    refine ⟨Nat.zero_le _, fun p hp => ?_⟩
    have hmem := hused p hp
    rw [hgroups] at hmem
    cases hmem
  | cons first rest =>
    rw [hgroups, List.forall_mem_cons] at hbelow
    have hrest : ∀ b ∈ rest.map UInt32.toNat, b < k := by
      intro b hb
      obtain ⟨group, hgroup, rfl⟩ := List.mem_map.mp hb
      exact hbelow.2 group hgroup
    obtain ⟨hinit, hall, hmax⟩ := le_foldl_max hbelow.1 hrest
    rw [List.max?_cons']
    dsimp only
    have hnext : (rest.foldl max first + 1).toNat = (rest.map UInt32.toNat).foldl max first.toNat + 1 := by
      rw [UInt32.toNat_add, toNat_foldl_max]
      exact Nat.mod_eq_of_lt (by simp; omega)
    rw [hnext]
    refine ⟨by omega, fun p hp => ?_⟩
    have hmem := hused p hp
    rw [hgroups] at hmem
    obtain heq | hmem := List.mem_cons.mp hmem
    · rw [heq]
      omega
    · have hle := hall p.1.toNat (List.mem_map_of_mem hmem)
      omega

theorem several_cons (r : Replacement) (rest : List Replacement) :
    several (r :: rest) = several rest + if 1 < r.dsts.length then 1 else 0 := by
  rw [several, List.countP_cons, several]
  simp only [decide_eq_true_eq]

/-- A replacement with a group has two edges or more. -/
theorem two_mul_several_le (rule : String) (confidence : Replacement → Confidence) (replacements : List Replacement)
    (next : UInt32) : 2 * several replacements ≤
      (candidate_edges rule confidence (number_groups next replacements)).length := by
  induction replacements generalizing next with
  | nil => exact Nat.zero_le _
  | cons r rest ih =>
    rw [several_cons, number_groups]
    split
    · have htail := ih (next + 1)
      rw [candidate_edges, List.flatMap_cons, List.length_append, List.length_map]
      rw [candidate_edges] at htail
      dsimp only
      omega
    · have htail := ih next
      rw [candidate_edges, List.flatMap_cons, List.length_append]
      rw [candidate_edges] at htail
      omega

theorem canonical_dsts (dsts : List NodeId) :
    (canonicalize_candidate_dsts dsts).Nodup ∧ (canonicalize_candidate_dsts dsts).length ≤ 2 ^ 32 := by
  have hnodup : (canonicalize_candidate_dsts dsts).Nodup := (perm_sort_by _).nodup_iff.mpr (List.nodup_dedup _)
  refine ⟨hnodup, ?_⟩
  have hraw : ((canonicalize_candidate_dsts dsts).map NodeId.raw).Nodup :=
    hnodup.map fun a b heq => by
      cases a
      cases b
      exact congrArg NodeId.mk heq
  have hlength := length_le_of_nodup hraw
  rwa [List.length_map] at hlength

/-- New groups beside the groups of a dense graph. -/
theorem GroupsSound.add {rule : String} (hrule : INDIRECT_RULE_PREFIX.toList.isPrefixOf rule.toList = false)
    (confidence : Replacement → Confidence) (replacements : List Replacement) (next : UInt32)
    (h : GroupsSound edges candidates) (hnext : ∀ p ∈ members edges, p.1.toNat < next.toNat)
    (hnone : ∀ r ∈ replacements, r.group = none)
    (hdsts : ∀ r ∈ replacements, r.dsts.Nodup ∧ r.dsts.length ≤ 2 ^ 32)
    (hroom : 2 * next.toNat < 2 ^ 32)
    (hroom' : (edges ++ candidate_edges rule confidence (number_groups next replacements)).length < 2 ^ 32) :
    GroupsSound (edges ++ candidate_edges rule confidence (number_groups next replacements))
      (candidates ++ (number_groups next replacements).flatMap Replacement.rows) := by
  have hseveral := two_mul_several_le rule confidence replacements next
  rw [List.length_append] at hroom'
  obtain ⟨hnew, hbound⟩ := number_groups_sound hrule confidence next hnone hdsts (by omega)
  apply h.append hnew
  intro p hp q hq heq
  have hbelow := hnext p hp
  have habove := hbound q hq
  rw [heq] at hbelow
  omega

/-! ### The passes -/

/-- A graph with sound groups that are numbered densely. -/
structure Settled (g : ResolvedGraph) : Prop where
  sound : GroupsSound g.edges g.candidates
  dense : Dense g.edges

theorem Settled.of_canonicalize (h : GroupsSound g.edges g.candidates) : Settled (cgx.resolve.canonicalize g) :=
  ⟨h.canonicalize, dense_canonicalize g⟩

theorem rescope_spec {l : Lattice} {key : SiteKey} {r : Replacement} (h : rescope l g key = some r) :
    r.group = none ∧ r.dsts.Nodup ∧ r.dsts.length ≤ 2 ^ 32 := by
  rw [rescope] at h
  obtain ⟨proto, _, h⟩ := Option.bind_eq_some_iff.mp h
  obtain ⟨method, _, h⟩ := Option.bind_eq_some_iff.mp h
  have hdsts := canonical_dsts (l.trait_scoped_candidates method)
  split at h
  · cases h
  · cases h
    exact ⟨rfl, hdsts⟩

theorem sig_replacement_spec {site : IndirectSite} {r : Replacement} (h : sig_replacement g site = some r) :
    r.group = none ∧ r.dsts.Nodup ∧ r.dsts.length ≤ 2 ^ 32 := by
  rw [sig_replacement] at h
  have hdsts := canonical_dsts ((g.nodes.filter (is_compatible g (lang_of g site.edge.edge.src) site.arity)).map
    fun n => n.node.id)
  rw [← compatible] at hdsts
  split at h
  · cases h
  · cases h
    exact ⟨rfl, hdsts⟩

/-- The edges at replaced sites are whole groups. -/
theorem GroupsSound.replaced (h : GroupsSound g.edges g.candidates) (replacements : List Replacement) :
    let replaced := fun e => replacements.any fun r => virtual_site NAME_METHOD_RULE e = some r.key
    GroupsSound (g.edges.filter fun e => !replaced e)
      (g.candidates.filter fun c => c.candidate_group ∉ (g.edges.filter replaced).filterMap fun e => e.edge.candidate_group) := by
  intro replaced
  have hkept := h.filter_groups (fun e => !replaced e)
    (fun group => decide (group ∉ (g.edges.filter replaced).filterMap fun e => e.edge.candidate_group)) (by
      intro e he group hgroup
      have hiff : replaced e = true ↔ group ∈ (g.edges.filter replaced).filterMap fun e => e.edge.candidate_group := by
        rw [List.mem_filterMap]
        constructor
        · intro hreplaced
          exact ⟨e, List.mem_filter.mpr ⟨he, hreplaced⟩, hgroup⟩
        · rintro ⟨e', he', hgroup'⟩
          obtain ⟨hmem, hreplaced⟩ := List.mem_filter.mp he'
          have hcall := h.one_call e he e' hmem group hgroup hgroup'
          have hsite := hcall.virtual_site NAME_METHOD_RULE (by simp [pass_rules])
          have hsame : replaced e = replaced e' := by
            simp only [replaced, hsite]
          exact hsame.trans hreplaced
      by_cases hreplaced : replaced e = true
      · rw [decide_eq_false (not_not.mpr (hiff.mp hreplaced)), hreplaced]
        rfl
      · have hstays : group ∉ (g.edges.filter replaced).filterMap fun e => e.edge.candidate_group :=
          fun hmem => hreplaced (hiff.mpr hmem)
        rw [decide_eq_true hstays, Bool.eq_false_iff.mpr hreplaced]
        rfl)
  exact hkept

/-- The trait-scoped candidates are sound where the name-scoped ones were. -/
theorem Settled.rescoped (h : Settled g) (hroom : g.edges.length < 2 ^ 32)
    (hroom' : (replace_sites NAME_METHOD_RULE build_cha_edge (cha_replacements g) g).edges.length < 2 ^ 32) :
    GroupsSound (replace_sites NAME_METHOD_RULE build_cha_edge (cha_replacements g) g).edges
      (replace_sites NAME_METHOD_RULE build_cha_edge (cha_replacements g) g).candidates := by
  obtain ⟨hnext, hbelow⟩ := next_group_spec h.dense h.sound hroom
  have hkept := h.sound.replaced (cha_replacements g)
  have hrule : INDIRECT_RULE_PREFIX.toList.isPrefixOf CHA_RULE.toList = false := rfl
  apply hkept.add hrule (fun r => set_confidence r.dsts)
    ((collect_sites NAME_METHOD_RULE g).filterMap (rescope (Lattice.build g) g)) (next_group g)
  · intro p hp
    obtain ⟨e, he, hgroup, hdst⟩ := mem_members.mp hp
    exact hbelow p (mem_members.mpr ⟨e, List.mem_of_mem_filter he, hgroup, hdst⟩)
  · intro r hr
    obtain ⟨key, _, hrescope⟩ := List.mem_filterMap.mp hr
    exact (rescope_spec hrescope).1
  · intro r hr
    obtain ⟨key, _, hrescope⟩ := List.mem_filterMap.mp hr
    exact (rescope_spec hrescope).2
  · omega
  · exact hroom'

/-- Removing edges that are in no group changes nothing. -/
theorem GroupsSound.remove_edges_at (h : GroupsSound edges candidates) (drop : List Nat)
    (hdrop : ∀ i ∈ drop, ∀ e, edges[i]? = some e → e.edge.candidate_group = none) :
    GroupsSound (remove_edges_at drop edges) candidates where
  balanced := by
    have hmembers : members (cgx.resolve.remove_edges_at drop edges) = members edges := by
      have hfst : members edges = edges.zipIdx.filterMap fun e => member e.1 := by
        conv_lhs => rw [← List.zipIdx_map_fst 0 edges]
        rw [members, List.filterMap_map]
        rfl
      rw [cgx.resolve.remove_edges_at, members, List.filterMap_map, List.filterMap_filter, hfst]
      apply List.filterMap_congr
      rintro ⟨e, i⟩ hmem
      split
      · rfl
      · rename_i hdropped
        have hi : i ∈ drop := by simpa using hdropped
        have hnone := hdrop i hi e (List.mem_zipIdx_iff_getElem?.mp hmem)
        rw [member, hnone]
        rfl
    rw [hmembers]
    exact h.balanced
  one_call e he e' he' := by
    obtain ⟨i, hi, _⟩ := mem_remove_edges_at.mp he
    obtain ⟨i', hi', _⟩ := mem_remove_edges_at.mp he'
    exact h.one_call e (List.mem_of_getElem? hi) e' (List.mem_of_getElem? hi')
  settled e he := by
    obtain ⟨i, hi, _⟩ := mem_remove_edges_at.mp he
    exact h.settled e (List.mem_of_getElem? hi)

/-- The graph with the candidates of its placeholders, before canonical order. -/
def expanded (g : ResolvedGraph) : ResolvedGraph :=
  { g with
    edges := remove_edges_at ((collect_indirect_sites g).map IndirectSite.edge_index) g.edges ++
      (sig_replacements g).flatMap fun r => r.dsts.map (build_sig_edge r)
    candidates := g.candidates ++ (sig_replacements g).flatMap Replacement.rows }

/-- The candidates chosen by signature are sound beside the others. -/
theorem Settled.expanded (h : Settled g) (hroom : g.edges.length < 2 ^ 32)
    (hroom' : (expanded g).edges.length < 2 ^ 32) : GroupsSound (expanded g).edges (expanded g).candidates := by
  obtain ⟨hnext, hbelow⟩ := next_group_spec h.dense h.sound hroom
  have hkept := h.sound.remove_edges_at ((collect_indirect_sites g).map IndirectSite.edge_index) (by
    intro i hi e he
    obtain ⟨site, hsite, rfl⟩ := List.mem_map.mp hi
    obtain ⟨hat, hplaceholder, _⟩ := first_placeholder_spec (mem_collect_indirect_sites.mp hsite).1
    obtain rfl : e = site.edge := Option.some.inj (he.symm.trans hat)
    by_contra hgroup
    have hsettled := h.sound.settled site.edge (List.mem_of_getElem? he) (Option.isSome_iff_ne_none.mpr hgroup)
    rw [(placeholder_site_eq_some.mp hplaceholder).1] at hsettled
    cases hsettled)
  have hrule : INDIRECT_RULE_PREFIX.toList.isPrefixOf SIG_RULE.toList = false := rfl
  apply hkept.add hrule (fun _ => .Possible) ((collect_indirect_sites g).filterMap (sig_replacement g)) (next_group g)
  · intro p hp
    obtain ⟨e, he, hgroup, hdst⟩ := mem_members.mp hp
    obtain ⟨i, hi, _⟩ := mem_remove_edges_at.mp he
    exact hbelow p (mem_members.mpr ⟨e, List.mem_of_getElem? hi, hgroup, hdst⟩)
  · intro r hr
    obtain ⟨site, _, hsig⟩ := List.mem_filterMap.mp hr
    exact (sig_replacement_spec hsig).1
  · intro r hr
    obtain ⟨site, _, hsig⟩ := List.mem_filterMap.mp hr
    exact (sig_replacement_spec hsig).2
  · omega
  · exact hroom'

/-! ### Pruning -/

theorem upgrade_group (g : ResolvedGraph) (e : EdgeWithProvenance) :
    (upgrade g e).edge.candidate_group = e.edge.candidate_group ∧ (upgrade g e).edge.dst = e.edge.dst := by
  rw [upgrade]
  split <;> exact ⟨rfl, rfl⟩

/-- A pruned site is pruned for all candidates of a call. -/
theorem OneCall.at_pruned_site {e e' : EdgeWithProvenance} (h : OneCall e e') (g : ResolvedGraph) :
    at_pruned_site g e = at_pruned_site g e' := by
  rw [cgx.resolve.at_pruned_site, cgx.resolve.at_pruned_site, h.virtual_site CHA_RULE (by simp [pass_rules])]

theorem OneCall.upgrade {e e' : EdgeWithProvenance} (h : OneCall e e') (g : ResolvedGraph) :
    OneCall (upgrade g e) (upgrade g e') := by
  rw [cgx.resolve.upgrade, cgx.resolve.upgrade, h.at_pruned_site g]
  split
  · exact ⟨h.src, h.site_id, h.kind, fun _ _ => Iff.rfl⟩
  · exact h

/-- The members that pruning leaves in their groups. -/
def kept_member (g : ResolvedGraph) (p : UInt32 × NodeId) : Bool :=
  !g.edges.any fun e => is_dropped g e && decide (e.edge.candidate_group = some p.1) && decide (e.edge.dst = p.2)

theorem kept_member_iff (h : (members g.edges).Nodup) {e : EdgeWithProvenance} (he : e ∈ g.edges)
    {p : UInt32 × NodeId} (hp : member e = some p) : (!is_dropped g e) = kept_member g p := by
  have hany : (g.edges.any fun e => is_dropped g e && decide (e.edge.candidate_group = some p.1) &&
      decide (e.edge.dst = p.2)) = is_dropped g e := by
    rw [Bool.eq_iff_iff, List.any_eq_true]
    constructor
    · rintro ⟨e', he', hboth⟩
      simp only [Bool.and_eq_true, decide_eq_true_eq] at hboth
      obtain ⟨⟨hdropped, hgroup⟩, hdst⟩ := hboth
      have hp' : member e' = some p := by
        rw [member_of_group hgroup, hdst]
      rw [eq_of_member h he he' hp hp']
      exact hdropped
    · intro hdropped
      obtain ⟨group, hgroup, rfl⟩ := Option.map_eq_some_iff.mp hp
      exact ⟨e, he, by simp [hdropped, hgroup]⟩
  rw [kept_member, hany]

/-- The edges of a graph after pruning, before groups with one target are shed. -/
def pruned_edges (g : ResolvedGraph) : List EdgeWithProvenance :=
  (g.edges.filter fun e => !is_dropped g e).map (upgrade g)

theorem members_pruned (h : (members g.edges).Nodup) :
    members (pruned_edges g) = (members g.edges).filter (kept_member g) := by
  have hupgrade : member ∘ upgrade g = member := by
    funext e
    obtain ⟨hgroup, hdst⟩ := upgrade_group g e
    rw [Function.comp_apply, member, member, hgroup, hdst]
  rw [pruned_edges, members, List.filterMap_map, hupgrade, ← members]
  exact members_filter fun e he p hp => kept_member_iff h he hp

theorem member_shed (single : UInt32 → Bool) (e : EdgeWithProvenance) :
    member (shed_group single e) = (member e).filter fun p => !single p.1 := by
  rw [member, shed_group, member]
  dsimp only
  cases e.edge.candidate_group with
  | none => rfl
  | some group =>
    rw [Option.map_some, Option.filter_some, Option.filter_some]
    split <;> rfl

/-- The targets among the pruned edges of a group. -/
def left_targets (edges : List EdgeWithProvenance) (group : UInt32) : List NodeId :=
  (edges.filter fun e => decide (e.edge.rule = RTA_RULE) && decide (e.edge.candidate_group = some group)).map
    fun e => e.edge.dst

/-- A kept member of a group that is not shed has company. -/
theorem company_of_not_single (h : GroupsSound g.edges g.candidates) {p : UInt32 × NodeId} (hp : p ∈ members g.edges)
    (hkept : kept_member g p = true) (hsingle : is_singleton_group (pruned_edges g) p.1 = false) :
    ∃ q ∈ members g.edges, kept_member g q = true ∧ q.1 = p.1 ∧ q ≠ p := by
  obtain ⟨e, he, hgroup, hdst⟩ := mem_members.mp hp
  have hmember : member e = some p := by
    rw [member_of_group hgroup, hdst]
  have hstays : is_dropped g e = false := by
    rw [← kept_member_iff h.balanced.distinct he hmember] at hkept
    simpa using hkept
  by_cases hpruned : at_pruned_site g e = true
  · by_contra halone
    push Not at halone
    -- All that is left of the group has one target, so the group counts as a single.
    have hmem : p.2 ∈ left_targets (pruned_edges g) p.1 := by
      refine List.mem_map.mpr ⟨upgrade g e, List.mem_filter.mpr ⟨?_, ?_⟩, (upgrade_group g e).2.trans hdst⟩
      · exact List.mem_map_of_mem (List.mem_filter.mpr ⟨he, by rw [hstays]; rfl⟩)
      · have hrule : (upgrade g e).edge.rule = RTA_RULE := by
          rw [upgrade, if_pos hpruned]
        rw [hrule, (upgrade_group g e).1, hgroup]
        simp
    have hsame : ∀ dst ∈ left_targets (pruned_edges g) p.1, dst = p.2 := by
      intro dst hleft
      obtain ⟨x, hx, rfl⟩ := List.mem_map.mp hleft
      obtain ⟨hin, hboth⟩ := List.mem_filter.mp hx
      simp only [Bool.and_eq_true, decide_eq_true_eq] at hboth
      have hother : (p.1, x.edge.dst) ∈ members (pruned_edges g) := mem_members.mpr ⟨x, hin, hboth.2, rfl⟩
      rw [members_pruned h.balanced.distinct] at hother
      obtain ⟨hmember', hkept'⟩ := List.mem_filter.mp hother
      exact congrArg Prod.snd (halone (p.1, x.edge.dst) hmember' hkept' rfl)
    have hone : (left_targets (pruned_edges g) p.1).dedup.Perm [p.2] := by
      rw [List.perm_ext_iff_of_nodup (List.nodup_dedup _) (List.nodup_singleton p.2)]
      intro dst
      rw [List.mem_dedup, List.mem_singleton]
      exact ⟨hsame dst, fun heq => heq ▸ hmem⟩
    have htrue : is_singleton_group (pruned_edges g) p.1 = true := decide_eq_true hone.length_eq
    rw [htrue] at hsingle
    cases hsingle
  · -- Nothing is dropped at the site, so the whole group is left.
    obtain ⟨q, hq, hqgroup, hne⟩ := h.balanced.several p hp
    obtain ⟨e', he', hgroup', hdst'⟩ := mem_members.mp hq
    have hmember' : member e' = some q := by
      rw [member_of_group hgroup', hdst']
    have hcall := h.one_call e he e' he' p.1 hgroup (hqgroup ▸ hgroup')
    refine ⟨q, hq, ?_, hqgroup, hne⟩
    rw [← kept_member_iff h.balanced.distinct he' hmember', is_dropped, ← hcall.at_pruned_site g,
      Bool.eq_false_iff.mpr hpruned]
    rfl

/-- What pruning leaves of sound groups is sound. -/
theorem GroupsSound.prune (h : GroupsSound g.edges g.candidates) :
    GroupsSound (prune_sites g).edges (prune_sites g).candidates where
  balanced := by
    have hmembers : members (prune_sites g).edges = (members g.edges).filter fun p =>
        kept_member g p && !is_singleton_group (pruned_edges g) p.1 := by
      have hedges : (prune_sites g).edges = (pruned_edges g).map (shed_group (is_singleton_group (pruned_edges g))) := rfl
      have hshed : member ∘ shed_group (is_singleton_group (pruned_edges g)) =
          fun e => (member e).filter fun p => !is_singleton_group (pruned_edges g) p.1 :=
        funext fun e => member_shed _ e
      rw [hedges, members, List.filterMap_map, hshed, ← List.filter_filterMap, ← members,
        members_pruned h.balanced.distinct, List.filter_filter]
      congr 1
      funext p
      exact Bool.and_comm _ _
    have hrows : (prune_sites g).candidates.map listed_row = (g.candidates.map listed_row).filter fun r =>
        kept_member g r.1 && !is_singleton_group (pruned_edges g) r.1.1 := by
      have hcandidates : (prune_sites g).candidates = (g.candidates.filter fun c =>
          kept_member g (c.candidate_group, c.dst)).filter
            fun c => !is_singleton_group (pruned_edges g) c.candidate_group := rfl
      rw [hcandidates, List.filter_filter, ← listed_rows_filter fun p =>
        kept_member g p && !is_singleton_group (pruned_edges g) p.1]
      congr 2
      funext c
      exact Bool.and_comm _ _
    rw [hmembers, hrows]
    apply h.balanced.filter fun p => kept_member g p && !is_singleton_group (pruned_edges g) p.1
    intro p hp hkeep
    obtain ⟨hkept, hsingle⟩ := Bool.and_eq_true_iff.mp hkeep
    obtain ⟨q, hq, hkept', hgroup, hne⟩ := company_of_not_single h hp hkept (by simpa using hsingle)
    refine ⟨q, hq, ?_, hgroup, hne⟩
    rw [hkept', hgroup]
    exact hsingle
  one_call e he e' he' group hgroup hgroup' := by
    have horigin : ∀ x ∈ (prune_sites g).edges, x.edge.candidate_group = some group →
        ∃ b ∈ g.edges, b.edge.candidate_group = some group ∧
          x = shed_group (is_singleton_group (pruned_edges g)) (upgrade g b) := by
      intro x hx hxgroup
      obtain ⟨y, hy, rfl⟩ := List.mem_map.mp hx
      obtain ⟨b, hb, rfl⟩ := List.mem_map.mp hy
      refine ⟨b, List.mem_of_mem_filter hb, ?_, rfl⟩
      rw [← (upgrade_group g b).1]
      exact (Option.filter_eq_some_iff.mp hxgroup).1
    obtain ⟨b, hb, hbgroup, rfl⟩ := horigin e he hgroup
    obtain ⟨b', hb', hbgroup', rfl⟩ := horigin e' he' hgroup'
    have hcall := (h.one_call b hb b' hb' group hbgroup hbgroup').upgrade g
    exact ⟨hcall.src, hcall.site_id, hcall.kind, hcall.rule⟩
  settled e he hsome := by
    obtain ⟨y, hy, rfl⟩ := List.mem_map.mp he
    obtain ⟨b, hb, rfl⟩ := List.mem_map.mp hy
    obtain ⟨group, hgroup⟩ := Option.isSome_iff_exists.mp hsome
    have hbgroup : b.edge.candidate_group = some group := by
      rw [← (upgrade_group g b).1]
      exact (Option.filter_eq_some_iff.mp hgroup).1
    have hold := h.settled b (List.mem_of_mem_filter hb) (by rw [hbgroup]; rfl)
    change is_placeholder (upgrade g b) = false
    rw [upgrade]
    split
    · have hrule : INDIRECT_RULE_PREFIX.toList.isPrefixOf RTA_RULE.toList = false := rfl
      exact Bool.and_eq_false_imp.mpr fun _ => hrule
    · exact hold

end cgx.index
