import Mathlib.Data.List.Dedup
import Mathlib.Data.List.Perm.Subperm

/-!
# Groups of alternatives and the table that lists them

A member belongs to a group and has a target. Beside the members stands a table that lists
the targets of each group under ranks. The two are kept by hand wherever members are added,
dropped or renamed, and they are balanced when neither can be told from the other: a group
has several targets and no target twice, and the table has one row for each member.
-/

namespace groups

variable {γ δ κ : Type}

/-- The members and the table that lists them agree. -/
structure Balanced (members : List (γ × δ)) (rows : List ((γ × δ) × κ)) : Prop where
  distinct : members.Nodup
  several : ∀ p ∈ members, ∃ q ∈ members, q.1 = p.1 ∧ q ≠ p
  listed : members.Perm (rows.map Prod.fst)
  ranked : (rows.map fun r => (r.1.1, r.2)).Nodup

variable {members members' : List (γ × δ)} {rows rows' : List ((γ × δ) × κ)}

theorem Balanced.nil : Balanced ([] : List (γ × δ)) ([] : List ((γ × δ) × κ)) where
  distinct := .nil
  several _ hp := absurd hp List.not_mem_nil
  listed := .nil
  ranked := .nil

theorem Balanced.perm (h : Balanced members rows) (hmembers : members.Perm members') (hrows : rows.Perm rows') :
    Balanced members' rows' where
  distinct := hmembers.nodup_iff.mp h.distinct
  several p hp := by
    obtain ⟨q, hq, hgroup, hne⟩ := h.several p (hmembers.mem_iff.mpr hp)
    exact ⟨q, hmembers.mem_iff.mp hq, hgroup, hne⟩
  listed := hmembers.symm.trans (h.listed.trans (hrows.map Prod.fst))
  ranked := (hrows.map _).nodup_iff.mp h.ranked

theorem Balanced.mem_of_row (h : Balanced members rows) {r : (γ × δ) × κ} (hr : r ∈ rows) : r.1 ∈ members :=
  h.listed.mem_iff.mpr (List.mem_map_of_mem hr)

/-- Other names for groups and targets keep the balance if they keep those in use apart. -/
theorem Balanced.rename {γ' δ' : Type} (h : Balanced members rows) {f : γ → γ'} {t : δ → δ'}
    (hf : ∀ p ∈ members, ∀ q ∈ members, f p.1 = f q.1 → p.1 = q.1)
    (ht : ∀ p ∈ members, ∀ q ∈ members, t p.2 = t q.2 → p.2 = q.2) :
    Balanced (members.map (Prod.map f t)) (rows.map fun r => (Prod.map f t r.1, r.2)) where
  distinct := by
    apply h.distinct.map_on
    intro p hp q hq heq
    obtain ⟨hgroup, htarget⟩ := Prod.mk.inj heq
    exact Prod.ext (hf p hp q hq hgroup) (ht p hp q hq htarget)
  several p hp := by
    obtain ⟨p, hmem, rfl⟩ := List.mem_map.mp hp
    obtain ⟨q, hq, hgroup, hne⟩ := h.several p hmem
    refine ⟨Prod.map f t q, List.mem_map_of_mem hq, congrArg f hgroup, fun heq => hne ?_⟩
    exact Prod.ext hgroup (ht q hq p hmem (Prod.mk.inj heq).2)
  listed := by
    rw [List.map_map]
    have hmap := h.listed.map (Prod.map f t)
    rw [List.map_map] at hmap
    exact hmap
  ranked := by
    rw [List.map_map]
    have hkeys := h.ranked.of_map
    refine hkeys.map_on ?_
    intro r hr r' hr' heq
    obtain ⟨hgroup, hrank⟩ := Prod.mk.inj heq
    have hsame : r.1.1 = r'.1.1 := hf r.1 (h.mem_of_row hr) r'.1 (h.mem_of_row hr') hgroup
    exact List.inj_on_of_nodup_map h.ranked hr hr' (Prod.ext hsame hrank)

/-- Balanced parts without a common group stay balanced side by side. -/
theorem Balanced.append (h : Balanced members rows) (h' : Balanced members' rows')
    (hapart : ∀ p ∈ members, ∀ q ∈ members', p.1 ≠ q.1) : Balanced (members ++ members') (rows ++ rows') where
  distinct := by
    refine List.nodup_append.mpr ⟨h.distinct, h'.distinct, ?_⟩
    intro p hp q hq heq
    exact hapart p hp q hq (congrArg Prod.fst heq)
  several p hp := by
    obtain hp | hp := List.mem_append.mp hp
    · obtain ⟨q, hq, hboth⟩ := h.several p hp
      exact ⟨q, List.mem_append_left _ hq, hboth⟩
    · obtain ⟨q, hq, hboth⟩ := h'.several p hp
      exact ⟨q, List.mem_append_right _ hq, hboth⟩
  listed := by
    rw [List.map_append]
    exact h.listed.append h'.listed
  ranked := by
    rw [List.map_append]
    refine List.nodup_append.mpr ⟨h.ranked, h'.ranked, ?_⟩
    intro a ha b hb heq
    obtain ⟨r, hr, rfl⟩ := List.mem_map.mp ha
    obtain ⟨r', hr', rfl⟩ := List.mem_map.mp hb
    exact hapart r.1 (h.mem_of_row hr) r'.1 (h'.mem_of_row hr') (Prod.mk.inj heq).1

/-- The rows of one group, ranked in order. -/
def ranked_rows (rank : Nat → κ) (group : γ) (targets : List δ) : List ((γ × δ) × κ) :=
  targets.mapIdx fun i target => ((group, target), rank i)

/-- One group of several distinct targets is balanced under ranks that differ. -/
theorem Balanced.of_group {rank : Nat → κ} {group : γ} {targets : List δ} (hnodup : targets.Nodup)
    (hseveral : 1 < targets.length) (hrank : ∀ i j, i < targets.length → j < targets.length → rank i = rank j → i = j) :
    Balanced (targets.map fun target => (group, target)) (ranked_rows rank group targets) where
  distinct := hnodup.map fun _ _ heq => (Prod.mk.inj heq).2
  several p hp := by
    obtain ⟨target, htarget, rfl⟩ := List.mem_map.mp hp
    obtain ⟨other, hother, hne⟩ : ∃ other ∈ targets, other ≠ target := by
      by_contra hall
      push Not at hall
      have hconst : targets = List.replicate targets.length target := List.eq_replicate_of_mem hall
      rw [hconst, List.nodup_replicate] at hnodup
      omega
    exact ⟨(group, other), List.mem_map_of_mem hother, rfl, fun heq => hne (Prod.mk.inj heq).2⟩
  listed := by
    have hfst : (ranked_rows rank group targets).map Prod.fst = targets.map fun target => (group, target) := by
      rw [ranked_rows, List.mapIdx_eq_zipIdx_map, List.map_map]
      conv_rhs => rw [← List.zipIdx_map_fst 0 targets, List.map_map]
      rfl
    rw [hfst]
  ranked := by
    have hindex : ((ranked_rows rank group targets).map fun r => (r.1.1, r.2)) =
        (List.range' 0 targets.length).map fun i => (group, rank i) := by
      rw [ranked_rows, List.mapIdx_eq_zipIdx_map, List.map_map, ← List.zipIdx_map_snd 0 targets, List.map_map]
      rfl
    have hrange : (List.range' 0 targets.length).Nodup := List.nodup_range'
    rw [hindex]
    apply hrange.map_on
    intro i hi j hj heq
    rw [List.mem_range'_1] at hi hj
    exact hrank i j (by omega) (by omega) (Prod.mk.inj heq).2

/-- What is kept stays balanced if a kept member keeps company. -/
theorem Balanced.filter (h : Balanced members rows) (keep : γ × δ → Bool)
    (hcompany : ∀ p ∈ members, keep p = true → ∃ q ∈ members, keep q = true ∧ q.1 = p.1 ∧ q ≠ p) :
    Balanced (members.filter keep) (rows.filter fun r => keep r.1) where
  distinct := h.distinct.filter keep
  several p hp := by
    obtain ⟨hmem, hkeep⟩ := List.mem_filter.mp hp
    obtain ⟨q, hq, hkept, hboth⟩ := hcompany p hmem hkeep
    exact ⟨q, List.mem_filter.mpr ⟨hq, hkept⟩, hboth⟩
  listed := by
    have hfilter := h.listed.filter keep
    rw [List.filter_map] at hfilter
    exact hfilter
  ranked := h.ranked.sublist ((List.filter_sublist).map _)

/-- Whole groups can be dropped. -/
theorem Balanced.filter_groups (h : Balanced members rows) (keep : γ → Bool) :
    Balanced (members.filter fun p => keep p.1) (rows.filter fun r => keep r.1.1) := by
  apply h.filter fun p => keep p.1
  intro p hp hkeep
  obtain ⟨q, hq, hgroup, hne⟩ := h.several p hp
  exact ⟨q, hq, by rw [hgroup]; exact hkeep, hgroup, hne⟩

/-- Two members for each of some groups. -/
theorem two_mul_length_le [DecidableEq γ] {names : List γ} (hnodup : names.Nodup) (members : List (γ × δ))
    (htwo : ∀ g ∈ names, ∃ p ∈ members, ∃ q ∈ members, p.1 = g ∧ q.1 = g ∧ q ≠ p) :
    2 * names.length ≤ members.length := by
  induction names generalizing members with
  | nil => exact Nat.zero_le _
  | cons g rest ih =>
    obtain ⟨hfresh, hrest⟩ := List.nodup_cons.mp hnodup
    have hsplit := List.length_eq_length_filter_add (l := members) fun p => decide (p.1 = g)
    have hown : 2 ≤ (members.filter fun p => decide (p.1 = g)).length := by
      obtain ⟨p, hp, q, hq, hpg, hqg, hne⟩ := htwo g List.mem_cons_self
      have hpair : [p, q].Nodup := by
        rw [List.nodup_cons, List.mem_singleton]
        exact ⟨fun heq => hne heq.symm, List.nodup_singleton q⟩
      have hsub : [p, q] ⊆ members.filter fun p => decide (p.1 = g) := by
        intro x hx
        obtain rfl | hx := List.mem_cons.mp hx
        · exact List.mem_filter.mpr ⟨hp, decide_eq_true hpg⟩
        · rw [List.mem_singleton.mp hx]
          exact List.mem_filter.mpr ⟨hq, decide_eq_true hqg⟩
      exact (List.subperm_of_subset hpair hsub).length_le
    have hothers := ih hrest (members.filter fun p => !decide (p.1 = g)) (by
      intro g' hg'
      obtain ⟨p, hp, q, hq, hpg, hqg, hne⟩ := htwo g' (List.mem_cons_of_mem g hg')
      have hdiff : g' ≠ g := fun heq => hfresh (heq ▸ hg')
      refine ⟨p, List.mem_filter.mpr ⟨hp, ?_⟩, q, List.mem_filter.mpr ⟨hq, ?_⟩, hpg, hqg, hne⟩
      · rw [hpg, decide_eq_false hdiff]
        rfl
      · rw [hqg, decide_eq_false hdiff]
        rfl)
    rw [List.length_cons]
    omega

/-- There are at most half as many groups as members. -/
theorem Balanced.two_mul_groups_le [DecidableEq γ] (h : Balanced members rows) :
    2 * (members.map Prod.fst).dedup.length ≤ members.length := by
  apply two_mul_length_le (List.nodup_dedup _)
  intro g hg
  obtain ⟨p, hp, rfl⟩ := List.mem_map.mp (List.mem_dedup.mp hg)
  obtain ⟨q, hq, hgroup, hne⟩ := h.several p hp
  exact ⟨p, hp, q, hq, rfl, hgroup, hne⟩

end groups
