import Cgx.Diff.Exact
import Cgx.Lib.Numbering

open cgx.core cgx.store numbering

namespace cgx.diff

variable {g base head : LinkedGraph}

/-! ### Numbers of groups -/

/-- How many groups start before the group of an edge, in the order of the edges. -/
def groups_before (g : LinkedGraph) (e : EdgeRecord) : Option Nat :=
  e.candidate_group.map (firsts (g.edges.filterMap fun e => e.candidate_group)).idxOf

/-- The groups of a canonical graph, in the order in which they start, are numbered from
zero. -/
theorem map_firsts_groups (before : List EdgeRecord) {rest : List EdgeRecord} {seen : List NodeId}
    (h : GroupsNumbered seen rest)
    (hseen : (firsts (before.filterMap fun e => e.candidate_group)).map UInt32.toNat = List.range seen.length) :
    (firsts ((before ++ rest).filterMap fun e => e.candidate_group)).map UInt32.toNat =
      List.range (rest.foldl push_group seen).length := by
  induction rest generalizing before seen with
  | nil => simpa using hseen
  | cons e rest ih =>
    obtain ⟨hhead, hrest⟩ := h
    rw [List.append_cons, List.foldl_cons]
    refine ih _ hrest ?_
    rw [List.filterMap_append, push_group]
    split
    · rename_i gr hgr
      rw [List.filterMap_cons_some (by exact hgr), List.filterMap_nil]
      have hmem : gr ∈ before.filterMap (fun e => e.candidate_group) ↔ gr.toNat < seen.length := by
        rw [← List.mem_range, ← hseen, List.mem_map_of_injective (fun _ _ => UInt32.toNat_inj.mp), mem_firsts]
      split
      · rename_i hnew
        rw [firsts_concat_of_not_mem (by rw [hmem]; omega), List.map_append, hseen, List.length_append,
          List.length_singleton, List.range_succ, ← hnew, List.map_singleton]
      · rename_i hold
        have hle := (hhead gr hgr).1
        rw [firsts_concat_of_mem (hmem.mpr (by omega)), hseen]
    · rename_i hgr
      rw [List.filterMap_cons_none (by exact hgr), List.filterMap_nil, List.append_nil, hseen]

/-- A group's number counts the groups that start before it. -/
theorem groups_before_canonical (h : Canonical g) {e : EdgeRecord} (he : e ∈ g.edges) :
    groups_before g e = e.candidate_group.map UInt32.toNat := by
  have hnumbers := map_firsts_groups [] h.groups rfl
  rw [List.nil_append] at hnumbers
  rw [groups_before]
  cases hgr : e.candidate_group with
  | none => rfl
  | some gr =>
    have hmem : gr ∈ firsts (g.edges.filterMap fun e => e.candidate_group) :=
      mem_firsts.mpr (List.mem_filterMap.mpr ⟨e, he, hgr⟩)
    obtain ⟨i, hi, rfl⟩ := List.getElem_of_mem hmem
    have hi' : i < ((firsts (g.edges.filterMap fun e => e.candidate_group)).map UInt32.toNat).length := by
      rw [List.length_map]
      exact hi
    have hat : ((firsts (g.edges.filterMap fun e => e.candidate_group)).map UInt32.toNat)[i] = i := by
      simp only [hnumbers, List.getElem_range]
    rw [List.getElem_map] at hat
    rw [Option.map_some, Option.map_some, (nodup_firsts _).idxOf_getElem i hi, hat]

/-! ### Edits -/

/-- An edit that adds and removes functions with their outgoing edges and their groups. The
untouched functions stand in the same order on both sides, the edges between them are on both
sides, and their groups are renumbered. -/
structure Edit (base head : LinkedGraph) where
  /-- The untouched functions, on both sides. -/
  kept : List (NodeId × NodeId)
  regroup : UInt32 → UInt32
  ordered : kept.Pairwise fun a b => a.1.index < b.1.index ∧ a.2.index < b.2.index
  nodes : ∀ p ∈ kept, ∃ n, base.nodes[p.1.index]? = some n ∧ head.nodes[p.2.index]? = some { n with id := p.2 }
  injective : Function.Injective regroup
  base_edges : ∀ b ∈ base.edges, ∀ src dst, (b.src, src) ∈ kept → (b.dst, dst) ∈ kept →
    ∃ id, { b with id, src, dst, candidate_group := b.candidate_group.map regroup } ∈ head.edges
  head_edges : ∀ h ∈ head.edges, ∀ src dst, (src, h.src) ∈ kept → (dst, h.dst) ∈ kept →
    ∃ id candidate_group, { h with id, src, dst, candidate_group } ∈ base.edges ∧
      h.candidate_group = candidate_group.map regroup

namespace Edit

variable (edit : Edit base head)

/-- An edge at base whose source is untouched and whose target is on both sides. -/
def InBase (e : EdgeRecord) : Prop :=
  ∃ src dst, (e.src, src) ∈ edit.kept ∧ (e.dst, dst) ∈ edit.kept

/-- An edge at head whose source is untouched and whose target is on both sides. -/
def InHead (e : EdgeRecord) : Prop :=
  ∃ src dst, (src, e.src) ∈ edit.kept ∧ (dst, e.dst) ∈ edit.kept

/-- The diff lists no edge that the edit leaves alone. -/
structure ReportsOnlyChanges : Prop where
  added : ∀ d ∈ (diff_graphs base head).added_edges, ¬ edit.InHead d.record
  removed : ∀ d ∈ (diff_graphs base head).removed_edges, ¬ edit.InBase d.record
  changed : ∀ c ∈ (diff_graphs base head).changed_edges, ¬ edit.InBase c.base ∧ ¬ edit.InHead c.head

/-- For the identities whose last edge the edit leaves alone, on one side at least: the last
edges say the same, and as many groups start before theirs on both sides. -/
structure Undisturbed : Prop where
  last : ∀ identity b h, representative base identity = some b → representative head identity = some h →
    edit.InBase b ∨ edit.InHead h → meaning b = meaning h
  groups : ∀ identity b h, representative base identity = some b → representative head identity = some h →
    edit.InBase b ∨ edit.InHead h → groups_before base b = groups_before head h

variable {edit}

theorem identity_of_kept {b h : EdgeRecord} (hsrc : (b.src, h.src) ∈ edit.kept)
    (hdst : (b.dst, h.dst) ∈ edit.kept) (hkind : h.kind = b.kind) (hstmt : h.stmt_index = b.stmt_index) :
    identity_of base b = identity_of head h := by
  obtain ⟨src, hbsrc, hhsrc⟩ := edit.nodes _ hsrc
  obtain ⟨dst, hbdst, hhdst⟩ := edit.nodes _ hdst
  simp only [identity_of, hbsrc, hbdst, hhsrc, hhdst, hkind, hstmt, Option.bind_eq_bind, Option.bind_some]

/-- An untouched edge has its identity at head too. -/
theorem InBase.at_head {b : EdgeRecord} (hkept : edit.InBase b) {identity : EdgeIdentity}
    (hb : b ∈ edges_at base identity) : ∃ h ∈ edges_at head identity, meaning h = meaning b := by
  obtain ⟨src, dst, hsrc, hdst⟩ := hkept
  obtain ⟨hmem, line, hid⟩ := mem_edges_at.mp hb
  obtain ⟨id, hhead⟩ := edit.base_edges b hmem src dst hsrc hdst
  rw [identity_of_kept (h := { b with id, src, dst, candidate_group := b.candidate_group.map edit.regroup })
    hsrc hdst rfl rfl] at hid
  exact ⟨_, mem_edges_at.mpr ⟨hhead, line, hid⟩, rfl⟩

/-- An untouched edge has its identity at base too. -/
theorem InHead.at_base {h : EdgeRecord} (hkept : edit.InHead h) {identity : EdgeIdentity}
    (hh : h ∈ edges_at head identity) : ∃ b ∈ edges_at base identity, meaning b = meaning h := by
  obtain ⟨src, dst, hsrc, hdst⟩ := hkept
  obtain ⟨hmem, line, hid⟩ := mem_edges_at.mp hh
  obtain ⟨id, candidate_group, hbase, _⟩ := edit.head_edges h hmem src dst hsrc hdst
  rw [← identity_of_kept (b := { h with id, src, dst, candidate_group }) hsrc hdst rfl rfl] at hid
  exact ⟨_, mem_edges_at.mpr ⟨hbase, line, hid⟩, rfl⟩

theorem representative_ne_none {identity : EdgeIdentity} {e : EdgeRecord} (he : e ∈ edges_at g identity) :
    representative g identity ≠ none := by
  obtain ⟨hmem, line, hid⟩ := mem_edges_at.mp he
  exact fun hnone => representative_eq_none.mp hnone e hmem line hid

theorem added_changes : ∀ d ∈ (diff_graphs base head).added_edges, ¬ edit.InHead d.record := by
  intro d hd hkept
  obtain ⟨hrep, _, hnone⟩ := mem_edges_only.mp hd
  obtain ⟨b, hb, _⟩ := hkept.at_base (representative_mem hrep)
  exact representative_ne_none hb hnone

theorem removed_changes : ∀ d ∈ (diff_graphs base head).removed_edges, ¬ edit.InBase d.record := by
  intro d hd hkept
  obtain ⟨hrep, _, hnone⟩ := mem_edges_only.mp hd
  obtain ⟨h, hh, _⟩ := hkept.at_head (representative_mem hrep)
  exact representative_ne_none hh hnone

theorem any_classify_canonical (hbase : Canonical base) (hhead : Canonical head) {b h : EdgeRecord}
    (hb : b ∈ base.edges) (hh : h ∈ head.edges) : (classify_change b h).any = false ↔
      meaning b = meaning h ∧ groups_before base b = groups_before head h := by
  rw [any_classify_change, groups_before_canonical hbase hb, groups_before_canonical hhead hh,
    (Option.map_injective fun _ _ => UInt32.toNat_inj.mp).eq_iff, meaning, meaning]
  simp only [Prod.mk.injEq]
  constructor
  · rintro ⟨hcondition, hconfidence, htier, hgroup, hcfg⟩
    exact ⟨⟨hcondition, hconfidence, htier, hcfg⟩, hgroup⟩
  · rintro ⟨⟨hcondition, hconfidence, htier, hcfg⟩, hgroup⟩
    exact ⟨hcondition, hconfidence, htier, hgroup, hcfg⟩

/-- Where an identity has one edge on each side, an untouched edge says the same on both. -/
theorem last_of_lone {identity : EdgeIdentity} {b h : EdgeRecord} (hb : edges_at base identity = [b])
    (hh : edges_at head identity = [h]) (hkept : edit.InBase b ∨ edit.InHead h) : meaning b = meaning h := by
  cases hkept with
  | inl hkept =>
    obtain ⟨h', hmem, hmeaning⟩ := hkept.at_head (by rw [hb]; exact List.mem_singleton_self b)
    rw [hh, List.mem_singleton] at hmem
    rw [← hmeaning, hmem]
  | inr hkept =>
    obtain ⟨b', hmem, hmeaning⟩ := hkept.at_base (by rw [hh]; exact List.mem_singleton_self h)
    rw [hb, List.mem_singleton] at hmem
    rw [← hmeaning, hmem]

/-- A diff reports only what changed when the edit leaves the last edges of the identities
and the number of groups before them undisturbed. -/
theorem reports_only_changes_iff (edit : Edit base head) (hbase : check_canonical base = .ok ())
    (hhead : check_canonical head = .ok ()) : edit.ReportsOnlyChanges ↔ edit.Undisturbed := by
  have hany : ∀ {identity b h}, representative base identity = some b → representative head identity = some h →
      ((classify_change b h).any = false ↔ meaning b = meaning h ∧ groups_before base b = groups_before head h) :=
    fun hb hh => any_classify_canonical (canonical_of_check hbase) (canonical_of_check hhead)
      (mem_edges_at.mp (representative_mem hb)).1 (mem_edges_at.mp (representative_mem hh)).1
  constructor
  · intro hreports
    have hsame : ∀ identity b h, representative base identity = some b →
        representative head identity = some h → edit.InBase b ∨ edit.InHead h →
          meaning b = meaning h ∧ groups_before base b = groups_before head h := by
      intro identity b h hb hh hkept
      rw [← hany hb hh]
      by_contra hchanged
      rw [Bool.not_eq_false] at hchanged
      obtain ⟨hnotbase, hnothead⟩ := hreports.changed ⟨identity, b, h, classify_change b h⟩
        (mem_changed_edges.mpr ⟨hb, hh, rfl, hchanged⟩)
      exact hkept.elim hnotbase hnothead
    exact ⟨fun i b h hb hh hkept => (hsame i b h hb hh hkept).1, fun i b h hb hh hkept => (hsame i b h hb hh hkept).2⟩
  · intro hundisturbed
    refine ⟨added_changes, removed_changes, ?_⟩
    intro c hc
    obtain ⟨hb, hh, hchanges, hchanged⟩ := mem_changed_edges.mp hc
    have hnot : ¬ (edit.InBase c.base ∨ edit.InHead c.head) := by
      intro hkept
      have hsame := (hany hb hh).mpr ⟨hundisturbed.last _ _ _ hb hh hkept, hundisturbed.groups _ _ _ hb hh hkept⟩
      rw [hchanges, hsame] at hchanged
      cases hchanged
    exact not_or.mp hnot

end Edit

/-! ### A group that starts earlier -/

namespace sample

/-- A call to one of two functions. -/
def either (id group src dst : Nat) : EdgeRecord :=
  { (default : EdgeRecord) with
    id := ⟨.ofNat id⟩, src := .ofIndex src, dst := .ofIndex dst, candidate_group := some (.ofNat group) }

def row (group dst rank : Nat) : Candidate :=
  { (default : Candidate) with candidate_group := .ofNat group, dst := .ofIndex dst, rank := .ofNat rank }

def one_caller : LinkedGraph where
  nodes := [⟨0, "p::f"⟩, ⟨1, "p::g"⟩, ⟨2, "p::h"⟩].map fun n : Nat × String =>
    { symbol n.1 n.2 with line_start := .ofNat (n.1 + 1) }
  edges := [either 0 0 0 1, either 1 0 0 2]
  candidates := [row 0 1 0, row 0 2 1]

/-- A second caller in front of the first one. -/
def two_callers : LinkedGraph where
  nodes := [symbol 0 "p::e", symbol 1 "p::f", symbol 2 "p::g", symbol 3 "p::h"]
  edges := [either 0 0 0 2, either 1 0 0 3, either 2 1 1 2, either 3 1 1 3]
  candidates := [row 0 2 0, row 0 3 1, row 1 2 0, row 1 3 1]

def insertion : Edit one_caller two_callers where
  kept := [(⟨0⟩, ⟨1⟩), (⟨1⟩, ⟨2⟩), (⟨2⟩, ⟨3⟩)]
  regroup := (· + 1)
  ordered := by decide
  nodes := by
    intro p hp
    simp only [List.mem_cons, List.not_mem_nil, or_false] at hp
    rcases hp with rfl | rfl | rfl <;> exact ⟨_, rfl, rfl⟩
  injective := fun _ _ h => by simpa using h
  base_edges := by
    intro b hb src dst hsrc hdst
    simp only [one_caller, List.mem_cons, List.not_mem_nil, or_false] at hb hsrc hdst
    rcases hb with rfl | rfl
    · obtain rfl : src = ⟨1⟩ := by simpa [either, NodeId.ofIndex] using hsrc
      obtain rfl : dst = ⟨2⟩ := by simpa [either, NodeId.ofIndex] using hdst
      exact ⟨⟨2⟩, by decide +kernel⟩
    · obtain rfl : src = ⟨1⟩ := by simpa [either, NodeId.ofIndex] using hsrc
      obtain rfl : dst = ⟨3⟩ := by simpa [either, NodeId.ofIndex] using hdst
      exact ⟨⟨3⟩, by decide +kernel⟩
  head_edges := by
    intro h hh src dst hsrc hdst
    simp only [two_callers, List.mem_cons, List.not_mem_nil, or_false] at hh hsrc hdst
    rcases hh with rfl | rfl | rfl | rfl
    · simp [either, NodeId.ofIndex] at hsrc
    · simp [either, NodeId.ofIndex] at hsrc
    · obtain rfl : src = ⟨0⟩ := by simpa [either, NodeId.ofIndex] using hsrc
      obtain rfl : dst = ⟨1⟩ := by simpa [either, NodeId.ofIndex] using hdst
      exact ⟨⟨0⟩, some 0, by decide +kernel, rfl⟩
    · obtain rfl : src = ⟨0⟩ := by simpa [either, NodeId.ofIndex] using hsrc
      obtain rfl : dst = ⟨2⟩ := by simpa [either, NodeId.ofIndex] using hdst
      exact ⟨⟨1⟩, some 0, by decide +kernel, rfl⟩

end sample

/-- A function with a candidate group is added in front, and the calls of another one are
listed as changed. -/
theorem shifted_group_is_listed : ¬ ∀ (base head : LinkedGraph) (edit : Edit base head),
    check_canonical base = .ok () → check_canonical head = .ok () → edit.ReportsOnlyChanges := by
  intro h
  have hreports := h _ _ sample.insertion (by decide +kernel) (by decide +kernel)
  have hlisted : ⟨⟨"p::f", "p::g", default, "a.rs", none⟩, sample.either 0 0 0 1, sample.either 2 1 1 2,
      ⟨false, false, false, true, false⟩⟩ ∈ (diff_graphs sample.one_caller sample.two_callers).changed_edges := by
    decide +kernel
  exact (hreports.changed _ hlisted).1 ⟨⟨1⟩, ⟨2⟩, by decide, by decide⟩

theorem reports_only_changes_iff_insertion :
    sample.insertion.ReportsOnlyChanges ↔ sample.insertion.Undisturbed :=
  Edit.reports_only_changes_iff _ (by decide +kernel) (by decide +kernel)

end cgx.diff
