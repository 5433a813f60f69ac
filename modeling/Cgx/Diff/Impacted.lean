import Mathlib.Data.List.Dedup
import Cgx.Core.Edge
import Cgx.Diff.Exact

open cgx.core cgx.store sorted_map sorting Std

namespace cgx.diff

/-- The blob of each path of one side, by ascending path. -/
abbrev Manifest := List (String × String)

/-- Paths at head whose blob differs from base, or that base does not have. -/
def changed_paths (base head : Manifest) : List String :=
  (head.filter fun p => get? compare p.1 base ≠ some p.2).map Prod.fst

/-- The node of an FQN, the lowest id winning a duplicate. -/
def by_fqn (head : LinkedGraph) (fqn : String) : Option NodeId :=
  (head.nodes.find? fun node => node.fqn = fqn).map NodeRecord.id

def EdgeIdentity.ends (identity : EdgeIdentity) : List String :=
  [identity.src_fqn, identity.dst_fqn]

/-- The symbols the graph diff names. -/
def s_struct (head : LinkedGraph) (diff : GraphDiff) : List NodeId :=
  (diff.added_nodes.map DiffNode.fqn ++ diff.added_edges.flatMap (fun e => e.identity.ends) ++
    diff.changed_edges.flatMap fun e => e.identity.ends).filterMap (by_fqn head)

/-- The head symbols defined in a changed file. -/
def s_file (head : LinkedGraph) (paths : List String) : List NodeId :=
  (head.nodes.filter fun node => paths.contains node.file).map NodeRecord.id

/-- The changed symbols the reverse walk of `impacted_tests` is seeded with, ascending. -/
def changed_set (base head : LinkedGraph) (base_manifest head_manifest : Manifest) : List NodeId :=
  sort_by (compareOn NodeId.raw)
    (s_struct head (diff_graphs base head) ++ s_file head (changed_paths base_manifest head_manifest)).dedup

/-- The blob of a path differs between the sides or is new. -/
def FileChanged (base_manifest head_manifest : Manifest) (path : String) : Prop :=
  ∃ oid, (path, oid) ∈ head_manifest ∧ get? compare path base_manifest ≠ some oid

/-- An edge of this identity is on one side only, or says on one side what no edge of
the identity says on the other. -/
def Differs (base head : LinkedGraph) (identity : EdgeIdentity) : Prop :=
  (∃ h ∈ edges_at head identity, ∀ b ∈ edges_at base identity, (classify_change b h).any = true) ∨
    ∃ b ∈ edges_at base identity, ∀ h ∈ edges_at head identity, (classify_change b h).any = true

/-- A head node whose tests a change may concern: its file changed, its name is new, or it
is an end of an edge that differs. -/
def IsChanged (base head : LinkedGraph) (base_manifest head_manifest : Manifest) (node : NodeRecord) : Prop :=
  FileChanged base_manifest head_manifest node.file ∨ ¬ Named base node.fqn ∨
    ∃ identity : EdgeIdentity, node.fqn ∈ identity.ends ∧ Differs base head identity

/-- Head still has an edge of the identity, and the last one of it is new or says
something else than the last one at base. -/
def LastDiffers (base head : LinkedGraph) (identity : EdgeIdentity) : Prop :=
  ∃ h, representative head identity = some h ∧
    ∀ b, representative base identity = some b → (classify_change b h).any = true

/-- The changed nodes the two parts of the set find: those of changed files, and of the
other nodes the first of its name, when the name is new or ends such an edge. -/
def IsFound (base head : LinkedGraph) (base_manifest head_manifest : Manifest) (node : NodeRecord) : Prop :=
  FileChanged base_manifest head_manifest node.file ∨
    head.nodes.find? (fun n => n.fqn = node.fqn) = some node ∧
      (¬ Named base node.fqn ∨ ∃ identity : EdgeIdentity, node.fqn ∈ identity.ends ∧ LastDiffers base head identity)

variable {base head : LinkedGraph} {base_manifest head_manifest : Manifest}

theorem mem_changed_paths {path : String} :
    path ∈ changed_paths base_manifest head_manifest ↔ FileChanged base_manifest head_manifest path := by
  rw [changed_paths, List.mem_map]
  constructor
  · rintro ⟨p, hp, hpath⟩
    obtain ⟨hmem, hdiffers⟩ := List.mem_filter.mp hp
    subst hpath
    exact ⟨p.2, hmem, of_decide_eq_true hdiffers⟩
  · rintro ⟨oid, hmem, hdiffers⟩
    exact ⟨(path, oid), List.mem_filter.mpr ⟨hmem, decide_eq_true hdiffers⟩, rfl⟩

theorem by_fqn_eq_some {fqn : String} {id : NodeId} :
    by_fqn head fqn = some id ↔ ∃ node, head.nodes.find? (fun n => n.fqn = node.fqn) = some node ∧
      node.fqn = fqn ∧ node.id = id := by
  rw [by_fqn, Option.map_eq_some_iff]
  constructor
  · rintro ⟨node, hfind, hid⟩
    have hfound := List.find?_some hfind
    have hfqn : node.fqn = fqn := by simpa using hfound
    exact ⟨node, by rw [hfqn]; exact hfind, hfqn, hid⟩
  · rintro ⟨node, hfind, hfqn, hid⟩
    exact ⟨node, by rw [← hfqn]; exact hfind, hid⟩

/-- An end of an added or a changed edge of the diff is an end of an identity whose last
edge differs. -/
theorem named_by_edges_iff {fqn : String} :
    ((∃ e ∈ (diff_graphs base head).added_edges, fqn ∈ e.identity.ends) ∨
      ∃ e ∈ (diff_graphs base head).changed_edges, fqn ∈ e.identity.ends) ↔
      ∃ identity : EdgeIdentity, fqn ∈ identity.ends ∧ LastDiffers base head identity := by
  have hadded : ∀ d, d ∈ (diff_graphs base head).added_edges ↔ _ := fun _ => mem_edges_only
  constructor
  · intro hnamed
    obtain ⟨e, he, hends⟩ | ⟨e, he, hends⟩ := hnamed
    · obtain ⟨hrep, _, hnone⟩ := (hadded e).mp he
      refine ⟨e.identity, hends, e.record, hrep, fun b hb => ?_⟩
      rw [hnone] at hb
      cases hb
    · obtain ⟨hbase, hhead, hchanges, hany⟩ := mem_changed_edges.mp he
      refine ⟨e.identity, hends, e.head, hhead, fun b hb => ?_⟩
      rw [hbase] at hb
      rw [← Option.some.inj hb, ← hchanges]
      exact hany
  · rintro ⟨identity, hends, h, hrep, hdiffers⟩
    cases hbase : representative base identity with
    | none =>
      obtain ⟨_, line, hid⟩ := mem_edges_at.mp (representative_mem hrep)
      exact .inl ⟨⟨identity, h, line⟩, (hadded _).mpr ⟨hrep, hid, hbase⟩, hends⟩
    | some b =>
      exact .inr ⟨⟨identity, b, h, classify_change b h⟩, mem_changed_edges.mpr ⟨hbase, hrep, rfl, hdiffers b hbase⟩,
        hends⟩

/-- Which ids the set holds. -/
theorem mem_changed_set {id : NodeId} :
    id ∈ changed_set base head base_manifest head_manifest ↔
      ∃ seed ∈ head.nodes, seed.id = id ∧ IsFound base head base_manifest head_manifest seed := by
  have hfile : id ∈ s_file head (changed_paths base_manifest head_manifest) ↔
      ∃ seed ∈ head.nodes, seed.id = id ∧ FileChanged base_manifest head_manifest seed.file := by
    rw [s_file, List.mem_map]
    constructor
    · rintro ⟨node, hnode, hid⟩
      obtain ⟨hmem, hpath⟩ := List.mem_filter.mp hnode
      exact ⟨node, hmem, hid, mem_changed_paths.mp (List.contains_iff_mem.mp hpath)⟩
    · rintro ⟨node, hmem, hid, hchanged⟩
      exact ⟨node, List.mem_filter.mpr ⟨hmem, List.contains_iff_mem.mpr (mem_changed_paths.mpr hchanged)⟩, hid⟩
  have hadded : ∀ fqn, (∃ d ∈ (diff_graphs base head).added_nodes, d.fqn = fqn) ↔ Named head fqn ∧ ¬ Named base fqn :=
    fun _ => exists_mem_nodes_only
  have hstruct : id ∈ s_struct head (diff_graphs base head) ↔
      ∃ seed ∈ head.nodes, seed.id = id ∧ head.nodes.find? (fun n => n.fqn = seed.fqn) = some seed ∧
        (¬ Named base seed.fqn ∨
          ∃ identity : EdgeIdentity, seed.fqn ∈ identity.ends ∧ LastDiffers base head identity) := by
    simp only [s_struct, List.mem_filterMap, List.mem_append, List.mem_map, List.mem_flatMap, by_fqn_eq_some, or_assoc,
      hadded, named_by_edges_iff]
    constructor
    · rintro ⟨fqn, hnamed, node, hfirst, hfqn, hid⟩
      subst hfqn
      exact ⟨node, List.mem_of_find?_eq_some hfirst, hid, hfirst, hnamed.imp_left And.right⟩
    · rintro ⟨node, hmem, hid, hfirst, hnamed⟩
      exact ⟨node.fqn, hnamed.imp_left fun h => ⟨⟨node, hmem, rfl⟩, h⟩, node, hfirst, rfl, hid⟩
  rw [changed_set, mem_sort_by, List.mem_dedup, List.mem_append, hstruct, hfile]
  constructor
  · intro h
    obtain ⟨seed, hmem, hid, hfound⟩ | ⟨seed, hmem, hid, hfound⟩ := h
    · exact ⟨seed, hmem, hid, .inr hfound⟩
    · exact ⟨seed, hmem, hid, .inl hfound⟩
  · rintro ⟨seed, hmem, hid, hfound⟩
    cases hfound with
    | inl hfound => exact .inr ⟨seed, hmem, hid, hfound⟩
    | inr hfound => exact .inl ⟨seed, hmem, hid, hfound⟩

/-- The changed set misses no changed node exactly when each one is found by its file or
by a name the diff lists, as the first node of that name. -/
theorem changed_set_misses_nothing_iff (base head : LinkedGraph) (base_manifest head_manifest : Manifest) :
    (∀ node ∈ head.nodes, IsChanged base head base_manifest head_manifest node →
        node.id ∈ changed_set base head base_manifest head_manifest) ↔
      ∀ node ∈ head.nodes, IsChanged base head base_manifest head_manifest node →
        ∃ seed ∈ head.nodes, seed.id = node.id ∧ IsFound base head base_manifest head_manifest seed := by
  constructor
  · intro hcomplete node hnode hchanged
    exact mem_changed_set.mp (hcomplete node hnode hchanged)
  · intro hfound node hnode hchanged
    exact mem_changed_set.mpr (hfound node hnode hchanged)

/-- `a` calls `b` of another file. -/
def caller_and_callee : LinkedGraph where
  nodes := [function_node 0 "a", { function_node 1 "b" with file := "b.rs" }]
  edges := [certain_edge 0 .Calls 0 1]
  candidates := []

/-- The callee is renamed, and the call of the untouched file is gone. -/
def callee_renamed : LinkedGraph where
  nodes := [function_node 0 "a", { function_node 1 "c" with file := "b.rs" }]
  edges := []
  candidates := []

/-- The caller that lost its call is not in the changed set. -/
theorem changed_set_misses_a_lost_call :
    changed_set caller_and_callee callee_renamed [("a.rs", "1"), ("b.rs", "1")] [("a.rs", "1"), ("b.rs", "2")] =
        [⟨1⟩] ∧
      ¬ ∀ node ∈ callee_renamed.nodes,
        IsChanged caller_and_callee callee_renamed [("a.rs", "1"), ("b.rs", "1")] [("a.rs", "1"), ("b.rs", "2")] node →
          node.id ∈ changed_set caller_and_callee callee_renamed [("a.rs", "1"), ("b.rs", "1")]
            [("a.rs", "1"), ("b.rs", "2")] := by
  have hset : changed_set caller_and_callee callee_renamed [("a.rs", "1"), ("b.rs", "1")]
      [("a.rs", "1"), ("b.rs", "2")] = [⟨1⟩] := by
    decide +kernel
  refine ⟨hset, fun hcomplete => ?_⟩
  have hlost : Differs caller_and_callee callee_renamed ⟨"a", "b", .Calls, "a.rs", none⟩ :=
    .inr ⟨certain_edge 0 .Calls 0 1, by decide +kernel, by decide +kernel⟩
  have hmem := hcomplete (function_node 0 "a") List.mem_cons_self
    (.inr (.inr ⟨⟨"a", "b", .Calls, "a.rs", none⟩, by decide, hlost⟩))
  rw [hset] at hmem
  revert hmem
  decide

end cgx.diff
