import Mathlib.Data.List.Dedup
import Cgx.Lib.Backtrack
import Cgx.Lib.Walk
import Cgx.Query.Walk

open cgx.core walks sorting backtrack

namespace cgx.query

/-- Why a path enumeration stopped before it was exhausted. -/
abbrev TruncationReason := Truncation

/-- One node on an enumerated walk, with the edge taken to enter it and the
exceptional flag as it is entered. -/
structure WalkStep where
  node : NodeId
  via : Option EdgeRecord
  exception_transient : Bool
deriving DecidableEq

/-- How an enumeration keeps a path from looping: no repeated node, or no repeated
relationship. -/
inductive CycleRule where
  | SimplePath
  | Trail
deriving DecidableEq

/-- The enumerated paths and the bound that stopped the walk, if one did. -/
structure PathEnumeration where
  paths : List (List WalkStep)
  truncation : Option TruncationReason

/-- The relationships used on a path. -/
def used_edges (stack : List WalkStep) : List EdgeId :=
  stack.filterMap fun s => s.via.map EdgeRecord.id

/-- Whether the rule forbids extending the path by this neighbor. -/
def CycleRule.blocks (rule : CycleRule) (stack : List WalkStep) (nbr : NodeId × EdgeRecord) : Bool :=
  match rule with
  | .SimplePath => stack.any fun s => s.node = nbr.1
  | .Trail => (used_edges stack).contains nbr.2.id

namespace PathWalker

/-- The search tree of a path enumeration: a path ends where it meets the goal after
its first node, and goes on along the admitted edges the rule leaves within the
depth limit. -/
def dfs_tree (walker : PathWalker) (view : GraphView) (goal : NodeId) (dir : Direction)
    (rule : CycleRule) : backtrack.Tree WalkStep where
  goal before here := here.node = goal && !before.isEmpty
  children before here :=
    if within walker.limit (before.length + 1) then
      ((walker.nbrs view dir here.node).filter fun nbr => !rule.blocks (before ++ [here]) nbr).map
        fun nbr => ⟨nbr.1, some nbr.2, advance_exceptional here.exception_transient nbr.2⟩
    else []

/-- Depth-first enumeration under the step budget and the path cap. A path repeats no
node, or no relationship, so the recursion is no deeper than there are nodes and
edges. -/
def enumerate_dfs (walker : PathWalker) (view : GraphView) (start goal : NodeId) (dir : Direction)
    (rule : CycleRule) : PathEnumeration :=
  let walk := explore walker.step_budget walker.path_cap (walker.dfs_tree view goal dir rule)
    (view.node_count + view.edges.length + 2) [] ⟨start, none, false⟩ ⟨[], 0, none⟩
  ⟨walk.found, walk.truncation⟩

/-- The walks that never reuse a relationship but may revisit a node. -/
def enumerate_trails (walker : PathWalker) (view : GraphView) (start goal : NodeId)
    (dir : Direction) : PathEnumeration :=
  walker.enumerate_dfs view start goal dir .Trail

/-- The nodes one step on from a layer, each once. -/
def next_layer (walker : PathWalker) (view : GraphView) (dir : Direction) (frontier : List NodeId) :
    List NodeId :=
  frontier.foldl (fun next node =>
    (sort_by (compareOn NodeId.raw) ((view.neighbors node dir walker.filter).map EdgeRef.peer)).foldl
      view.mark next) []

/-- Every node that a walk of `min` to `max_depth` hops from `start` ends at, in
ascending order. Nodes may recur across layers, so cycles are found. -/
def reachable_within (walker : PathWalker) (view : GraphView) (start : NodeId) (dir : Direction)
    (min : Nat) : List NodeId :=
  let max := (walker.max_depth.getD 4294967295).toNat
  sort_by (compareOn NodeId.raw) (layers (walker.next_layer view dir) min max 0 [start] []).dedup

section layers

variable {walker : PathWalker} {view : GraphView} {dir : Direction}

theorem mem_next_layer {frontier : List NodeId} {y : NodeId} :
    y ∈ walker.next_layer view dir frontier ↔ ∃ x ∈ frontier, walker.Follows view dir x y := by
  have hrow : ∀ x, (y ∈ sort_by (compareOn NodeId.raw)
      ((view.neighbors x dir walker.filter).map EdgeRef.peer) ∧ y.index < view.node_count) ↔
      walker.Follows view dir x y := by
    intro x
    rw [mem_sort_by, List.mem_map]
    constructor
    · rintro ⟨⟨er, her, hpeer⟩, hrange⟩
      exact ⟨er, her, hpeer, hrange⟩
    · rintro ⟨er, her, hpeer, hrange⟩
      exact ⟨⟨er, her, hpeer⟩, hrange⟩
  have hfold : ∀ marked : List NodeId, y ∈ frontier.foldl (fun next node =>
      (sort_by (compareOn NodeId.raw) ((view.neighbors node dir walker.filter).map EdgeRef.peer)).foldl
        view.mark next) marked ↔ y ∈ marked ∨ ∃ x ∈ frontier, walker.Follows view dir x y := by
    induction frontier with
    | nil => simp
    | cons node rest ih =>
      intro marked
      rw [List.foldl_cons, ih, GraphView.mem_foldl_mark, hrow]
      simp [or_assoc]
  rw [next_layer, hfold]
  simp

/-- Hop-bounded reachability is exactly the existence of a walk in the range. -/
theorem mem_reachable_within {start y : NodeId} {min : Nat} :
    y ∈ walker.reachable_within view start dir min ↔
      ∃ k, 1 ≤ k ∧ k ≤ (walker.max_depth.getD 4294967295).toNat ∧ min ≤ k ∧
        Walk (walker.Follows view dir) k start y := by
  unfold reachable_within
  rw [mem_sort_by, List.mem_dedup, mem_layers (fun layer y => mem_next_layer)]
  simp

/-- One admitted hop: an edge of the view that the filter and the fan-out cap admit,
from the node `x` to the node `y` in the walk's direction. -/
def AdmittedHop (walker : PathWalker) (view : GraphView) (dir : Direction) (x y : NodeId) : Prop :=
  x.index < view.node_count ∧ y.index < view.node_count ∧
    ∃ edge ∈ view.edges, dir.origin edge = x ∧ dir.peer edge = y ∧
      walker.filter.admits edge = true ∧ view.over_cap walker.filter edge = false

/-- The greatest hop count a walk may have. -/
def depth_bound (walker : PathWalker) : Nat :=
  (walker.max_depth.getD 4294967295).toNat

theorem follows_eq_admitted_hop : walker.Follows view dir = walker.AdmittedHop view dir := by
  funext x y
  apply propext
  constructor
  · rintro ⟨er, her, rfl, hrange⟩
    obtain ⟨hedge, horigin, hpeer, hxrange, hadmits, hcap⟩ := GraphView.mem_neighbors.mp her
    exact ⟨hxrange, hrange, er.edge, hedge, horigin, hpeer.symm, hadmits, hcap⟩
  · rintro ⟨hxrange, hrange, edge, hedge, horigin, rfl, hadmits, hcap⟩
    exact ⟨⟨edge, dir.peer edge⟩,
      GraphView.mem_neighbors.mpr ⟨hedge, horigin, rfl, hxrange, hadmits, hcap⟩, rfl, hrange⟩

theorem reachable_within_ascending (start : NodeId) (min : Nat) :
    (walker.reachable_within view start dir min).Pairwise fun a b => a.raw < b.raw := by
  unfold reachable_within
  have hnodup : (sort_by (compareOn NodeId.raw)
      (layers (walker.next_layer view dir) min walker.depth_bound 0 [start] []).dedup).Nodup :=
    (perm_sort_by _).nodup_iff.mpr (List.nodup_dedup _)
  refine ((pairwise_sort_by _).and hnodup).imp ?_
  rintro a b ⟨hle, hne⟩
  have hle : a.raw ≤ b.raw := Std.isLE_compare.mp hle
  have hraw : a.index ≠ b.index := fun heq => hne (NodeId.ext_index heq)
  exact UInt32.lt_iff_toNat_lt.mpr (Nat.lt_of_le_of_ne (UInt32.le_iff_toNat_le.mp hle) hraw)

/-- The peer set of a variable-length pattern, each node once and in ascending order:
the ends of the admitted walks whose number of hops lies in the range. The start and
the nodes of a cycle are found like any other. -/
theorem reachable_within_exact (walker : PathWalker) (view : GraphView) (start : NodeId)
    (dir : Direction) (min : UInt32) :
    ((walker.reachable_within view start dir min.toNat).Pairwise fun a b => a.raw < b.raw) ∧
      ∀ y, y ∈ walker.reachable_within view start dir min.toNat ↔
        ∃ k, Nat.max min.toNat 1 ≤ k ∧ k ≤ walker.depth_bound ∧
          Walk (walker.AdmittedHop view dir) k start y := by
  refine ⟨reachable_within_ascending start min.toNat, fun y => ?_⟩
  rw [mem_reachable_within, follows_eq_admitted_hop]
  constructor
  · intro ⟨k, hpos, hmax, hmin, hwalk⟩
    exact ⟨k, Nat.max_le.mpr ⟨hmin, hpos⟩, hmax, hwalk⟩
  · intro ⟨k, hfloor, hmax, hwalk⟩
    obtain ⟨hmin, hpos⟩ := Nat.max_le.mp hfloor
    exact ⟨k, hpos, hmax, hmin, hwalk⟩

end layers

/-- Consecutive hops along admitted edges, starting at a node. -/
def Hops (walker : PathWalker) (view : GraphView) (dir : Direction) : NodeId → List EdgeRef → Prop
  | _, [] => True
  | x, er :: rest => er ∈ view.neighbors x dir walker.filter ∧ er.peer.index < view.node_count ∧
      walker.Hops view dir er.peer rest

/-- The node a list of hops arrives at. -/
def arrives : NodeId → List EdgeRef → NodeId
  | x, [] => x
  | _, er :: rest => arrives er.peer rest

/-- The relationships of a list of hops. -/
def hop_ids (hops : List EdgeRef) : List EdgeId :=
  hops.map fun er => er.edge.id

/-- The recorded steps of a list of hops. -/
def steps_of : Bool → List EdgeRef → List WalkStep
  | _, [] => []
  | exc, er :: rest =>
    ⟨er.peer, some er.edge, advance_exceptional exc er.edge⟩ ::
      steps_of (advance_exceptional exc er.edge) rest

/-- A walk of at most the limit's hops that repeats no relationship. -/
structure IsTrail (walker : PathWalker) (view : GraphView) (dir : Direction) (start goal : NodeId)
    (hops : List EdgeRef) : Prop where
  nonempty : hops ≠ []
  follows : walker.Hops view dir start hops
  distinct : (hop_ids hops).Nodup
  bounded : within walker.limit hops.length = true
  arrives : arrives start hops = goal

/-- The walk meets its goal only at its end. -/
def FirstArrival (goal : NodeId) (hops : List EdgeRef) : Prop :=
  ∀ er ∈ hops.dropLast, er.peer ≠ goal

section trails

variable {walker : PathWalker} {view : GraphView} {dir : Direction}

theorem walk_iff_hops {k : Nat} {x y : NodeId} :
    Walk (walker.Follows view dir) k x y ↔
      ∃ hops, walker.Hops view dir x hops ∧ hops.length = k ∧ arrives x hops = y := by
  induction k generalizing x with
  | zero =>
    rw [Walk.zero_iff]
    constructor
    · intro h
      exact ⟨[], trivial, rfl, h⟩
    · rintro ⟨hops, _, hlength, harrives⟩
      rw [List.length_eq_zero_iff.mp hlength] at harrives
      exact harrives
  | succ k ih =>
    rw [Walk.succ_iff_head]
    constructor
    · rintro ⟨w, ⟨er, her, hpeer, hrange⟩, hwalk⟩
      obtain ⟨hops, hhops, hlength, harrives⟩ := ih.mp hwalk
      subst hpeer
      exact ⟨er :: hops, ⟨her, hrange, hhops⟩, by simp [hlength], harrives⟩
    · rintro ⟨hops, hhops, hlength, harrives⟩
      cases hops with
      | nil => simp at hlength
      | cons er rest =>
        obtain ⟨her, hrange, hrest⟩ := hhops
        exact ⟨er.peer, ⟨er, her, rfl, hrange⟩, ih.mpr ⟨rest, hrest, by simpa using hlength, harrives⟩⟩

theorem steps_of_ne_nil {exc : Bool} {hops : List EdgeRef} : steps_of exc hops = [] ↔ hops = [] := by
  cases hops <;> simp [steps_of]

@[simp] theorem length_steps_of (exc : Bool) (hops : List EdgeRef) :
    (steps_of exc hops).length = hops.length := by
  induction hops generalizing exc with
  | nil => rfl
  | cons er rest ih => simp [steps_of, ih]

/-- The recorded steps tell the hops. -/
theorem steps_of_inj {exc : Bool} {hops hops' : List EdgeRef} (h : steps_of exc hops = steps_of exc hops') :
    hops = hops' := by
  induction hops generalizing exc hops' with
  | nil => exact (steps_of_ne_nil.mp h.symm).symm
  | cons er rest ih =>
    cases hops' with
    | nil => simp [steps_of] at h
    | cons er' rest' =>
      simp only [steps_of, List.cons.injEq, WalkStep.mk.injEq, Option.some.injEq] at h
      obtain ⟨⟨hpeer, hedge, _⟩, hrest⟩ := h
      have her : er = er' := by
        cases er
        cases er'
        simp_all
      subst her
      rw [ih hrest]

theorem mem_children {goal : NodeId} {rule : CycleRule} {before : List WalkStep} {here child : WalkStep} :
    child ∈ (walker.dfs_tree view goal dir rule).children before here ↔
      within walker.limit (before.length + 1) = true ∧ ∃ er ∈ view.neighbors here.node dir walker.filter,
        er.peer.index < view.node_count ∧ rule.blocks (before ++ [here]) (er.peer, er.edge) = false ∧
          child = ⟨er.peer, some er.edge, advance_exceptional here.exception_transient er.edge⟩ := by
  simp only [dfs_tree]
  split
  · rename_i hwithin
    simp only [hwithin, true_and, List.mem_map, List.mem_filter, Bool.not_eq_true', Prod.exists]
    constructor
    · rintro ⟨peer, edge, ⟨hnbr, hfresh⟩, hchild⟩
      obtain ⟨her, hrange⟩ := mem_nbrs.mp hnbr
      exact ⟨⟨edge, peer⟩, her, hrange, hfresh, hchild.symm⟩
    · rintro ⟨er, her, hrange, hfresh, hchild⟩
      exact ⟨er.peer, er.edge, ⟨mem_nbrs.mpr ⟨her, hrange⟩, hfresh⟩, hchild.symm⟩
  · rename_i hwithin
    simp [hwithin]

private theorem mem_trail_children {goal : NodeId} {before : List WalkStep} {here child : WalkStep} :
    child ∈ (walker.dfs_tree view goal dir .Trail).children before here ↔
      within walker.limit (before.length + 1) = true ∧ ∃ er ∈ view.neighbors here.node dir walker.filter,
        er.peer.index < view.node_count ∧ er.edge.id ∉ used_edges (before ++ [here]) ∧
          child = ⟨er.peer, some er.edge, advance_exceptional here.exception_transient er.edge⟩ := by
  simp only [mem_children, CycleRule.blocks, List.contains_eq_mem, decide_eq_false_iff_not]

private theorem used_edges_push (before : List WalkStep) (here : WalkStep) (er : EdgeRef) (exc : Bool) :
    used_edges (before ++ [here] ++ [⟨er.peer, some er.edge, exc⟩]) =
      used_edges (before ++ [here]) ++ [er.edge.id] := by
  rw [used_edges, List.filterMap_append]
  rfl

/-- Below the first node, the tree extends a path by the hops that keep its
relationships distinct and meet the goal only at their end. -/
private theorem extends_iff_hops {goal : NodeId} {rest : List WalkStep} (before : List WalkStep)
    (here : WalkStep) (hbefore : before ≠ []) :
    (walker.dfs_tree view goal dir .Trail).Extends before here rest ↔
      ∃ hops, rest = steps_of here.exception_transient hops ∧ walker.Hops view dir here.node hops ∧
        (hop_ids hops).Nodup ∧ (∀ er ∈ hops, er.edge.id ∉ used_edges (before ++ [here])) ∧
        (hops ≠ [] → within walker.limit (before.length + hops.length) = true) ∧
        arrives here.node hops = goal ∧ (hops ≠ [] → here.node ≠ goal) ∧ FirstArrival goal hops := by
  have hgoal : ∀ here : WalkStep, ∀ before : List WalkStep, before ≠ [] →
      (walker.dfs_tree view goal dir .Trail).goal before here = decide (here.node = goal) := by
    intro here before hbefore
    simp [dfs_tree, hbefore]
  induction rest generalizing before here with
  | nil =>
    simp only [backtrack.Tree.Extends, hgoal here before hbefore, decide_eq_true_eq]
    constructor
    · intro h
      exact ⟨[], rfl, trivial, List.nodup_nil, by simp, by simp, h, by simp, by simp [FirstArrival]⟩
    · rintro ⟨hops, hnil, _, _, _, _, harrives, _, _⟩
      rw [eq_comm, steps_of_ne_nil] at hnil
      subst hnil
      exact harrives
  | cons child rest ih =>
    simp only [backtrack.Tree.Extends, hgoal here before hbefore, decide_eq_false_iff_not]
    have hbelow : (walker.dfs_tree view goal dir .Trail).Extends (before ++ [here]) child rest ↔ _ :=
      ih (before ++ [here]) child (by simp)
    rw [mem_trail_children, hbelow]
    constructor
    · rintro ⟨hnot, ⟨hwithin, er, her, hrange, hfresh, hchild⟩, hops, hrest, hhops, hnodup, hdisjoint, hbound,
        harrives, hpass, hfirst⟩
      subst hchild
      rw [used_edges_push] at hdisjoint
      simp only [List.mem_append, List.mem_singleton, not_or] at hdisjoint
      refine ⟨er :: hops, ?_, ⟨her, hrange, hhops⟩, ?_, ?_, ?_, harrives, fun _ => hnot, ?_⟩
      · rw [hrest]
        rfl
      · refine List.nodup_cons.mpr ⟨?_, hnodup⟩
        intro hmem
        obtain ⟨er', her', hid⟩ := List.mem_map.mp hmem
        exact (hdisjoint er' her').2 hid
      · intro er' her'
        obtain rfl | her' := List.mem_cons.mp her'
        · exact hfresh
        · exact (hdisjoint er' her').1
      · intro _
        cases hops with
        | nil => exact hwithin
        | cons er' hops =>
          have hnext := hbound (List.cons_ne_nil _ _)
          simp only [List.length_append, List.length_cons, List.length_nil] at hnext ⊢
          rwa [show before.length + (hops.length + 1 + 1) = before.length + (0 + 1) + (hops.length + 1) by omega]
      · cases hops with
        | nil => simp [FirstArrival]
        | cons er' hops =>
          intro er'' her''
          rw [List.dropLast_cons_cons] at her''
          obtain rfl | her'' := List.mem_cons.mp her''
          · exact hpass (List.cons_ne_nil _ _)
          · exact hfirst er'' her''
    · rintro ⟨hops, hrest, hhops, hnodup, hdisjoint, hbound, harrives, hpass, hfirst⟩
      cases hops with
      | nil => simp [steps_of] at hrest
      | cons er hops =>
        obtain ⟨her, hrange, hhops⟩ := hhops
        simp only [steps_of, List.cons.injEq] at hrest
        obtain ⟨hchild, hrest⟩ := hrest
        subst hchild
        have hnodup := List.nodup_cons.mp hnodup
        have hlimit := hbound (List.cons_ne_nil _ _)
        refine ⟨hpass (List.cons_ne_nil _ _), ⟨?_, er, her, hrange, hdisjoint er List.mem_cons_self, rfl⟩,
          hops, hrest, hhops, hnodup.2, ?_, ?_, harrives, ?_, ?_⟩
        · refine within_of_le ?_ hlimit
          simp
        · intro er' her'
          rw [used_edges_push]
          simp only [List.mem_append, List.mem_singleton, not_or]
          refine ⟨hdisjoint er' (List.mem_cons_of_mem _ her'), fun hid => hnodup.1 ?_⟩
          show er.edge.id ∈ hops.map fun er => er.edge.id
          rw [← hid]
          exact List.mem_map_of_mem her'
        · intro _
          refine within_of_le ?_ hlimit
          simp only [List.length_append, List.length_cons, List.length_nil]
          omega
        · intro hne
          obtain ⟨er', hops', rfl⟩ := List.exists_cons_of_ne_nil hne
          exact hfirst er (by simp)
        · intro er' her'
          cases hops with
          | nil => simp at her'
          | cons er'' hops => exact hfirst er' (by simp [List.dropLast_cons_cons, her'])

/-- From the start, the tree leads along the trails that meet the goal only at their
end. -/
theorem extends_start_iff {start goal : NodeId} {rest : List WalkStep} :
    (walker.dfs_tree view goal dir .Trail).Extends [] ⟨start, none, false⟩ rest ↔
      ∃ hops, rest = steps_of false hops ∧ IsTrail walker view dir start goal hops ∧
        FirstArrival goal hops := by
  have hstart : ∀ here, (walker.dfs_tree view goal dir .Trail).goal [] here = false := by
    intro here
    simp [dfs_tree]
  cases rest with
  | nil =>
    simp only [backtrack.Tree.Extends, hstart, Bool.false_eq_true, false_iff]
    rintro ⟨hops, hnil, htrail, _⟩
    rw [eq_comm, steps_of_ne_nil] at hnil
    exact htrail.nonempty hnil
  | cons child rest =>
    simp only [backtrack.Tree.Extends, hstart, true_and]
    have hbelow : (walker.dfs_tree view goal dir .Trail).Extends [⟨start, none, false⟩] child rest ↔ _ :=
      extends_iff_hops [⟨start, none, false⟩] child (List.cons_ne_nil _ _)
    rw [mem_trail_children, List.nil_append, hbelow]
    constructor
    · rintro ⟨⟨hwithin, er, her, hrange, _, hchild⟩, hops, hrest, hhops, hnodup, hdisjoint, hbound, harrives,
        hpass, hfirst⟩
      subst hchild
      refine ⟨er :: hops, ?_, ⟨List.cons_ne_nil _ _, ⟨her, hrange, hhops⟩, ?_, ?_, harrives⟩, ?_⟩
      · rw [hrest]
        rfl
      · refine List.nodup_cons.mpr ⟨?_, hnodup⟩
        intro hmem
        obtain ⟨er', her', hid⟩ := List.mem_map.mp hmem
        exact hdisjoint er' her' (by simp [used_edges, hid])
      · cases hops with
        | nil => exact hwithin
        | cons er' hops =>
          have hnext := hbound (List.cons_ne_nil _ _)
          simp only [List.length_cons, List.length_nil] at hnext ⊢
          rwa [show hops.length + 1 + 1 = 0 + 1 + (hops.length + 1) by omega] at *
      · cases hops with
        | nil => simp [FirstArrival]
        | cons er' hops =>
          intro er'' her''
          rw [List.dropLast_cons_cons] at her''
          obtain rfl | her'' := List.mem_cons.mp her''
          · exact hpass (List.cons_ne_nil _ _)
          · exact hfirst er'' her''
    · rintro ⟨hops, hrest, ⟨hne, hhops, hnodup, hbound, harrives⟩, hfirst⟩
      cases hops with
      | nil => exact absurd rfl hne
      | cons er hops =>
        obtain ⟨her, hrange, hhops⟩ := hhops
        simp only [steps_of, List.cons.injEq] at hrest
        obtain ⟨hchild, hrest⟩ := hrest
        subst hchild
        have hnodup := List.nodup_cons.mp hnodup
        refine ⟨⟨within_of_le (by simp) hbound, er, her, hrange, by simp [used_edges], rfl⟩, hops, hrest,
          hhops, hnodup.2, ?_, ?_, harrives, ?_, ?_⟩
        · intro er' her'
          simp only [used_edges, List.nil_append, List.cons_append, List.filterMap_cons, Option.map_none,
            Option.map_some, List.filterMap_nil, List.mem_singleton]
          intro hid
          refine hnodup.1 ?_
          show er.edge.id ∈ hops.map fun er => er.edge.id
          rw [← hid]
          exact List.mem_map_of_mem her'
        · intro _
          refine within_of_le ?_ hbound
          simp
          omega
        · intro hne
          obtain ⟨er', hops', rfl⟩ := List.exists_cons_of_ne_nil hne
          exact hfirst er (by simp)
        · intro er' her'
          cases hops with
          | nil => simp at her'
          | cons er'' hops => exact hfirst er' (by simp [List.dropLast_cons_cons, her'])

theorem hop_ids_subset {x : NodeId} {hops : List EdgeRef} (h : walker.Hops view dir x hops) :
    hop_ids hops ⊆ view.edges.map EdgeRecord.id := by
  induction hops generalizing x with
  | nil => simp [hop_ids]
  | cons er rest ih =>
    obtain ⟨her, _, hrest⟩ := h
    intro id hid
    obtain rfl | hid := List.mem_cons.mp hid
    · exact List.mem_map_of_mem (GraphView.mem_neighbors.mp her).1
    · exact ih hrest hid

/-- A trail has no more hops than the view has edges. -/
theorem length_trail_le {start goal : NodeId} {hops : List EdgeRef}
    (h : IsTrail walker view dir start goal hops) : hops.length ≤ view.edges.length := by
  have hsub := (List.subperm_of_subset h.distinct (hop_ids_subset h.follows)).length_le
  simpa [hop_ids] using hsub

private theorem mem_leaves_iff_trail {start goal : NodeId} {path : List WalkStep} :
    path ∈ leaves (walker.dfs_tree view goal dir .Trail) (view.node_count + view.edges.length + 2) []
        ⟨start, none, false⟩ ↔
      ∃ hops, path = ⟨start, none, false⟩ :: steps_of false hops ∧
        IsTrail walker view dir start goal hops ∧ FirstArrival goal hops := by
  rw [mem_leaves]
  constructor
  · rintro ⟨rest, hpath, hextends, _⟩
    obtain ⟨hops, hrest, htrail, hfirst⟩ := extends_start_iff.mp hextends
    exact ⟨hops, by rw [hpath, hrest, List.nil_append], htrail, hfirst⟩
  · rintro ⟨hops, hpath, htrail, hfirst⟩
    refine ⟨steps_of false hops, hpath, extends_start_iff.mpr ⟨hops, rfl, htrail, hfirst⟩, ?_⟩
    have hlength := length_trail_le htrail
    rw [length_steps_of]
    omega

/-- Every enumerated path is a trail that meets the goal only at its end. -/
theorem enumerate_trails_sound {start goal : NodeId} {path : List WalkStep}
    (h : path ∈ (walker.enumerate_trails view start goal dir).paths) :
    ∃ hops, path = ⟨start, none, false⟩ :: steps_of false hops ∧
      IsTrail walker view dir start goal hops ∧ FirstArrival goal hops := by
  obtain hnil | hleaf := explore_sound path h
  · simp at hnil
  · exact mem_leaves_iff_trail.mp hleaf

/-- An enumeration that is not truncated returns exactly these trails. -/
theorem mem_enumerate_trails {start goal : NodeId} {path : List WalkStep} (hcap : 0 < walker.path_cap)
    (hnone : (walker.enumerate_trails view start goal dir).truncation = none) :
    path ∈ (walker.enumerate_trails view start goal dir).paths ↔
      ∃ hops, path = ⟨start, none, false⟩ :: steps_of false hops ∧
        IsTrail walker view dir start goal hops ∧ FirstArrival goal hops := by
  rw [← mem_leaves_iff_trail]
  have hfound := explore_complete hcap hnone
  simp only [enumerate_trails, enumerate_dfs] at hfound ⊢
  rw [hfound]

end trails

end PathWalker

end cgx.query
