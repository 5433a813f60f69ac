import Cgx.Cql.Binding
import Cgx.Lib.Gather
import Cgx.Query.Trails

open cgx.core cgx.query walks gathering

namespace cgx.cql

/-- Default upper hop bound of an unbounded variable-length walk. -/
def DEFAULT_VAR_LENGTH_DEPTH : UInt32 := 8

/-- Default cap on the rows the peer-set branch of a variable-length walk emits. -/
def DEFAULT_VAR_LENGTH_ROWS : Nat := 1024

/-- One solution of a pattern, as it is pushed: the incoming binding, the nodes at the
anchored end and at the peer end, and the relationship or path to bind. -/
structure Solution where
  base : Binding
  anchor : NodeId
  peer : NodeId
  rel : Option EdgeId
  path : Option PathValue

/-- The binding a solution extends its base to. -/
def Solution.bind (plan : PatternPlan) (s : Solution) : Binding :=
  let b := bind_node s.base plan.anchor_var s.anchor
  let b := bind_node b plan.peer_var s.peer
  let b := bind_optional b plan.rel_var (s.rel.map .Edge)
  bind_optional b plan.path_var (s.path.map .Path)

/-- The solutions pushed so far and the truncation signal. -/
structure Expansion where
  out : List Solution
  truncation : Option TruncationReason

/-- Whether some walk of an expansion was cut short. -/
def Expansion.truncated (acc : Expansion) : Bool :=
  acc.truncation.isSome

/-- An exhausted step budget is the stronger signal: a path cap never replaces it. -/
def upgrade_truncation (acc : Option TruncationReason) (reason : TruncationReason) :
    Option TruncationReason :=
  match acc with
  | none => some reason
  | some .PathCap => some reason
  | some .StepBudget => some .StepBudget

/-- Resolve an anchor set to node ids, in ascending order. -/
def anchor_ids (view : GraphView) : AnchorSet → List NodeId
  | .Symbol pat => view.resolve_symbol pat
  | .Kinds kinds => view.nodes_of_kind kinds
  | .All => view.nodes.map NodeRecord.id

/-- Whether `peer` satisfies the constraints of the pattern's peer end. -/
def peer_matches (view : GraphView) (plan : PatternPlan) (peer : NodeId) : Bool :=
  node_matches view (plan.peer_props, plan.peer_kinds) peer

/-- Resolve the peer end to goal ids: by its name when that is a string, else every
node satisfying its constraints. -/
def peer_goal_ids (view : GraphView) (plan : PatternPlan) : List NodeId :=
  match name_key (plan.peer_props, plan.peer_kinds) with
  | some pat => view.resolve_symbol pat
  | none => (view.nodes.map NodeRecord.id).filter (peer_matches view plan)

/-- One admitted edge from the anchor, one solution. -/
def expand_single_hop (view : GraphView) (plan : PatternPlan) (base : Binding) (anchor : NodeId)
    (acc : Expansion) : Expansion :=
  let hops := (view.neighbors anchor plan.direction plan.filter).filter fun er =>
    peer_matches view plan er.peer
  { acc with out := acc.out ++ hops.map fun er =>
      ⟨base, anchor, er.peer, some er.edge.id, some ⟨[anchor, er.peer], [er.edge.id]⟩⟩ }

/-- The upper hop bound: the explicit one, else the default. -/
def effective_max_depth (max : Option UInt32) : UInt32 :=
  max.getD DEFAULT_VAR_LENGTH_DEPTH

/-- The walker of a variable-length walk. -/
def var_walker (plan : PatternPlan) (max : Option UInt32) : PathWalker :=
  ⟨plan.filter, some (effective_max_depth max), none, none⟩

/-- Enumerate the witness paths from the anchor to one goal. -/
def expand_goal (view : GraphView) (plan : PatternPlan) (base : Binding) (anchor : NodeId)
    (min : UInt32) (max : Option UInt32) (acc : Expansion) (goal : NodeId) : Expansion :=
  let enumer := (var_walker plan max).enumerate_trails view anchor goal plan.direction
  let long_enough := enumer.paths.filter fun steps => min.toNat ≤ steps.length - 1
  { out := acc.out ++ long_enough.map fun steps =>
      ⟨base, anchor, goal, none, some ⟨steps.map WalkStep.node, used_edges steps⟩⟩
    truncation := match enumer.truncation with
      | some reason => upgrade_truncation acc.truncation reason
      | none => acc.truncation }

/-- Push the reached nodes that are goals, up to the row cap. -/
def push_peers (goals : List NodeId) (base : Binding) (anchor : NodeId) :
    List NodeId → Expansion → Expansion
  | [], acc => acc
  | node :: rest, acc =>
    if !goals.contains node then push_peers goals base anchor rest acc
    else if DEFAULT_VAR_LENGTH_ROWS ≤ acc.out.length then
      { acc with truncation := upgrade_truncation acc.truncation .PathCap }
    else push_peers goals base anchor rest
      { acc with out := acc.out ++ [⟨base, anchor, node, none, none⟩] }

/-- A variable-length walk from the anchor. With a path variable the witness paths to
each goal are enumerated; otherwise the reachable goals alone are bound. -/
def expand_var_length (view : GraphView) (plan : PatternPlan) (base : Binding) (anchor : NodeId)
    (min : UInt32) (max : Option UInt32) (acc : Expansion) : Expansion :=
  let goals := peer_goal_ids view plan
  if plan.path_var.isSome then
    goals.foldl (expand_goal view plan base anchor min max) acc
  else
    push_peers goals base anchor
      ((var_walker plan max).reachable_within view anchor plan.direction min.toNat) acc

/-- The anchors of one incoming binding: the node its join variable is bound to, or the
shared anchor set. -/
def step_anchors (view : GraphView) (plan : PatternPlan) (base : Binding) : List NodeId :=
  match plan.anchor_bound_var with
  | some var => (base.node var).toList
  | none => anchor_ids view plan.anchor

def expand_anchor (view : GraphView) (plan : PatternPlan) (base : Binding) (acc : Expansion)
    (anchor : NodeId) : Expansion :=
  match plan.cardinality with
  | .SingleHop => expand_single_hop view plan base anchor acc
  | .VarLength min max => expand_var_length view plan base anchor min max acc

/-- Expand a binding stream by one lowered pattern. -/
def expand_pattern (view : GraphView) (plan : PatternPlan) (input : List Binding)
    (truncation : Option TruncationReason) : Expansion :=
  input.foldl (fun acc base => (step_anchors view plan base).foldl (expand_anchor view plan base) acc)
    ⟨[], truncation⟩

/-- The hop counts a variable-length pattern admits. -/
def InRange (min : UInt32) (max : Option UInt32) (k : Nat) : Prop :=
  1 ≤ k ∧ min.toNat ≤ k ∧ k ≤ (effective_max_depth max).toNat

/-- What one anchor of one incoming binding contributes. -/
inductive Emits (view : GraphView) (plan : PatternPlan) (base : Binding) (anchor : NodeId) :
    Solution → Prop
  | hop {er : EdgeRef} (hcard : plan.cardinality = .SingleHop)
      (her : er ∈ view.neighbors anchor plan.direction plan.filter)
      (hpeer : peer_matches view plan er.peer = true) :
      Emits view plan base anchor
        ⟨base, anchor, er.peer, some er.edge.id, some ⟨[anchor, er.peer], [er.edge.id]⟩⟩
  | trail {min : UInt32} {max : Option UInt32} {goal : NodeId} {hops : List EdgeRef}
      (hcard : plan.cardinality = .VarLength min max) (hpath : plan.path_var.isSome = true)
      (hgoal : goal ∈ peer_goal_ids view plan)
      (htrail : PathWalker.IsTrail (var_walker plan max) view plan.direction anchor goal hops)
      (hfirst : PathWalker.FirstArrival goal hops) (hmin : min.toNat ≤ hops.length) :
      Emits view plan base anchor
        ⟨base, anchor, goal, none,
          some ⟨anchor :: hops.map EdgeRef.peer, PathWalker.hop_ids hops⟩⟩
  | peer {min : UInt32} {max : Option UInt32} {node : NodeId} {k : Nat}
      (hcard : plan.cardinality = .VarLength min max) (hpath : plan.path_var.isSome = false)
      (hgoal : node ∈ peer_goal_ids view plan) (hrange : InRange min max k)
      (hwalk : Walk ((var_walker plan max).Follows view plan.direction) k anchor node) :
      Emits view plan base anchor ⟨base, anchor, node, none, none⟩

theorem upgrade_truncation_ne_none (acc : Option TruncationReason) (reason : TruncationReason) :
    (upgrade_truncation acc reason).isSome = true := by
  cases acc with
  | none => rfl
  | some previous => cases previous <;> rfl

section gathers

variable {view : GraphView} {plan : PatternPlan} {base : Binding} {anchor : NodeId} {min : UInt32}
  {max : Option UInt32}

theorem expand_single_hop_gathers (hcard : plan.cardinality = .SingleHop) :
    Gathers Expansion.out Expansion.truncated (Emits view plan base anchor)
      (expand_single_hop view plan base anchor) where
  keeps acc s hs := List.mem_append_left _ hs
  sound acc s hs := by
    obtain hs | hs := List.mem_append.mp hs
    · exact .inl hs
    · obtain ⟨er, her, rfl⟩ := List.mem_map.mp hs
      obtain ⟨her, hpeer⟩ := List.mem_filter.mp her
      exact .inr (.hop hcard her hpeer)
  complete acc hcut := by
    refine ⟨hcut, fun s hs => ?_⟩
    cases hs with
    | hop _ her hpeer =>
      apply List.mem_append_right
      exact List.mem_map_of_mem (List.mem_filter.mpr ⟨her, hpeer⟩)
    | trail hvar => simp [hcard] at hvar
    | peer hvar => simp [hcard] at hvar

private theorem map_node_steps_of (exc : Bool) (hops : List EdgeRef) :
    (PathWalker.steps_of exc hops).map WalkStep.node = hops.map EdgeRef.peer := by
  induction hops generalizing exc with
  | nil => rfl
  | cons er rest ih => simp [PathWalker.steps_of, ih]

private theorem used_edges_steps_of (exc : Bool) (hops : List EdgeRef) :
    used_edges (PathWalker.steps_of exc hops) = PathWalker.hop_ids hops := by
  induction hops generalizing exc with
  | nil => rfl
  | cons er rest ih =>
    have hrest := ih (advance_exceptional exc er.edge)
    simp only [used_edges, PathWalker.hop_ids] at hrest ⊢
    simp [PathWalker.steps_of, hrest]

/-- The path value of the recorded steps of a trail. -/
private theorem path_of_trail (hops : List EdgeRef) :
    (⟨((⟨anchor, none, false⟩ : WalkStep) :: PathWalker.steps_of false hops).map WalkStep.node,
      used_edges (⟨anchor, none, false⟩ :: PathWalker.steps_of false hops)⟩ : PathValue) =
        ⟨anchor :: hops.map EdgeRef.peer, PathWalker.hop_ids hops⟩ := by
  rw [List.map_cons, map_node_steps_of, ← used_edges_steps_of false hops]
  rfl

theorem expand_goal_gathers {goal : NodeId} (hcard : plan.cardinality = .VarLength min max)
    (hpath : plan.path_var.isSome = true) (hgoal : goal ∈ peer_goal_ids view plan) :
    Gathers Expansion.out Expansion.truncated
      (fun s => Emits view plan base anchor s ∧ s.peer = goal)
      (fun acc => expand_goal view plan base anchor min max acc goal) where
  keeps acc s hs := List.mem_append_left _ hs
  sound acc s hs := by
    obtain hs | hs := List.mem_append.mp hs
    · exact .inl hs
    · obtain ⟨steps, hsteps, rfl⟩ := List.mem_map.mp hs
      obtain ⟨hmem, hmin⟩ := List.mem_filter.mp hsteps
      obtain ⟨hops, rfl, htrail, hfirst⟩ := PathWalker.enumerate_trails_sound hmem
      have hlength : min.toNat ≤ hops.length := by simpa using hmin
      rw [path_of_trail]
      exact .inr ⟨.trail hcard hpath hgoal htrail hfirst hlength, rfl⟩
  complete acc hcut := by
    have hcap : 0 < (var_walker plan max).path_cap := Nat.succ_pos 1023
    have hnone : ((var_walker plan max).enumerate_trails view anchor goal plan.direction).truncation = none := by
      simp only [Expansion.truncated, expand_goal] at hcut
      split at hcut
      · simp [upgrade_truncation_ne_none] at hcut
      · assumption
    refine ⟨by simpa [Expansion.truncated, expand_goal, hnone] using hcut, fun s hs => ?_⟩
    obtain ⟨hs, rfl⟩ := hs
    cases hs with
    | hop hsingle => simp [hcard] at hsingle
    | trail hvar _ _ htrail hfirst hmin =>
      rw [hcard] at hvar
      cases hvar
      have hmem := (PathWalker.mem_enumerate_trails hcap hnone).mpr ⟨_, rfl, htrail, hfirst⟩
      apply List.mem_append_right
      rw [← path_of_trail]
      refine List.mem_map.mpr ⟨_, List.mem_filter.mpr ⟨hmem, ?_⟩, rfl⟩
      simpa using hmin
    | peer _ hnopath => simp [hpath] at hnopath

/-- A path expansion that is not cut short ran every enumeration to its end. -/
theorem enumeration_uncut (plan : PatternPlan) {p : String} (hcard : plan.cardinality = .VarLength min max)
    (hpath : plan.path_var = some p)
    (hnone : (expand_var_length view plan base anchor min max ⟨[], none⟩).truncation = none) :
    ∀ goal ∈ peer_goal_ids view plan,
      ((var_walker plan max).enumerate_trails view anchor goal plan.direction).truncation = none := by
  have hsome : plan.path_var.isSome = true := by rw [hpath]; rfl
  have hcut : Expansion.truncated (expand_var_length view plan base anchor min max ⟨[], none⟩) = false := by
    rw [Expansion.truncated, hnone]
    rfl
  simp only [expand_var_length, hsome, if_true] at hcut
  intro goal hgoal
  obtain ⟨acc, hacc⟩ :=
    Gathers.uncut_rounds (fun goal hgoal => expand_goal_gathers hcard hsome hgoal) hcut goal hgoal
  simp only [Expansion.truncated, expand_goal] at hacc
  split at hacc
  · simp [upgrade_truncation_ne_none] at hacc
  · assumption

theorem push_peers_gathers {goals nodes : List NodeId} :
    Gathers Expansion.out Expansion.truncated
      (fun s => ∃ node ∈ nodes, node ∈ goals ∧ s = ⟨base, anchor, node, none, none⟩)
      (push_peers goals base anchor nodes) := by
  induction nodes with
  | nil =>
    refine ⟨fun acc s hs => hs, fun acc s hs => .inl hs, fun acc hcut => ⟨hcut, ?_⟩⟩
    rintro s ⟨node, hnode, _⟩
    simp at hnode
  | cons node rest ih =>
    refine ⟨?_, ?_, ?_⟩
    · intro acc s hs
      simp only [push_peers]
      split
      · exact ih.keeps acc s hs
      · split
        · exact hs
        · exact ih.keeps _ s (List.mem_append_left _ hs)
    · intro acc s hs
      simp only [push_peers] at hs
      split at hs
      · obtain hs | ⟨n, hn, hP⟩ := ih.sound acc s hs
        · exact .inl hs
        · exact .inr ⟨n, List.mem_cons_of_mem node hn, hP⟩
      · rename_i hgoal
        split at hs
        · exact .inl hs
        · obtain hs | ⟨n, hn, hP⟩ := ih.sound _ s hs
          · obtain hs | hs := List.mem_append.mp hs
            · exact .inl hs
            · exact .inr ⟨node, List.mem_cons_self, by simpa using hgoal, List.mem_singleton.mp hs⟩
          · exact .inr ⟨n, List.mem_cons_of_mem node hn, hP⟩
    · intro acc hcut
      simp only [push_peers] at hcut ⊢
      split at hcut
      · rename_i hskip
        rw [if_pos hskip]
        obtain ⟨hstart, hrest⟩ := ih.complete acc hcut
        refine ⟨hstart, ?_⟩
        rintro s ⟨n, hn, hgoal, hs⟩
        obtain rfl | hn := List.mem_cons.mp hn
        · simp [hgoal] at hskip
        · exact hrest s ⟨n, hn, hgoal, hs⟩
      · rename_i hgoal
        rw [if_neg hgoal]
        split at hcut
        · simp [Expansion.truncated, upgrade_truncation_ne_none] at hcut
        · rename_i hroom
          rw [if_neg hroom]
          obtain ⟨hstart, hrest⟩ := ih.complete _ hcut
          refine ⟨hstart, ?_⟩
          rintro s ⟨n, hn, hmem, hs⟩
          obtain rfl | hn := List.mem_cons.mp hn
          · exact ih.keeps _ s (List.mem_append_right _ (List.mem_singleton.mpr hs))
          · exact hrest s ⟨n, hn, hmem, hs⟩

theorem expand_var_length_gathers (hcard : plan.cardinality = .VarLength min max) :
    Gathers Expansion.out Expansion.truncated (Emits view plan base anchor)
      (expand_var_length view plan base anchor min max) := by
  cases hpath : plan.path_var.isSome with
  | true =>
    have hloop : Gathers Expansion.out Expansion.truncated _ fun acc =>
        (peer_goal_ids view plan).foldl (expand_goal view plan base anchor min max) acc :=
      Gathers.foldl fun goal hgoal => expand_goal_gathers hcard hpath hgoal
    have hdef : expand_var_length view plan base anchor min max = fun acc =>
        (peer_goal_ids view plan).foldl (expand_goal view plan base anchor min max) acc := by
      funext acc
      simp only [expand_var_length, hpath, if_true]
    rw [hdef]
    refine hloop.congr fun s => ?_
    constructor
    · rintro ⟨goal, _, hs, _⟩
      exact hs
    · intro hs
      refine ⟨s.peer, ?_, hs, rfl⟩
      cases hs with
      | hop hsingle => simp [hcard] at hsingle
      | trail _ _ hgoal => exact hgoal
      | peer _ hnopath => simp [hpath] at hnopath
  | false =>
    have hdef : expand_var_length view plan base anchor min max = push_peers (peer_goal_ids view plan) base
        anchor ((var_walker plan max).reachable_within view anchor plan.direction min.toNat) := by
      funext acc
      simp only [expand_var_length, hpath, Bool.false_eq_true, if_false]
    rw [hdef]
    refine push_peers_gathers.congr fun s => ?_
    simp only [PathWalker.mem_reachable_within]
    constructor
    · rintro ⟨node, ⟨k, hpos, hle, hmin, hwalk⟩, hgoal, hs⟩
      subst hs
      exact .peer hcard hpath hgoal ⟨hpos, hmin, hle⟩ hwalk
    · intro hs
      cases hs with
      | hop hsingle => simp [hcard] at hsingle
      | trail _ hsome => simp [hpath] at hsome
      | @peer _ _ node k hvar _ hgoal hrange hwalk =>
        rw [hcard] at hvar
        cases hvar
        exact ⟨node, ⟨k, hrange.1, hrange.2.2, hrange.2.1, hwalk⟩, hgoal, rfl⟩

/-- An anchor that is not cut short contributes all it emits. -/
theorem mem_expand_var_length (plan : PatternPlan) (hcard : plan.cardinality = .VarLength min max)
    (hnone : (expand_var_length view plan base anchor min max ⟨[], none⟩).truncation = none) {s : Solution} :
    s ∈ (expand_var_length view plan base anchor min max ⟨[], none⟩).out ↔ Emits view plan base anchor s := by
  refine (expand_var_length_gathers hcard).mem_iff rfl ?_
  rw [Expansion.truncated, hnone]
  rfl

theorem expand_anchor_gathers :
    Gathers Expansion.out Expansion.truncated (Emits view plan base anchor)
      (fun acc => expand_anchor view plan base acc anchor) := by
  cases hcard : plan.cardinality with
  | SingleHop =>
    simp only [expand_anchor, hcard]
    exact expand_single_hop_gathers hcard
  | VarLength min max =>
    simp only [expand_anchor, hcard]
    exact expand_var_length_gathers hcard

theorem expand_pattern_gathers {input : List Binding} :
    Gathers Expansion.out Expansion.truncated
      (fun s => ∃ base ∈ input, ∃ anchor ∈ step_anchors view plan base, Emits view plan base anchor s)
      (fun acc => input.foldl
        (fun acc base => (step_anchors view plan base).foldl (expand_anchor view plan base) acc) acc) :=
  Gathers.foldl fun _ _ => Gathers.foldl fun _ _ => expand_anchor_gathers

/-- Every solution of a pattern comes from an anchor of an incoming binding. -/
theorem expand_pattern_sound {input : List Binding} {truncation : Option TruncationReason} {s : Solution}
    (hs : s ∈ (expand_pattern view plan input truncation).out) :
    ∃ base ∈ input, ∃ anchor ∈ step_anchors view plan base, Emits view plan base anchor s :=
  expand_pattern_gathers.of_mem (s := ⟨[], truncation⟩) rfl hs

/-- A run that is not cut short emits every such solution. -/
theorem expand_pattern_complete {input : List Binding} {truncation : Option TruncationReason} {s : Solution}
    (hnone : (expand_pattern view plan input truncation).truncation = none)
    (hs : ∃ base ∈ input, ∃ anchor ∈ step_anchors view plan base, Emits view plan base anchor s) :
    s ∈ (expand_pattern view plan input truncation).out :=
  (expand_pattern_gathers.mem_iff (s := ⟨[], truncation⟩) rfl (by
    simp only [Expansion.truncated]
    exact Option.isSome_eq_false_iff.mpr (Option.isNone_iff_eq_none.mpr hnone))).mpr hs

end gathers

section frame

variable {view : GraphView} {plan : PatternPlan} {base : Binding}

private theorem push_peers_out_congr {goals nodes : List NodeId} {anchor : NodeId} (acc acc' : Expansion)
    (h : acc.out = acc'.out) :
    (push_peers goals base anchor nodes acc).out = (push_peers goals base anchor nodes acc').out := by
  induction nodes generalizing acc acc' with
  | nil => exact h
  | cons node rest ih =>
    simp only [push_peers, h]
    split
    · exact ih acc acc' h
    · split
      · rfl
      · exact ih _ _ rfl

private theorem expand_anchor_out_congr {anchor : NodeId} (acc acc' : Expansion) (h : acc.out = acc'.out) :
    (expand_anchor view plan base acc anchor).out = (expand_anchor view plan base acc' anchor).out := by
  simp only [expand_anchor]
  split
  · simp only [expand_single_hop, h]
  · simp only [expand_var_length]
    split
    · apply foldl_out_congr _ acc acc' h
      intro goal _ acc acc' h
      simp only [expand_goal, h]
    · exact push_peers_out_congr acc acc' h

/-- The truncation signal of earlier walks changes no solution. -/
theorem expand_pattern_out (input : List Binding) (truncation : Option TruncationReason) :
    (expand_pattern view plan input truncation).out = (expand_pattern view plan input none).out := by
  refine foldl_out_congr ?_ (⟨[], truncation⟩ : Expansion) ⟨[], none⟩ rfl
  intro base _
  exact foldl_out_congr fun anchor _ => expand_anchor_out_congr

end frame

/-- The pairs of nodes a pattern joins: by an admitted edge, by a witness path, or by
an admitted walk. -/
def Joined (view : GraphView) (plan : PatternPlan) (x y : NodeId) : Prop :=
  match plan.cardinality with
  | .SingleHop => ∃ er ∈ view.neighbors x plan.direction plan.filter, er.peer = y
  | .VarLength min max =>
    if plan.path_var.isSome then
      ∃ hops, PathWalker.IsTrail (var_walker plan max) view plan.direction x y hops ∧
        PathWalker.FirstArrival y hops ∧ min.toNat ≤ hops.length
    else ∃ k, InRange min max k ∧ Walk ((var_walker plan max).Follows view plan.direction) k x y

theorem joined_hop_iff {view : GraphView} (plan : PatternPlan) {x y : NodeId}
    (hcard : plan.cardinality = .SingleHop) :
    Joined view plan x y ↔ ∃ er ∈ view.neighbors x plan.direction plan.filter, er.peer = y := by
  simp only [Joined, hcard]

theorem joined_trail_iff {view : GraphView} (plan : PatternPlan) {min : UInt32} {max : Option UInt32}
    {x y : NodeId} (hcard : plan.cardinality = .VarLength min max) (hpath : plan.path_var.isSome = true) :
    Joined view plan x y ↔
      ∃ hops, PathWalker.IsTrail (var_walker plan max) view plan.direction x y hops ∧
        PathWalker.FirstArrival y hops ∧ min.toNat ≤ hops.length := by
  simp only [Joined, hcard, hpath, if_true]

theorem joined_walk_iff {view : GraphView} (plan : PatternPlan) {min : UInt32} {max : Option UInt32}
    {x y : NodeId} (hcard : plan.cardinality = .VarLength min max) (hpath : plan.path_var.isSome = false) :
    Joined view plan x y ↔
      ∃ k, InRange min max k ∧ Walk ((var_walker plan max).Follows view plan.direction) k x y := by
  simp only [Joined, hcard, hpath, Bool.false_eq_true, if_false]

/-- The constraints of the peer end an expansion checks. -/
def kept_by_peer (plan : PatternPlan) (constraints : NodeConstraints) : NodeConstraints :=
  match plan.cardinality with
  | .SingleHop => constraints
  | .VarLength _ _ => kept_by_goals constraints

section emits

variable {view : GraphView} {plan : PatternPlan}

theorem mem_anchor_ids {constraints : NodeConstraints} {x : NodeId} :
    x ∈ anchor_ids view (anchor_set constraints.1 constraints.2) ↔
      node_matches view (kept_by_anchor constraints) x = true := by
  simp only [anchor_set, kept_by_anchor]
  rw [← name_key]
  cases hkey : name_key constraints with
  | some pat => exact mem_resolve_name_key hkey
  | none =>
    simp only [node_matches_iff, kinds_hold]
    cases constraints.2 with
    | some kinds => simp [anchor_ids, GraphView.mem_nodes_of_kind]
    | none => simp [anchor_ids, GraphView.mem_node_ids]

theorem mem_peer_goal_ids {y : NodeId} :
    y ∈ peer_goal_ids view plan ↔
      node_matches view (kept_by_goals (plan.peer_props, plan.peer_kinds)) y = true := by
  simp only [peer_goal_ids, kept_by_goals]
  cases hkey : name_key (plan.peer_props, plan.peer_kinds) with
  | some pat => exact mem_resolve_name_key hkey
  | none =>
    simp only [List.mem_filter, GraphView.mem_node_ids, peer_matches, and_iff_right_iff_imp]
    exact fun h => (node_matches_iff.mp h).1

theorem Emits.base_anchor {base : Binding} {anchor : NodeId} {s : Solution}
    (h : Emits view plan base anchor s) : s.base = base ∧ s.anchor = anchor := by
  cases h <;> exact ⟨rfl, rfl⟩

/-- An anchor contributes exactly its joined peers that pass the checked constraints. -/
theorem exists_emits_iff (plan : PatternPlan) (base : Binding) {anchor peer : NodeId} :
    (∃ s, Emits view plan base anchor s ∧ s.peer = peer) ↔ Joined view plan anchor peer ∧
      node_matches view (kept_by_peer plan (plan.peer_props, plan.peer_kinds)) peer = true := by
  constructor
  · rintro ⟨s, hs, hpeer⟩
    subst hpeer
    cases hs with
    | hop hcard her hmatch =>
      rw [joined_hop_iff plan hcard, kept_by_peer, hcard]
      exact ⟨⟨_, her, rfl⟩, hmatch⟩
    | trail hcard hpath hgoal htrail hfirst hmin =>
      rw [joined_trail_iff plan hcard hpath, kept_by_peer, hcard]
      exact ⟨⟨_, htrail, hfirst, hmin⟩, mem_peer_goal_ids.mp hgoal⟩
    | peer hcard hpath hgoal hrange hwalk =>
      rw [joined_walk_iff plan hcard hpath, kept_by_peer, hcard]
      exact ⟨⟨_, hrange, hwalk⟩, mem_peer_goal_ids.mp hgoal⟩
  · rintro ⟨hjoined, hmatch⟩
    cases hcard : plan.cardinality with
    | SingleHop =>
      rw [joined_hop_iff plan hcard] at hjoined
      rw [kept_by_peer, hcard] at hmatch
      obtain ⟨er, her, hpeer⟩ := hjoined
      subst hpeer
      exact ⟨_, .hop hcard her hmatch, rfl⟩
    | VarLength min max =>
      rw [kept_by_peer, hcard] at hmatch
      have hgoal := mem_peer_goal_ids.mpr hmatch
      cases hpath : plan.path_var.isSome with
      | true =>
        obtain ⟨hops, htrail, hfirst, hmin⟩ := (joined_trail_iff plan hcard hpath).mp hjoined
        exact ⟨_, .trail hcard hpath hgoal htrail hfirst hmin, rfl⟩
      | false =>
        obtain ⟨k, hrange, hwalk⟩ := (joined_walk_iff plan hcard hpath).mp hjoined
        exact ⟨_, .peer hcard hpath hgoal hrange hwalk, rfl⟩

end emits

end cgx.cql
