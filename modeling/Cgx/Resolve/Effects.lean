import Mathlib.Data.List.Dedup
import Cgx.Core.Edge
import Cgx.Lib.Condense
import Cgx.Resolve.Graph

open cgx.core sorting tarjan Relation

namespace cgx.core

namespace EffectSet

def empty : EffectSet :=
  ⟨0⟩

/-- The union of two sets. -/
def union_with (a b : EffectSet) : EffectSet :=
  ⟨a.bits ||| b.bits⟩

def is_empty (s : EffectSet) : Bool :=
  s.bits = 0

/-- The effect at a bit position is in the set. -/
def has (s : EffectSet) (bit : Nat) : Bool :=
  s.bits.toNat.testBit bit

@[simp] theorem has_empty (bit : Nat) : empty.has bit = false := by
  simp [has, empty]

@[simp] theorem has_union_with (a b : EffectSet) (bit : Nat) :
    (a.union_with b).has bit = (a.has bit || b.has bit) := by
  simp [has, union_with]

end EffectSet

end cgx.core

namespace cgx.resolve

/-- Per-run counters of the effect closure. -/
structure EffectStats where
  nodes_with_effects : Nat
  recursive_sccs : Nat
deriving DecidableEq

/-- The edge kinds effects propagate across: the call family without `Spawns`. -/
def propagates_effects : EdgeKind → Bool
  | .Calls | .CallsVirtual | .CallsClosure | .CallsCallback | .CallsAsync | .CallsIndirect => true
  | _ => false

section closure

variable (graph : ResolvedGraph)

def node_ids : List NodeId :=
  graph.nodes.map fun n => n.node.id

/-- The own effects of a node id. The last record of an id stands for it. -/
def own (n : NodeId) : EffectSet :=
  ((graph.nodes.reverse.find? fun r => r.node.id = n).map fun r => r.node.own_effects).getD .empty

/-- A set of node ids, in ascending order. -/
def id_set (ids : List NodeId) : List NodeId :=
  sort_by (compareOn NodeId.raw) ids.dedup

/-- The propagating successors of a node. Self-loops are left out. -/
def succ (n : NodeId) : List NodeId :=
  id_set ((graph.edges.filter fun e =>
    propagates_effects e.edge.kind ∧ e.edge.src = n ∧ e.edge.src ≠ e.edge.dst).map fun e => e.edge.dst)

/-- The components of the propagating graph, callees first. -/
def effect_sccs : List (List NodeId) :=
  tarjan.tarjan_sccs (compareOn NodeId.raw) (id_set (node_ids graph)) (succ graph)

/-- The component a node is in. -/
def scc_of (sccs : List (List NodeId)) (n : NodeId) : Option Nat :=
  sccs.findIdx? fun comp => n ∈ comp

/-- Union the settled effects of one successor, unless it is in the component itself. No
component holds a target that is no node: the lookup fails. -/
def union_target (sccs : List (List NodeId)) (settled : List EffectSet) (acc : EffectSet) (t : NodeId) :
    Option EffectSet := do
  let tj ← scc_of sccs t
  return if tj ≠ settled.length then acc.union_with (settled.getD tj .empty) else acc

/-- Settle the next component: all its members' own effects, and the settled effects of
every successor outside it. -/
def settle_scc (sccs : List (List NodeId)) (settled : List EffectSet) (comp : List NodeId) :
    Option (List EffectSet) := do
  let acc := comp.foldl (fun acc n => acc.union_with (own graph n)) .empty
  let acc ← (comp.flatMap (succ graph)).foldlM (union_target sccs settled) acc
  return settled ++ [acc]

/-- Compute the transitive effects of every node. -/
def run_effect_closure : Option (ResolvedGraph × EffectStats) := do
  let sccs := effect_sccs graph
  let scc_effects ← sccs.foldlM (settle_scc graph sccs) []
  let eff := fun n : NodeId => ((scc_of sccs n).bind fun i => scc_effects[i]?).getD .empty
  let nodes := graph.nodes.map fun n =>
    { n with node := { n.node with transitive_effects := eff n.node.id } }
  return ({ graph with nodes := nodes },
    { nodes_with_effects := nodes.countP fun n => !n.node.transitive_effects.is_empty
      recursive_sccs := sccs.countP fun comp => 1 < comp.length })

/-- A call that is no spawn leads from `x` to `y`. -/
def CallsInto (x y : NodeId) : Prop :=
  ∃ e ∈ graph.edges, e.edge.kind.is_call = true ∧ e.edge.kind ≠ .Spawns ∧ e.edge.src = x ∧ e.edge.dst = y

end closure

section exact

variable {graph : ResolvedGraph}

theorem propagates_effects_iff {kind : EdgeKind} :
    propagates_effects kind = true ↔ kind.is_call = true ∧ kind ≠ .Spawns := by
  cases kind <;> simp [propagates_effects, EdgeKind.is_call]

@[simp] theorem mem_id_set {ids : List NodeId} {n : NodeId} : n ∈ id_set ids ↔ n ∈ ids := by
  rw [id_set, mem_sort_by, List.mem_dedup]

theorem mem_succ {x y : NodeId} : y ∈ succ graph x ↔ CallsInto graph x y ∧ x ≠ y := by
  simp only [succ, mem_id_set, List.mem_map, List.mem_filter, decide_eq_true_eq, CallsInto,
    propagates_effects_iff]
  constructor
  · rintro ⟨e, ⟨he, ⟨hcall, hspawn⟩, rfl, hne⟩, rfl⟩
    exact ⟨⟨e, he, hcall, hspawn, rfl, rfl⟩, hne⟩
  · rintro ⟨⟨e, he, hcall, hspawn, rfl, rfl⟩, hne⟩
    exact ⟨e, ⟨he, ⟨hcall, hspawn⟩, rfl, hne⟩, rfl⟩

/-- With distinct ids, a node's own effects are those of its record. -/
theorem own_eq (hids : (node_ids graph).Nodup) {r : NodeWithProvenance} (hr : r ∈ graph.nodes) :
    own graph r.node.id = r.node.own_effects := by
  have hsame : ∀ r' ∈ graph.nodes, r'.node.id = r.node.id → r' = r :=
    fun r' hr' heq => List.inj_on_of_nodup_map hids hr' hr heq
  unfold own
  cases hfind : graph.nodes.reverse.find? fun r' => decide (r'.node.id = r.node.id) with
  | none =>
    have hnone := List.find?_eq_none.mp hfind r (List.mem_reverse.mpr hr)
    simp at hnone
  | some r' =>
    have hmem := List.mem_reverse.mp (List.mem_of_find?_eq_some hfind)
    have hid := List.find?_some hfind
    rw [hsame r' hmem (by simpa using hid)]
    rfl

/-- The graph the components are those of. -/
def effect_adjacency (graph : ResolvedGraph) (n : NodeId) : List NodeId :=
  (succ graph n).filter fun t => t ∈ id_set (node_ids graph)

theorem effect_sccs_spec (graph : ResolvedGraph) :
    Condensation (effect_adjacency graph) (id_set (node_ids graph)) (effect_sccs graph) :=
  tarjan_sccs_spec _ _ _

/-- Every call edge leads to a node. -/
def TargetsAreNodes (graph : ResolvedGraph) : Prop :=
  ∀ e ∈ graph.edges, e.edge.dst ∈ node_ids graph

theorem mem_effect_adjacency (htargets : TargetsAreNodes graph) {x y : NodeId} :
    y ∈ effect_adjacency graph x ↔ CallsInto graph x y ∧ x ≠ y := by
  simp only [effect_adjacency, List.mem_filter, decide_eq_true_eq, mem_id_set, mem_succ, and_iff_left_iff_imp]
  rintro ⟨⟨e, he, _, _, _, rfl⟩, _⟩
  exact htargets e he

/-- Leaving out the self-loops changes no path. -/
theorem reaches_iff (htargets : TargetsAreNodes graph) {x y : NodeId} :
    ReflTransGen (Edge (effect_adjacency graph)) x y ↔ ReflTransGen (CallsInto graph) x y := by
  constructor
  · intro h
    exact h.lift id fun a b hedge => ((mem_effect_adjacency htargets).mp hedge).1
  · intro h
    induction h with
    | refl => exact .refl
    | @tail b c _ hcall ih =>
      by_cases heq : b = c
      · rw [← heq]
        exact ih
      · exact ih.tail ((mem_effect_adjacency htargets).mpr ⟨hcall, heq⟩)

/-- The effects of the calls of a node: those of every node it reaches. -/
def Closes (graph : ResolvedGraph) (x : NodeId) (eff : EffectSet) : Prop :=
  ∀ bit, eff.has bit = true ↔ ∃ m, ReflTransGen (CallsInto graph) x m ∧ (own graph m).has bit = true

/-- The components settled so far have the effects of their members. -/
structure Settled (graph : ResolvedGraph) (before : List (List NodeId)) (settled : List EffectSet) : Prop where
  length_eq : settled.length = before.length
  closes : ∀ i comp, before[i]? = some comp → ∀ x ∈ comp, Closes graph x (settled.getD i .empty)

theorem has_foldl_own {comp : List NodeId} {acc : EffectSet} {bit : Nat} :
    (comp.foldl (fun acc n => acc.union_with (own graph n)) acc).has bit = true ↔
      acc.has bit = true ∨ ∃ n ∈ comp, (own graph n).has bit = true := by
  induction comp generalizing acc with
  | nil => simp
  | cons n rest ih => simp [ih, or_assoc]

/-- Where every target is in a component, the union goes through. -/
theorem union_targets {sccs : List (List NodeId)} {targets : List NodeId}
    (hfound : ∀ t ∈ targets, ∃ j, scc_of sccs t = some j) (settled : List EffectSet) (acc : EffectSet) :
    ∃ acc', targets.foldlM (union_target sccs settled) acc = some acc' ∧
      ∀ bit, acc'.has bit = true ↔ acc.has bit = true ∨ ∃ t ∈ targets, ∃ j, scc_of sccs t = some j ∧
        j ≠ settled.length ∧ (settled.getD j .empty).has bit = true := by
  induction targets generalizing acc with
  | nil => exact ⟨acc, rfl, by simp⟩
  | cons t rest ih =>
    obtain ⟨j, hj⟩ := hfound t List.mem_cons_self
    obtain ⟨acc', hrest, hacc'⟩ := ih (fun t' ht' => hfound t' (List.mem_cons_of_mem t ht'))
      (if j ≠ settled.length then acc.union_with (settled.getD j .empty) else acc)
    refine ⟨acc', ?_, fun bit => ?_⟩
    · rw [List.foldlM_cons, union_target, hj]
      exact hrest
    · rw [hacc' bit]
      by_cases hown : j = settled.length
      · simp only [hown, ne_eq, not_true_eq_false, if_false]
        simp only [List.mem_cons, exists_eq_or_imp, hj, hown, Option.some.injEq]
        simp
      · simp only [ne_eq, hown, not_false_eq_true, if_true, EffectSet.has_union_with, Bool.or_eq_true,
          List.mem_cons, exists_eq_or_imp, hj, Option.some.injEq, exists_eq_left', true_and, or_assoc]

/-- Settling the component after those already settled. -/
theorem settle_scc_spec (htargets : TargetsAreNodes graph) {before after : List (List NodeId)}
    {comp : List NodeId} {settled : List EffectSet} (hsplit : effect_sccs graph = before ++ comp :: after)
    (h : Settled graph before settled) :
    ∃ settled', settle_scc graph (effect_sccs graph) settled comp = some settled' ∧
      Settled graph (before ++ [comp]) settled' := by
  have hspec := effect_sccs_spec graph
  have hmem : ∀ n ∈ comp, ∀ t ∈ succ graph n, t ∈ effect_adjacency graph n := by
    intro n _ t ht
    exact (mem_effect_adjacency htargets).mpr (mem_succ.mp ht)
  have hcomp : ∀ t ∈ comp, scc_of (effect_sccs graph) t = some settled.length := by
    intro t ht
    rw [h.length_eq]
    exact hspec.findIdx_eq hsplit ht
  have hbefore : ∀ t ∈ before.flatten, ∃ j c, scc_of (effect_sccs graph) t = some j ∧
      before[j]? = some c ∧ t ∈ c := by
    intro t ht
    obtain ⟨c, hc, htc⟩ := List.mem_flatten.mp ht
    obtain ⟨pre, post, hpre⟩ := List.append_of_mem hc
    have hsplit' : effect_sccs graph = pre ++ c :: (post ++ comp :: after) := by
      rw [hsplit, hpre, List.append_assoc, List.cons_append]
    refine ⟨pre.length, c, hspec.findIdx_eq hsplit' htc, ?_, htc⟩
    rw [hpre]
    simp
  have hfound : ∀ t ∈ comp.flatMap (succ graph), ∃ j, scc_of (effect_sccs graph) t = some j := by
    intro t ht
    obtain ⟨n, hn, htn⟩ := List.mem_flatMap.mp ht
    obtain hlow | hsame := hspec.ordered before comp after hsplit n hn t (hmem n hn t htn)
    · obtain ⟨j, _, hj, _⟩ := hbefore t hlow
      exact ⟨j, hj⟩
    · exact ⟨_, hcomp t hsame⟩
  obtain ⟨acc, hfold, hacc⟩ := union_targets hfound settled
    (comp.foldl (fun acc n => acc.union_with (own graph n)) EffectSet.empty)
  refine ⟨settled ++ [acc], ?_, by simp [h.length_eq], ?_⟩
  · simp only [settle_scc, hfold]
    rfl
  · intro i c hc x hx
    by_cases hlast : i = before.length
    · have hsame : c = comp := by
        rw [hlast, List.getElem?_append_right (le_refl _)] at hc
        simpa using hc.symm
      subst hsame
      have hget : (settled ++ [acc]).getD i .empty = acc := by
        rw [hlast, ← h.length_eq]
        simp
      rw [hget]
      have hconnected : ∀ n ∈ c, ReflTransGen (CallsInto graph) x n := by
        intro n hn
        have hc : c ∈ effect_sccs graph := by rw [hsplit]; simp
        exact (reaches_iff htargets).mp (hspec.connected c hc x hx n hn)
      intro bit
      rw [hacc bit, has_foldl_own, EffectSet.has_empty]
      constructor
      · rintro ((habsurd | ⟨n, hn, hbit⟩) | ⟨t, ht, j, hj, hne, hbit⟩)
        · exact absurd habsurd (by simp)
        · exact ⟨n, hconnected n hn, hbit⟩
        · obtain ⟨n, hn, htn⟩ := List.mem_flatMap.mp ht
          obtain hlow | hsame := hspec.ordered before c after hsplit n hn t (hmem n hn t htn)
          · obtain ⟨j', c', hj', hget', htc'⟩ := hbefore t hlow
            obtain rfl : j' = j := Option.some.inj (hj'.symm.trans hj)
            obtain ⟨m, hpath, hm⟩ := (h.closes j' c' hget' t htc' bit).mp hbit
            exact ⟨m, ((hconnected n hn).tail (mem_succ.mp htn).1).trans hpath, hm⟩
          · exact absurd (Option.some.inj (hj.symm.trans (hcomp t hsame))) hne
      · rintro ⟨m, hpath, hm⟩
        obtain hsame | ⟨n, hn, t, ht, hlow, hrest⟩ :=
          hspec.leaves hsplit hx ((reaches_iff htargets).mpr hpath)
        · exact .inl (.inr ⟨m, hsame, hm⟩)
        · obtain ⟨j, c', hj, hget', htc'⟩ := hbefore t hlow
          refine .inr ⟨t, List.mem_flatMap.mpr ⟨n, hn, (List.mem_filter.mp ht).1⟩, j, hj, ?_, ?_⟩
          · have hlt := (List.getElem?_eq_some_iff.mp hget').1
            rw [h.length_eq]
            omega
          · exact (h.closes j c' hget' t htc' bit).mpr ⟨m, (reaches_iff htargets).mp hrest, hm⟩
    · have hlt : i < before.length := by
        have hbound := (List.getElem?_eq_some_iff.mp hc).1
        simp only [List.length_append, List.length_singleton] at hbound
        omega
      rw [List.getElem?_append_left hlt] at hc
      have hget : (settled ++ [acc]).getD i .empty = settled.getD i .empty := by
        rw [List.getD_eq_getElem?_getD, List.getD_eq_getElem?_getD, List.getElem?_append_left (h.length_eq ▸ hlt)]
      rw [hget]
      exact h.closes i c hc x hx

/-- Settling all components in order. -/
theorem settle_all (htargets : TargetsAreNodes graph) {before : List (List NodeId)} (after : List (List NodeId))
    {settled : List EffectSet} (hsplit : effect_sccs graph = before ++ after) (h : Settled graph before settled) :
    ∃ settled', after.foldlM (settle_scc graph (effect_sccs graph)) settled = some settled' ∧
      Settled graph (effect_sccs graph) settled' := by
  induction after generalizing before settled with
  | nil =>
    rw [List.append_nil] at hsplit
    exact ⟨settled, rfl, hsplit ▸ h⟩
  | cons comp rest ih =>
    obtain ⟨mid, hmid, hsettled⟩ := settle_scc_spec htargets hsplit h
    have hnext : effect_sccs graph = (before ++ [comp]) ++ rest := by simp [hsplit]
    obtain ⟨settled', hrest, hall⟩ := ih hnext hsettled
    refine ⟨settled', ?_, hall⟩
    rw [List.foldlM_cons, hmid]
    exact hrest

/-- The effect closure is exact: the effects of a node become those of every node it
reaches over calls that are no spawns, and nothing else changes. -/
theorem effect_closure_exact (hids : (node_ids graph).Nodup)
    (hends : ∀ e ∈ graph.edges, e.edge.src ∈ node_ids graph ∧ e.edge.dst ∈ node_ids graph) :
    ∃ closed stats, run_effect_closure graph = some (closed, stats) ∧
      closed = { graph with nodes := closed.nodes } ∧
      List.Forall₂ (fun n n' => ∃ eff, n' = { n with node := { n.node with transitive_effects := eff } } ∧
        ∀ bit, eff.has bit = true ↔ ∃ m ∈ graph.nodes,
          ReflTransGen (CallsInto graph) n.node.id m.node.id ∧ m.node.own_effects.has bit = true)
        graph.nodes closed.nodes := by
  have htargets : TargetsAreNodes graph := fun e he => (hends e he).2
  have hspec := effect_sccs_spec graph
  have hnone : Settled graph [] [] := ⟨rfl, by simp⟩
  obtain ⟨settled, hfold, hsettled⟩ := settle_all htargets (effect_sccs graph) rfl hnone
  refine ⟨_, _, by simp only [run_effect_closure, hfold]; rfl, rfl, ?_⟩
  rw [List.forall₂_map_right_iff, List.forall₂_same]
  intro n hn
  refine ⟨_, rfl, fun bit => ?_⟩
  have hnode : n.node.id ∈ id_set (node_ids graph) := mem_id_set.mpr (List.mem_map_of_mem hn)
  obtain ⟨comp, hcomp, hmem⟩ := List.mem_flatten.mp ((hspec.mem_iff _).mpr hnode)
  obtain ⟨before, after, hsplit⟩ := List.append_of_mem hcomp
  have hindex : scc_of (effect_sccs graph) n.node.id = some before.length := hspec.findIdx_eq hsplit hmem
  have hget : (effect_sccs graph)[before.length]? = some comp := by
    rw [hsplit]
    simp
  have hcloses := hsettled.closes before.length comp hget n.node.id hmem bit
  rw [List.getD_eq_getElem?_getD] at hcloses
  rw [hindex]
  refine hcloses.trans ?_
  constructor
  · rintro ⟨m, hpath, hbit⟩
    have hm : m ∈ node_ids graph := by
      obtain heq | ⟨_, _, e, he, _, _, _, rfl⟩ := hpath.cases_tail
      · rw [heq]
        exact List.mem_map_of_mem hn
      · exact htargets e he
    obtain ⟨r, hr, rfl⟩ := List.mem_map.mp hm
    rw [own_eq hids hr] at hbit
    exact ⟨r, hr, hpath, hbit⟩
  · rintro ⟨r, hr, hpath, hbit⟩
    exact ⟨r.node.id, hpath, by rw [own_eq hids hr]; exact hbit⟩

end exact

/-- `ping` and `pong` call each other; `pong` spawns `work`. The effects are one bit each. -/
def ping_pong : ResolvedGraph where
  nodes := [⟨{ function_node 0 "ping" with own_effects := ⟨1⟩ }, default⟩,
    ⟨{ function_node 1 "pong" with own_effects := ⟨2⟩ }, default⟩,
    ⟨{ function_node 2 "work" with own_effects := ⟨4⟩ }, default⟩]
  edges := [⟨certain_edge 0 .Calls 0 1, default⟩, ⟨certain_edge 1 .CallsAsync 1 0, default⟩,
    ⟨certain_edge 2 .Spawns 1 2, default⟩]
  candidates := []
  unresolved := []

example : (run_effect_closure ping_pong).map (fun run =>
    (run.1.nodes.map fun n => n.node.transitive_effects.bits, run.2)) =
      some ([3, 3, 4], ⟨3, 1⟩) := by decide

theorem effect_closure_exact_ping_pong :
    ∃ closed stats, run_effect_closure ping_pong = some (closed, stats) ∧
      closed = { ping_pong with nodes := closed.nodes } ∧
      List.Forall₂ (fun n n' => ∃ eff, n' = { n with node := { n.node with transitive_effects := eff } } ∧
        ∀ bit, eff.has bit = true ↔ ∃ m ∈ ping_pong.nodes,
          ReflTransGen (CallsInto ping_pong) n.node.id m.node.id ∧ m.node.own_effects.has bit = true)
        ping_pong.nodes closed.nodes :=
  effect_closure_exact (by decide) (by decide)

end cgx.resolve
