import Cgx.Query.Spread

open cgx.core walks sorting Std

namespace cgx.query

instance : TransCmp result_cmp :=
  inferInstanceAs (TransCmp (compareLex (compareOn NodeRecord.file) (compareLex (compareOn NodeRecord.line_start)
    (compareOn NodeRecord.fqn))))

namespace impacted

variable {view : GraphView} {walker : PathWalker} {changed : List NodeId}

/-- What an answer marks as reached. -/
def ImpactedTests.Reaches (answer : ImpactedTests) (n : NodeId) : Prop :=
  answer.marks n = some true

/-- A set that holds the changed nodes, with the target of an admitted edge its source, and
with a lambda the symbol that encloses it. -/
structure ClosedBackwards (view : GraphView) (walker : PathWalker) (changed : List NodeId)
    (R : NodeId → Prop) : Prop where
  seeds : ∀ n ∈ changed, n.index < view.node_count → R n
  callers : ∀ edge ∈ view.edges, walker.filter.admits edge = true → view.over_cap walker.filter edge = false →
    edge.src.index < view.node_count → R edge.dst → R edge.src
  owners : ∀ x fqn o, R x → (view.node x).kind = .Lambda → lambda_owner_fqn (view.node x).fqn = some fqn →
    fqn_index view fqn = some o → R o

/-- The rows of an answer: the reached test entrypoints, each once, in result order. -/
structure RowsOfTests (view : GraphView) (answer : ImpactedTests) : Prop where
  once : (answer.tests.map NeighborResult.node).Nodup
  mem_iff : ∀ node, node ∈ answer.tests.map NeighborResult.node ↔
    node ∈ view.nodes ∧ answer.Reaches node.id ∧ node.entrypoint_kind = some .Test
  ordered : (answer.tests.map NeighborResult.node).Pairwise fun a b => (result_cmp a b).isLE

theorem reaches_iff {n : NodeId} :
    (impacted_tests view changed walker).Reaches n ↔ n ∈ (marks view changed walker).reached := by
  have hrange := (marks_spec view changed walker).range n
  by_cases hn : n.index < view.node_count
  · rw [ImpactedTests.Reaches, marks_answer hn, Option.some.injEq, decide_eq_true_iff]
  · have hnone : (impacted_tests view changed walker).marks n = none := by
      unfold ImpactedTests.marks impacted_tests
      simp only []
      rw [List.getElem?_map, Option.map_eq_none_iff]
      exact List.getElem?_eq_none (Nat.le_of_not_lt hn)
    simp only [ImpactedTests.Reaches, hnone, reduceCtorEq, false_iff]
    exact fun hreached => hn (hrange hreached)

theorem owner_eq_some {x o : NodeId} : owner view x = some o ↔
    (view.node x).kind = .Lambda ∧ ∃ fqn, lambda_owner_fqn (view.node x).fqn = some fqn ∧ fqn_index view fqn = some o := by
  unfold owner
  by_cases hkind : (view.node x).kind = .Lambda
  · simp [hkind, Option.bind_eq_some_iff]
  · simp [hkind]

/-- A closed set is closed under the steps of the answer. -/
theorem ClosedBackwards.spreads {R : NodeId → Prop} (h : ClosedBackwards view walker changed R) {x y : NodeId}
    (hx : R x) (hstep : Spreads view walker x y) : R y := by
  obtain ⟨er, her, rfl, hrange⟩ | howner := hstep
  · obtain ⟨hedge, horigin, hpeer, _, hadmits, hcap⟩ := GraphView.mem_neighbors.mp her
    have hdst : er.edge.dst = x := horigin
    have hsrc : er.peer = er.edge.src := hpeer
    rw [hsrc] at hrange ⊢
    exact h.callers er.edge hedge hadmits hcap hrange (hdst ▸ hx)
  · obtain ⟨hkind, fqn, hfqn, hindex⟩ := owner_eq_some.mp howner
    exact h.owners x fqn y hx hkind hfqn hindex

/-- Without a depth bound, a reached node's admitted callers are reached. -/
theorem reached_follows (hunbounded : walker.max_depth = none) {x y : NodeId}
    (hx : x ∈ (marks view changed walker).reached) (hstep : walker.Follows view .Backward x y) :
    y ∈ (marks view changed walker).reached := by
  have hmarks := marks_spec view changed walker
  have hlimit : walker.limit = none := by simp [PathWalker.limit, hunbounded]
  obtain hroot | hroot | hroot := hmarks.rooted x hx
  · cases hroot
  · exact (hmarks.expanded x hroot).2 y ⟨1, by simp [hlimit], .single hstep⟩
  · -- the root whose walk reached `x` reaches `y` in one hop more
    obtain ⟨r, hr, k, _, hwalk⟩ := hmarks.walked x hroot
    exact (hmarks.expanded r hr).2 y ⟨k + 1, by simp [hlimit], .snoc hwalk hstep⟩

theorem rows_of_tests : RowsOfTests view (impacted_tests view changed walker) where
  once := by
    rw [tests_node]
    exact (perm_sort_by _).nodup_iff.mpr (view.nodes_nodup.filter _)
  mem_iff node := by
    rw [tests_node, mem_sort_by, List.mem_filter, Marks.reports, Bool.and_eq_true, decide_eq_true_iff,
      decide_eq_true_iff, reaches_iff]
  ordered := by
    rw [tests_node]
    exact pairwise_sort_by _

end impacted

open impacted

/-- Without a depth bound, `impacted_tests` reaches the least set that holds the changed
nodes and is closed under admitted callers and enclosing symbols, and reports its tests. -/
theorem impacted_tests_is_reverse_closure (view : GraphView) (changed : List NodeId) (walker : PathWalker)
    (hunbounded : walker.max_depth = none) :
    ClosedBackwards view walker changed (impacted_tests view changed walker).Reaches ∧
      (∀ R, ClosedBackwards view walker changed R → ∀ n, (impacted_tests view changed walker).Reaches n → R n) ∧
      RowsOfTests view (impacted_tests view changed walker) := by
  have hmarks := marks_spec view changed walker
  refine ⟨⟨fun n hn hrange => ?_, fun edge hedge hadmits hcap hrange hdst => ?_,
    fun x fqn o hx hkind hfqn hindex => ?_⟩, fun R hR n hn => ?_, rows_of_tests⟩
  · exact reaches_iff.mpr (hmarks.seeded n (mem_seeds.mpr ⟨hn, hrange⟩))
  · rw [reaches_iff] at hdst ⊢
    refine reached_follows hunbounded hdst ⟨⟨edge, edge.src⟩, ?_, rfl, hrange⟩
    exact GraphView.mem_neighbors.mpr ⟨hedge, rfl, rfl, hmarks.range _ hdst, hadmits, hcap⟩
  · rw [reaches_iff] at hx ⊢
    exact hmarks.lifted x hx List.not_mem_nil o (owner_eq_some.mpr ⟨hkind, fqn, hfqn, hindex⟩)
  · refine (hmarks.sound n (reaches_iff.mp hn)).mem_of_closed (fun s hs => ?_) fun x z hx hxz => hR.spreads hx hxz
    obtain ⟨hmem, hrange⟩ := mem_seeds.mp hs
    exact hR.seeds s hmem hrange

theorem impacted_tests_is_reverse_closure_closure_call :
    ClosedBackwards closure_call bounded_walker.unrestricted [⟨2⟩]
        (impacted_tests closure_call [⟨2⟩] bounded_walker.unrestricted).Reaches ∧
      (impacted_tests closure_call [⟨2⟩] bounded_walker.unrestricted).tests.map (fun r => r.node.fqn) = ["t"] :=
  ⟨(impacted_tests_is_reverse_closure closure_call [⟨2⟩] bounded_walker.unrestricted rfl).1, by decide +kernel⟩

end cgx.query
