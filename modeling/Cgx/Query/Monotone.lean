import Cgx.Lib.Walk
import Cgx.Query.Closure

open cgx.core walks sorting

namespace cgx.query

namespace impacted

/-- What is within the depth bound of a symbol in `S`, over admitted edges taken
backwards. -/
def Within (view : GraphView) (walker : PathWalker) (S : NodeId → Prop) : NodeId → Prop :=
  Near (walker.Follows view .Backward) walker.limit S

/-- The symbols from which round `k` and the rounds before it start walks: the changed
symbols, then the owners of marked lambdas that are not marked themselves. -/
def StartsBy (view : GraphView) (walker : PathWalker) (changed : List NodeId) : Nat → NodeId → Prop :=
  Roots (walker.Follows view .Backward) walker.limit (fun x o => owner view x = some o)
    (· ∈ seeds view changed)

/-- The symbols from which the rounds start walks, each with the whole depth bound. -/
def Starts (view : GraphView) (walker : PathWalker) (changed : List NodeId) : NodeId → Prop :=
  Root (walker.Follows view .Backward) walker.limit (fun x o => owner view x = some o)
    (· ∈ seeds view changed)

variable {view : GraphView} {walker : PathWalker} {changed : List NodeId}

namespace Marks

/-- The marks in round `k`, while the roots `todo` wait. -/
structure InRound (view : GraphView) (walker : PathWalker) (changed : List NodeId) (k : Nat)
    (todo : List NodeId) (m : Marks) : Prop where
  near : ∀ x ∈ m.reached, Within view walker (StartsBy view walker changed k) x
  starts : ∀ r ∈ todo, StartsBy view walker changed k r
  done : ∀ r, StartsBy view walker changed k r →
    r ∈ todo ∨ r ∈ m.expanded ∨ walker.max_depth = none ∧ r ∈ m.walk_reached

theorem InRound.expand_root {k : Nat} {todo : List NodeId} {m : Marks} {r : NodeId}
    (h : InRound view walker changed k (r :: todo) m)
    (hspread : Spreading view walker changed (r :: todo) m.round_new m) :
    InRound view walker changed k todo (Marks.expand_root view walker m r) := by
  have hr := h.starts r List.mem_cons_self
  have htodo : ∀ s ∈ todo, StartsBy view walker changed k s :=
    fun s hs => h.starts s (List.mem_cons_of_mem _ hs)
  unfold Marks.expand_root
  split
  · rename_i hskip
    refine ⟨h.near, htodo, fun s hs => ?_⟩
    obtain hwaits | hdone := h.done s hs
    · obtain rfl | hwaits := List.mem_cons.mp hwaits
      · obtain hrange | hold := hskip
        · exact absurd (hspread.range s (hspread.waiting s List.mem_cons_self)) (Nat.not_lt_of_le hrange)
        · exact .inr hold
      · exact .inl hwaits
    · exact .inr hdone
  · have hspec := foldl_discover_spec view (walker.bfs view r .Backward) { m with expanded := r :: m.expanded }
    refine ⟨fun x hx => ?_, htodo, fun s hs => ?_⟩
    · obtain hx | ⟨d, hd, rfl, -⟩ := (hspec.reached x).mp hx
      · exact h.near x hx
      · obtain ⟨hwalk, hwithin, -, -⟩ := PathWalker.bfs_sound hd
        exact ⟨r, hr, d.depth, hwithin, hwalk⟩
    · rw [hspec.expanded]
      obtain hwaits | hexpanded | ⟨hunbounded, hwalked⟩ := h.done s hs
      · obtain rfl | hwaits := List.mem_cons.mp hwaits
        · exact .inr (.inl List.mem_cons_self)
        · exact .inl hwaits
      · exact .inr (.inl (List.mem_cons_of_mem _ hexpanded))
      · exact .inr (.inr ⟨hunbounded, hspec.walk_mono s hwalked⟩)

theorem InRound.expand_all {k : Nat} {todo : List NodeId} {m : Marks}
    (h : InRound view walker changed k todo m)
    (hspread : Spreading view walker changed todo m.round_new m) :
    InRound view walker changed k [] (todo.foldl (Marks.expand_root view walker) m) := by
  induction todo generalizing m with
  | nil => exact h
  | cons r todo ih => exact ih (h.expand_root hspread) hspread.expand_root

/-- With no root waiting, the marks are what is within the bound of the round's roots. -/
theorem InRound.reached_iff {k : Nat} {m : Marks} {fresh : List NodeId}
    (h : InRound view walker changed k [] m) (hspread : Spreading view walker changed [] fresh m) (x : NodeId) :
    x ∈ m.reached ↔ Within view walker (StartsBy view walker changed k) x := by
  refine ⟨h.near x, ?_⟩
  rintro ⟨r, hr, hwalk⟩
  obtain hwaits | hexpanded | ⟨hunbounded, hwalked⟩ := h.done r hr
  · cases hwaits
  · exact (hspread.expanded r hexpanded).2 x hwalk
  · -- another root's unbounded walk came by `r` and went on from there
    have hlimit : walker.limit = none := by simp [PathWalker.limit, hunbounded]
    obtain ⟨r', hr', i, -, hfirst⟩ := hspread.walked r hwalked
    obtain ⟨j, -, hthen⟩ := hwalk
    exact (hspread.expanded r' hr').2 x ⟨i + j, by simp [hlimit], hfirst.append hthen⟩

/-- A round's lifts are the next round's new roots. -/
theorem InRound.round {k : Nat} {todo : List NodeId} {m : Marks}
    (h : InRound view walker changed k todo m)
    (hspread : Spreading view walker changed todo m.round_new m) :
    InRound view walker changed (k + 1) (Marks.round view walker todo m).2
        (Marks.round view walker todo m).1 ∧
      ∀ o, StartsBy view walker changed (k + 1) o →
        StartsBy view walker changed k o ∨ o ∈ (Marks.round view walker todo m).2 := by
  have hwalked := h.expand_all hspread
  obtain ⟨hspread', -⟩ := hspread.expand_all
  have hlifts := foldl_lift_spec view
    (sort_by id_cmp (todo.foldl (Marks.expand_root view walker) m).round_new)
    (todo.foldl (Marks.expand_root view walker) m, [])
  unfold Marks.round
  simp only []
  set walked := todo.foldl (Marks.expand_root view walker) m
  set result := (sort_by id_cmp walked.round_new).foldl (lift view) (walked, [])
  have hreached := hwalked.reached_iff hspread'
  have hstart : ∀ o, StartsBy view walker changed (k + 1) o ↔
      StartsBy view walker changed k o ∨
        (∃ x, x ∈ walked.reached ∧ owner view x = some o) ∧ o ∉ walked.reached := by
    intro o
    simp only [hreached]
    unfold StartsBy
    rw [roots_succ]
    rfl
  have hnext : ∀ o, o ∈ result.2 ↔
      (∃ x ∈ walked.round_new, owner view x = some o) ∧ o ∉ walked.reached := by
    intro o
    rw [hlifts.next, hlifts.reached]
    simp only [List.not_mem_nil, false_or, mem_sort_by]
    constructor
    · rintro ⟨hold | hnew, hout⟩
      · exact absurd hold hout
      · exact ⟨hnew, hout⟩
    · rintro ⟨hnew, hout⟩
      exact ⟨.inr hnew, hout⟩
  have hgrows : ∀ o, StartsBy view walker changed (k + 1) o →
      StartsBy view walker changed k o ∨ o ∈ result.2 := by
    intro o ho
    obtain hold | ⟨⟨x, hx, howner⟩, hout⟩ := (hstart o).mp ho
    · exact .inl hold
    · -- an owner looked up in an earlier round would be marked
      by_cases hfresh : x ∈ walked.round_new
      · exact .inr ((hnext o).mpr ⟨⟨x, hfresh, howner⟩, hout⟩)
      · exact absurd (hspread'.lifted x hx hfresh o howner) hout
  have hroots : ∀ o ∈ result.2, StartsBy view walker changed (k + 1) o := by
    intro o ho
    obtain ⟨⟨x, hx, howner⟩, hout⟩ := (hnext o).mp ho
    exact (hstart o).mpr (.inr ⟨⟨x, hspread'.pending x hx, howner⟩, hout⟩)
  refine ⟨⟨fun x hx => ?_, hroots, fun r hr => ?_⟩, hgrows⟩
  · by_cases hold : x ∈ walked.reached
    · exact ((hreached x).mp hold).mono fun r hr => (hstart r).mpr (.inl hr)
    · obtain hx | hnew := (hlifts.reached x).mp hx
      · exact absurd hx hold
      · simp only [mem_sort_by] at hnew
        exact .of_root (hroots x ((hnext x).mpr ⟨hnew, hold⟩))
  · rw [hlifts.expanded, hlifts.walk_reached]
    obtain hold | hnew := hgrows r hr
    · exact .inr ((hwalked.done r hold).resolve_left List.not_mem_nil)
    · exact .inl hnew

end Marks

/-- A node is marked when it is within the depth bound of a symbol from which a round
starts a walk. -/
theorem reached_iff_within {n : NodeId} :
    n ∈ (marks view changed walker).reached ↔ Within view walker (Starts view walker changed) n := by
  obtain ⟨last, hlast, hsettled⟩ : ∃ last,
      Marks.InRound view walker changed last [] (marks view changed walker) ∧
      ∀ o, StartsBy view walker changed (last + 1) o → StartsBy view walker changed last o := by
    refine marks_induct (P := fun todo m => ∃ k, Marks.InRound view walker changed k todo m)
      (Q := fun m => ∃ last, Marks.InRound view walker changed last [] m ∧
        ∀ o, StartsBy view walker changed (last + 1) o → StartsBy view walker changed last o) ⟨0, ?_⟩ ?_ ?_
    · exact ⟨fun x hx => .of_root hx, fun r hr => hr, fun r hr => .inl hr⟩
    · rintro todo m hspread ⟨k, hk⟩ hnone
      obtain ⟨hround, hgrows⟩ := hk.round hspread
      rw [hnone] at hround hgrows
      have hsettled : ∀ o, StartsBy view walker changed (k + 1) o → StartsBy view walker changed k o :=
        fun o ho => (hgrows o ho).resolve_right List.not_mem_nil
      refine ⟨k, ⟨fun x hx => (hround.near x hx).mono hsettled,
        fun r hr => absurd hr List.not_mem_nil, fun r hr => ?_⟩, hsettled⟩
      refine hround.done r ?_
      unfold StartsBy
      rw [roots_succ]
      exact .inl hr
    · rintro todo m hspread ⟨k, hk⟩
      obtain ⟨hround, -⟩ := hk.round hspread
      refine ⟨k + 1, hround.near, fun r hr => hround.starts r (mem_sort_by.mp hr), fun r hr => ?_⟩
      unfold Marks.next_round
      rw [mem_sort_by]
      exact hround.done r hr
  rw [hlast.reached_iff (marks_spec view changed walker)]
  have hroot : ∀ r, Starts view walker changed r ↔ StartsBy view walker changed last r :=
    fun r => root_iff_of_settled hsettled
  exact ⟨.mono fun r => (hroot r).mpr, .mono fun r => (hroot r).mp⟩

/-- The nodes of the tests an answer reports. -/
def ImpactedTests.nodes (answer : ImpactedTests) : List NodeRecord :=
  answer.tests.map NeighborResult.node

theorem mem_test_nodes {node : NodeRecord} :
    node ∈ (impacted_tests view changed walker).nodes ↔
      node ∈ view.nodes ∧ Within view walker (Starts view walker changed) node.id ∧
        node.entrypoint_kind = some .Test := by
  rw [← reached_iff_within, ← reaches_iff]
  exact rows_of_tests.mem_iff node

/-- Without a depth bound the marks grow with the change. -/
theorem reached_mono {more : List NodeId} (hunbounded : walker.max_depth = none)
    (hsub : ∀ n ∈ changed, n ∈ more) {n : NodeId} (hn : n ∈ (marks view changed walker).reached) :
    n ∈ (marks view more walker).reached := by
  have hmarks := marks_spec view more walker
  refine ((marks_spec view changed walker).sound n hn).mem_of_closed (fun s hs => ?_) fun x z hx hxz => ?_
  · obtain ⟨hchanged, hrange⟩ := mem_seeds.mp hs
    exact hmarks.seeded s (mem_seeds.mpr ⟨hsub s hchanged, hrange⟩)
  · obtain hfollows | howner := hxz
    · exact reached_follows hunbounded hx hfollows
    · exact hmarks.lifted x hx List.not_mem_nil z howner

end impacted

open impacted

/-- A larger change hides no test exactly when there is no depth bound, or each test
within the bound of a symbol from which only the smaller change's rounds start a walk
is within the bound of one from which the larger change's rounds do. -/
theorem impacted_tests_monotone_iff (view : GraphView) (walker : PathWalker) (A B : List NodeId)
    (hsub : ∀ n ∈ A, n ∈ B) :
    (∀ node ∈ (impacted_tests view A walker).nodes, node ∈ (impacted_tests view B walker).nodes) ↔
      walker.max_depth = none ∨
        ∀ o, Starts view walker A o → ¬ Starts view walker B o →
          ∀ node ∈ view.nodes, node.entrypoint_kind = some .Test →
            ReachedWithin (walker.Follows view .Backward) walker.limit o node.id →
            Within view walker (Starts view walker B) node.id := by
  constructor
  · intro hmono
    refine .inr fun o ho _ node hnode htest hwalk => ?_
    have hnear : Within view walker (Starts view walker A) node.id := ⟨o, ho, hwalk⟩
    exact (mem_test_nodes.mp (hmono node (mem_test_nodes.mpr ⟨hnode, hnear, htest⟩))).2.1
  · rintro (hunbounded | hcovered) node hmem
    · obtain ⟨hnode, hnear, htest⟩ := mem_test_nodes.mp hmem
      have hreached := reached_mono hunbounded hsub (reached_iff_within.mpr hnear)
      exact mem_test_nodes.mpr ⟨hnode, reached_iff_within.mp hreached, htest⟩
    · obtain ⟨hnode, ⟨o, ho, hwalk⟩, htest⟩ := mem_test_nodes.mp hmem
      refine mem_test_nodes.mpr ⟨hnode, ?_, htest⟩
      by_cases hB : Starts view walker B o
      · exact ⟨o, hB, hwalk⟩
      · exact hcovered o ho hB node hnode htest hwalk

/-- The test `t` calls `o`, which calls `b`; a closure stands in `o`. -/
def closure_beside_a_call : GraphView where
  nodes := [{ function_node 0 "t" with entrypoint_kind := some .Test }, function_node 1 "o",
    { function_node 2 "o::\x7bclosure@1:5\x7d" with kind := .Lambda }, function_node 3 "b"]
  edges := [certain_edge 0 .Calls 0 1, certain_edge 1 .Calls 1 3]
  candidates := []
  ids_dense := by decide

/-- A walker that admits a single hop. -/
def one_hop_walker : PathWalker :=
  { bounded_walker with max_depth := some 1 }

/-- The closure's change alone lifts to `o` and finds `t`; with `b` changed too, `o` is
reached with its one hop used up and `t` is lost. -/
theorem closure_beside_a_call_hides :
    ¬ ∀ node ∈ (impacted_tests closure_beside_a_call [⟨2⟩] one_hop_walker).nodes,
      node ∈ (impacted_tests closure_beside_a_call [⟨2⟩, ⟨3⟩] one_hop_walker).nodes := by
  intro hmono
  have hfqns : (impacted_tests closure_beside_a_call [⟨2⟩] one_hop_walker).nodes.map NodeRecord.fqn = ["t"] := by
    decide +kernel
  have hnone : (impacted_tests closure_beside_a_call [⟨2⟩, ⟨3⟩] one_hop_walker).nodes = [] := by
    decide +kernel
  rw [hnone] at hmono
  have hempty : (impacted_tests closure_beside_a_call [⟨2⟩] one_hop_walker).nodes = [] :=
    List.eq_nil_iff_forall_not_mem.mpr fun node hnode => absurd (hmono node hnode) List.not_mem_nil
  rw [hempty] at hfqns
  cases hfqns

theorem impacted_tests_monotone_iff_closure_beside_a_call :
    ¬ (one_hop_walker.max_depth = none ∨
      ∀ o, Starts closure_beside_a_call one_hop_walker [⟨2⟩] o →
        ¬ Starts closure_beside_a_call one_hop_walker [⟨2⟩, ⟨3⟩] o →
          ∀ node ∈ closure_beside_a_call.nodes, node.entrypoint_kind = some .Test →
            ReachedWithin (one_hop_walker.Follows closure_beside_a_call .Backward) one_hop_walker.limit o node.id →
            Within closure_beside_a_call one_hop_walker
              (Starts closure_beside_a_call one_hop_walker [⟨2⟩, ⟨3⟩]) node.id) := by
  rw [← impacted_tests_monotone_iff closure_beside_a_call one_hop_walker [⟨2⟩] [⟨2⟩, ⟨3⟩] (by decide)]
  exact closure_beside_a_call_hides

theorem larger_change_hides_a_test :
    ¬ ∀ (view : GraphView) (walker : PathWalker) (A B : List NodeId), (∀ n ∈ A, n ∈ B) →
      ∀ node ∈ (impacted_tests view A walker).nodes, node ∈ (impacted_tests view B walker).nodes :=
  fun hmono => closure_beside_a_call_hides
    (hmono closure_beside_a_call one_hop_walker [⟨2⟩] [⟨2⟩, ⟨3⟩] (by decide))

end cgx.query
