import Cgx.Lib.Walk
import Cgx.Query.Stitch

open cgx.core walks sorting steps

namespace cgx.query

namespace impacted

variable {view : GraphView} {walker : PathWalker} {changed : List NodeId}

def IsTest (view : GraphView) (n : NodeId) : Prop :=
  (view.node n).entrypoint_kind = some .Test

/-- A row of an answer and its witness describe one chain, from the test over admitted
calls and lifts to a changed symbol. -/
structure RealRow (view : GraphView) (walker : PathWalker) (changed : List NodeId) (reached : NodeId → Prop)
    (row : NeighborResult) (witness : ImpactedWitness) (links : List Link) : Prop where
  simple : witness.chain.Nodup
  starts : witness.chain.head? = some row.node.id
  ends : witness.chain.getLast? = some witness.root
  root : witness.root ∈ changed
  reached : ∀ n ∈ witness.chain, reached n
  joined : Joined view walker witness.chain links
  depth : row.depth = witness.chain.length - 1
  confidence : if .lift ∈ links then row.min_confidence_on_path = .Possible
    else IsWeakest row.min_confidence_on_path (.Certain :: links.filterMap Link.confidence)
  transient : row.exception_transient = flag_over links

/-- The rows of an answer with their witnesses, each over the links its chain was
stitched from. -/
def RealAnswer (view : GraphView) (walker : PathWalker) (changed : List NodeId) : Prop :=
  ∀ pair ∈ (impacted_tests view changed walker).tests.zip (impacted_tests view changed walker).witnesses,
    ∃ links shown, (marks view changed walker).Traces pair.1.node.id pair.2.chain links shown ∧
      RealRow view walker changed (impacted_tests view changed walker).Reaches pair.1 pair.2 links

namespace Marks

/-! ## The steps that mark a test -/

/-- Where the walk from `r` marks a test, it has carried to the node before it the flag
of the chain recorded there, or the edge between them settles the flag. -/
def FairDiscovery (view : GraphView) (walker : PathWalker) (r : NodeId) (m : Marks) (d : Discovered) : Prop :=
  d.node ∉ m.reached → IsTest view d.node → ∀ chain links shown, m.Traces d.via.dst chain links shown →
    carries view walker r d.via.dst = flag_over links ∨ d.via.kind = .Spawns ∨
      d.via.condition.is_exceptional = true

/-- Where a lift marks a test, the flag shown at the lambda is that of its chain. -/
def FairLift (view : GraphView) (m : Marks) (x : NodeId) : Prop :=
  ∀ o, owner view x = some o → o ∉ m.reached → IsTest view o → ∀ chain links shown,
    m.Traces x chain links shown → shown = flag_over links

def FairRoot (view : GraphView) (walker : PathWalker) (m : Marks) (r : NodeId) : Prop :=
  view.node_count ≤ r.index ∨ r ∈ m.expanded ∨ (walker.max_depth = none ∧ r ∈ m.walk_reached) ∨
    Always (FairDiscovery view walker r) (discover view) { m with expanded := r :: m.expanded }
      (walker.bfs view r .Backward)

def FairRound (view : GraphView) (walker : PathWalker) (worklist : List NodeId) (m : Marks) : Prop :=
  let walked := worklist.foldl (expand_root view walker) m
  Always (FairRoot view walker) (expand_root view walker) m worklist ∧
    Always (fun acc => FairLift view acc.1) (lift view) (walked, []) (sort_by id_cmp walked.round_new)

/-- Every step of the rounds is fair in the state before it. -/
def FairRun (view : GraphView) (walker : PathWalker) : Nat → List NodeId → Marks → Prop
  | 0, _, _ => True
  | rounds + 1, worklist, m =>
    FairRound view walker worklist m ∧
      ((round view walker worklist m).2 ≠ [] →
        FairRun view walker rounds (next_round view walker worklist m).round_new (next_round view walker worklist m))

/-- Each marked test is shown with the flag of the chain recorded behind it. -/
def Shows (view : GraphView) (m : Marks) : Prop :=
  ∀ n ∈ m.reached, IsTest view n → ∀ chain links shown, m.Traces n chain links shown → shown = flag_over links

theorem traces_of_same {m m' : Marks} (hvia : m'.via_of = m.via_of) (hlift : m'.lift_from = m.lift_from)
    {n : NodeId} {chain : List NodeId} {links : List Link} {shown : Bool} :
    m'.Traces n chain links shown ↔ m.Traces n chain links shown :=
  ⟨fun h => h.frame fun c _ => ⟨(congrFun hvia c).symm, (congrFun hlift c).symm⟩,
    fun h => h.frame fun c _ => ⟨congrFun hvia c, congrFun hlift c⟩⟩

theorem Stitched.of_same {m m' : Marks} (h : Stitched view walker changed m) (hreached : m'.reached = m.reached)
    (hvia : m'.via_of = m.via_of) (hlift : m'.lift_from = m.lift_from) : Stitched view walker changed m' := by
  refine ⟨fun n hn => ?_, fun n hn => ?_⟩
  · rw [hvia, hlift]
    exact h.unmarked n (hreached ▸ hn)
  · obtain ⟨chain, links, shown, htrace, hnodup, hmarked, hrest⟩ := h.traced n (hreached ▸ hn)
    exact ⟨chain, links, shown, (traces_of_same hvia hlift).mpr htrace, hnodup,
      fun c hc => hreached ▸ hmarked c hc, hrest⟩

theorem shows_of_same {m m' : Marks} (hreached : m'.reached = m.reached) (hvia : m'.via_of = m.via_of)
    (hlift : m'.lift_from = m.lift_from) : Shows view m' ↔ Shows view m := by
  unfold Shows
  rw [hreached]
  simp only [traces_of_same hvia hlift]

/-- A newly marked node shows the flag of its chain, if it is a test. -/
theorem Stitched.shows_mark_iff {m m' : Marks} {n p : NodeId} {link : Link}
    (hm : Stitched view walker changed m) (next : Bool → Bool) (h : MarksNext m n m') (hp : p ∈ m.reached)
    (hnew : ∀ chain links shown, m'.Traces p chain links shown →
      m'.Traces n (n :: chain) (link :: links) (next shown)) :
    Shows view m' ↔ Shows view m ∧ (IsTest view n → ∀ chain links shown, m.Traces p chain links shown →
      next shown = flag_over (link :: links)) := by
  have hold : ∀ c ∈ m.reached, ∀ chain links shown, m.Traces c chain links shown →
      m'.Traces c chain links shown := by
    intro c hc chain links shown htrace
    obtain ⟨chain', links', shown', htrace', -, hmarked, -⟩ := hm.traced c hc
    obtain ⟨rfl, rfl, rfl⟩ := htrace.unique htrace'
    exact h.traces htrace hmarked
  constructor
  · intro hshows
    refine ⟨fun c hc htest chain links shown htrace => ?_, fun htest chain links shown htrace => ?_⟩
    · have hc' : c ∈ m'.reached := h.reached ▸ List.mem_cons_of_mem _ hc
      exact hshows c hc' htest chain links shown (hold c hc chain links shown htrace)
    · have hn : n ∈ m'.reached := h.reached ▸ List.mem_cons_self
      exact hshows n hn htest _ _ _ (hnew chain links shown (hold p hp chain links shown htrace))
  · rintro ⟨hshows, hfair⟩ c hc htest chain links shown htrace
    rw [h.reached] at hc
    obtain rfl | hc := List.mem_cons.mp hc
    · obtain ⟨chain', links', shown', htrace', -⟩ := hm.traced p hp
      obtain ⟨rfl, rfl, rfl⟩ := htrace.unique (hnew _ _ _ (hold p hp _ _ _ htrace'))
      exact hfair htest chain' links' shown' htrace'
    · obtain ⟨chain', links', shown', htrace', -⟩ := hm.traced c hc
      obtain ⟨rfl, rfl, rfl⟩ := htrace.unique (hold c hc _ _ _ htrace')
      exact hshows c hc htest chain links shown htrace'

/-- The symbol found under an FQN carries it. -/
theorem fqn_of_index {fqn : String} {o : NodeId} (h : fqn_index view fqn = some o) : (view.node o).fqn = fqn := by
  obtain ⟨record, hrecord, rfl⟩ := Option.map_eq_some_iff.mp h
  rw [(GraphView.node_of_mem (List.mem_of_find?_eq_some hrecord)).2]
  exact of_decide_eq_true (List.find?_some hrecord :)

theorem advance_eq_iff {a b : Bool} {edge : EdgeRecord} :
    advance_exceptional a edge = advance_exceptional b edge ↔
      a = b ∨ edge.kind = .Spawns ∨ edge.condition.is_exceptional = true := by
  unfold advance_exceptional
  by_cases hspawns : edge.kind = .Spawns
  · simp [hspawns]
  · cases a <;> cases b <;> simp [hspawns]

/-! ## What the steps keep -/

/-- Recording a node of a walk. -/
theorem marks_next_discover {m : Marks} {d : Discovered} (hrange : d.node.index < view.node_count)
    (hfresh : d.node ∉ m.reached) : MarksNext m d.node (discover view m d) := by
  have hold : ¬ (view.node_count ≤ d.node.index ∨ d.node ∈ m.reached) := by
    rintro (hle | hmem)
    · omega
    · exact hfresh hmem
  unfold discover
  rw [if_neg hold]
  exact ⟨hfresh, rfl, fun c hc => if_neg hc, fun _ _ => rfl⟩

theorem Stitched.discover {r : NodeId} {m : Marks} {d : Discovered} {ds : List Discovered}
    (hm : Stitched view walker changed m) (hfed : Fed view walker r m.reached (d :: ds)) :
    (Stitched view walker changed (Marks.discover view m d) ∧
      Fed view walker r (Marks.discover view m d).reached ds) ∧
      (Shows view (Marks.discover view m d) ↔ Shows view m ∧ FairDiscovery view walker r m d) := by
  obtain ⟨hd, hdst, hrest⟩ := hfed
  have hrange := (PathWalker.bfs_sound hd).2.2.2
  obtain ⟨hjoins, hflag, -⟩ := bfs_prev hd
  by_cases hfresh : d.node ∈ m.reached
  · have hsame : Marks.discover view m d = m := by
      unfold Marks.discover
      rw [if_pos (.inr hfresh)]
    rw [hsame]
    refine ⟨⟨hm, hrest.mono fun n hn => ?_⟩, (and_iff_left fun hnot => absurd hfresh hnot).symm⟩
    obtain rfl | hn := List.mem_cons.mp hn
    · exact hfresh
    · exact hn
  · have hnext := marks_next_discover hrange hfresh
    have hvia : (Marks.discover view m d).via_of d.node = some d := by
      unfold Marks.discover
      rw [if_neg (by rintro (hle | hmem); exacts [absurd hrange (Nat.not_lt_of_le hle), hfresh hmem])]
      exact if_pos rfl
    have hlift : (Marks.discover view m d).lift_from d.node = none := by
      have hnone := (hm.unmarked d.node hfresh).2
      unfold Marks.discover
      split
      · exact hnone
      · exact hnone
    refine ⟨⟨hm.mark hnext hdst hjoins fun chain links shown htrace => ⟨_, .walk hlift hvia htrace⟩, ?_⟩, ?_⟩
    · rw [hnext.reached]
      exact hrest
    · rw [hm.shows_mark_iff (fun _ => d.exception_transient) hnext hdst
        fun chain links shown htrace => .walk hlift hvia htrace]
      refine and_congr_right fun _ => ?_
      unfold FairDiscovery
      simp only [hfresh, not_false_eq_true, true_implies, flag_over, hflag, advance_eq_iff]

/-- Expanding a root keeps the chains, and shows the flags of the chains exactly when
each of its steps is fair. -/
theorem Stitched.expand_root {m : Marks} {r : NodeId} (hm : Stitched view walker changed m) (hr : r ∈ m.reached) :
    Stitched view walker changed (Marks.expand_root view walker m r) ∧
      (Shows view (Marks.expand_root view walker m r) ↔ Shows view m ∧ FairRoot view walker m r) := by
  unfold Marks.expand_root FairRoot
  split
  · rename_i hskip
    refine ⟨hm, (and_iff_left ?_).symm⟩
    rw [← or_assoc, ← or_assoc]
    exact .inl (by rwa [or_assoc])
  · rename_i hexpand
    push Not at hexpand
    have hstart : Stitched view walker changed { m with expanded := r :: m.expanded } := hm.of_same rfl rfl rfl
    have hfed : Fed view walker r m.reached (walker.bfs view r .Backward) :=
      (fed_bfs r).mono fun n hn => List.mem_singleton.mp hn ▸ hr
    obtain ⟨⟨hdone, -⟩, hiff⟩ := foldl_iff_always (FairDiscovery view walker r) (Marks.discover view)
      (fun ds m => Stitched view walker changed m ∧ Fed view walker r m.reached ds) (Shows view)
      (fun m d ds h => (h.1.discover h.2).1) (fun m d ds h => (h.1.discover h.2).2) ⟨hstart, hfed⟩
    refine ⟨hdone, hiff.trans (and_congr (shows_of_same rfl rfl rfl) ⟨fun h => .inr (.inr (.inr h)), ?_⟩)⟩
    rintro (hrange | hexpanded | ⟨hunbounded, hwalked⟩ | hfair)
    · exact absurd hexpand.1 (Nat.not_lt_of_le hrange)
    · exact absurd hexpanded hexpand.2.1
    · exact absurd hwalked (hexpand.2.2 hunbounded)
    · exact hfair

/-- A lift keeps the chains, and shows the flags of the chains exactly when it is fair. -/
theorem Stitched.lift {acc : Marks × List NodeId} {x : NodeId} (hm : Stitched view walker changed acc.1)
    (hx : x ∈ acc.1.reached) :
    (Stitched view walker changed (Marks.lift view acc x).1 ∧
      ∀ n ∈ acc.1.reached, n ∈ (Marks.lift view acc x).1.reached) ∧
      (Shows view (Marks.lift view acc x).1 ↔ Shows view acc.1 ∧ FairLift view acc.1 x) := by
  have hkept : ∀ n ∈ acc.1.reached, n ∈ (Marks.lift view acc x).1.reached :=
    fun n hn => ((lift_spec view acc x).reached n).mpr (.inl hn)
  cases howner : owner view x with
  | none =>
    have hsame : Marks.lift view acc x = acc := by
      unfold Marks.lift
      rw [howner]
    rw [hsame] at hkept ⊢
    refine ⟨⟨hm, hkept⟩, (and_iff_left fun o ho => ?_).symm⟩
    rw [howner] at ho
    cases ho
  | some o =>
    by_cases hfresh : o ∈ acc.1.reached
    · have hsame : Marks.lift view acc x = acc := by
        unfold Marks.lift
        rw [howner]
        exact if_pos (.inr hfresh)
      rw [hsame] at hkept ⊢
      refine ⟨⟨hm, hkept⟩, (and_iff_left fun o' ho hnot => ?_).symm⟩
      rw [howner, Option.some.injEq] at ho
      exact absurd (ho ▸ hfresh) hnot
    · have hnew : ¬ (view.node_count ≤ o.index ∨ o ∈ acc.1.reached) := by
        rintro (hle | hmem)
        · exact absurd (owner_range howner) (Nat.not_lt_of_le hle)
        · exact hfresh hmem
      have hlifted : Marks.lift view acc x =
          ({ acc.1 with
              reached := o :: acc.1.reached
              lift_from := fun n => if n = o then some x else acc.1.lift_from n }, o :: acc.2) := by
        unfold Marks.lift
        rw [howner]
        exact if_neg hnew
      obtain ⟨hkind, fqn, hfqn, hindex⟩ := owner_eq_some.mp howner
      have hjoins : Joins view walker .lift o x := ⟨hkind, by rw [hfqn, fqn_of_index hindex]⟩
      rw [hlifted] at hkept ⊢
      set m' : Marks :=
        { acc.1 with
          reached := o :: acc.1.reached
          lift_from := fun n => if n = o then some x else acc.1.lift_from n }
      have hnext : MarksNext acc.1 o m' := ⟨hfresh, rfl, fun _ _ => rfl, fun c hc => if_neg hc⟩
      have hvia : m'.via_of o = none := (hm.unmarked o hfresh).1
      have hlift : m'.lift_from o = some x := if_pos rfl
      refine ⟨⟨hm.mark hnext hx hjoins fun chain links shown htrace => ⟨_, .lift hvia hlift htrace⟩, hkept⟩, ?_⟩
      rw [hm.shows_mark_iff id hnext hx fun chain links shown htrace => .lift hvia hlift htrace]
      refine and_congr_right fun _ => ?_
      unfold FairLift
      simp only [howner, Option.some.injEq, forall_eq', hfresh, not_false_eq_true, true_implies, id_eq, flag_over]

/-- A round keeps the chains, and shows the flags of the chains exactly when its steps
are fair. -/
theorem Stitched.round {todo : List NodeId} {m : Marks} (hm : Stitched view walker changed m)
    (hspread : Spreading view walker changed todo m.round_new m) :
    Stitched view walker changed (Marks.round view walker todo m).1 ∧
      (Shows view (Marks.round view walker todo m).1 ↔ Shows view m ∧ FairRound view walker todo m) := by
  obtain ⟨⟨hwalked, -⟩, hexpands⟩ := foldl_iff_always (FairRoot view walker)
    (Marks.expand_root view walker)
    (fun todo m => Stitched view walker changed m ∧ Spreading view walker changed todo m.round_new m) (Shows view)
    (fun m r todo h => ⟨(h.1.expand_root (h.2.waiting r List.mem_cons_self)).1, h.2.expand_root⟩)
    (fun m r todo h => (h.1.expand_root (h.2.waiting r List.mem_cons_self)).2) ⟨hm, hspread⟩
  obtain ⟨hspread', -⟩ := hspread.expand_all
  set walked := todo.foldl (Marks.expand_root view walker) m
  have hpending : ∀ x ∈ sort_by id_cmp walked.round_new, x ∈ walked.reached :=
    fun x hx => hspread'.pending x (mem_sort_by.mp hx)
  obtain ⟨⟨hlifted, -⟩, hlifts⟩ := foldl_iff_always
    (fun acc : Marks × List NodeId => FairLift view acc.1) (Marks.lift view)
    (fun xs acc => Stitched view walker changed acc.1 ∧ ∀ x ∈ xs, x ∈ acc.1.reached) (fun acc => Shows view acc.1)
    (fun acc x xs h => by
      obtain ⟨⟨hkeeps, hkept⟩, -⟩ := h.1.lift (h.2 x List.mem_cons_self)
      exact ⟨hkeeps, fun y hy => hkept y (h.2 y (List.mem_cons_of_mem _ hy))⟩)
    (fun acc x xs h => (h.1.lift (h.2 x List.mem_cons_self)).2)
    (show Stitched view walker changed (walked, ([] : List NodeId)).1 ∧
      ∀ x ∈ sort_by id_cmp walked.round_new, x ∈ (walked, ([] : List NodeId)).1.reached from ⟨hwalked, hpending⟩)
  refine ⟨hlifted, hlifts.trans ?_⟩
  rw [hexpands, and_assoc]
  rfl

theorem Stitched.next_round {todo : List NodeId} {m : Marks}
    (h : Stitched view walker changed (Marks.round view walker todo m).1) :
    Stitched view walker changed (Marks.next_round view walker todo m) ∧
      (Shows view (Marks.next_round view walker todo m) ↔ Shows view (Marks.round view walker todo m).1) :=
  ⟨h.of_same rfl rfl rfl, shows_of_same rfl rfl rfl⟩

/-- The rounds keep the chains, and show the flags of the chains exactly when all their
steps are fair. -/
theorem Stitched.spread (rounds : Nat) {todo : List NodeId} {m : Marks} (hm : Stitched view walker changed m)
    (hspread : Spreading view walker changed todo m.round_new m) :
    Stitched view walker changed (Marks.spread view walker rounds todo m) ∧
      (Shows view (Marks.spread view walker rounds todo m) ↔ Shows view m ∧ FairRun view walker rounds todo m) := by
  induction rounds generalizing todo m with
  | zero => exact ⟨hm, by simp [Marks.spread, FairRun]⟩
  | succ rounds ih =>
    obtain ⟨hround, hshows⟩ := hm.round hspread
    unfold Marks.spread FairRun
    simp only []
    split
    · rename_i hnone
      rw [List.isEmpty_iff] at hnone
      refine ⟨hround, hshows.trans ?_⟩
      simp [hnone]
    · rename_i hsome
      rw [List.isEmpty_iff] at hsome
      obtain ⟨hnext, hsame⟩ := hround.next_round
      obtain ⟨hend, hiff⟩ := ih hnext hspread.next_round
      refine ⟨hend, hiff.trans ?_⟩
      rw [hsame, hshows, and_assoc]
      simp [hsome]

end Marks

/-- Every step by which the rounds mark a test is fair in the state before it. -/
def FairSteps (view : GraphView) (walker : PathWalker) (changed : List NodeId) : Prop :=
  Marks.FairRun view walker (view.node_count + 1) (seeds view changed) (Marks.initial view changed)

theorem stitched_initial (view : GraphView) (walker : PathWalker) (changed : List NodeId) :
    Marks.Stitched view walker changed (Marks.initial view changed) := by
  refine ⟨fun n _ => ⟨rfl, rfl⟩, fun n hn => ⟨[n], [], false, .root rfl rfl, List.nodup_singleton n, ?_, trivial,
    n, hn, rfl⟩⟩
  intro c hc
  rwa [List.mem_singleton.mp hc]

theorem shows_initial : (Marks.initial view changed).Shows view := by
  intro n _ _ chain links shown htrace
  obtain ⟨-, rfl, rfl⟩ := htrace.unique (.root rfl rfl)
  rfl

/-- The marks record chains, and show the flags of the chains exactly when the steps of
the rounds are fair. -/
theorem marks_stitched (view : GraphView) (walker : PathWalker) (changed : List NodeId) :
    Marks.Stitched view walker changed (marks view changed walker) ∧
    ((marks view changed walker).Shows view ↔ FairSteps view walker changed) := by
  obtain ⟨hstitched, hiff⟩ := (stitched_initial view walker changed).spread (view.node_count + 1)
    (.initial view changed walker)
  exact ⟨hstitched, hiff.trans (and_iff_right shows_initial)⟩

/-! ## The rows -/

theorem mem_rows {pair : NeighborResult × ImpactedWitness} :
    pair ∈ (impacted_tests view changed walker).tests.zip (impacted_tests view changed walker).witnesses ↔
      ∃ node ∈ view.nodes, (marks view changed walker).reports node = true ∧
        (marks view changed walker).row view node = pair := by
  unfold impacted_tests
  simp only []
  rw [← List.unzip_fst, ← List.unzip_snd, List.zip_unzip, mem_sort_by, List.mem_map]
  simp only [List.mem_filter, and_assoc]

/-- A chain of marked nodes is no longer than the node list. -/
theorem length_le_node_count {m : Marks} {chain : List NodeId} (hnodup : chain.Nodup)
    (hrange : ∀ x ∈ m.reached, x.index < view.node_count) (hmarked : ∀ c ∈ chain, c ∈ m.reached) :
    chain.length ≤ view.node_count := by
  have hsub : chain ⊆ view.nodes.map NodeRecord.id :=
    fun c hc => GraphView.mem_node_ids.mpr (hrange c (hmarked c hc))
  have hle := (List.subperm_of_subset hnodup hsub).length_le
  rwa [List.length_map] at hle

/-- The weakest confidence on a chain. -/
theorem foldl_weaken (links : List Link) (c : Confidence) :
    IsWeakest (links.foldl Marks.weaken c) (c :: links.filterMap Link.confidence) := by
  have hsame : links.foldl Marks.weaken c = (links.filterMap Link.confidence).foldl Confidence.weakest c := by
    rw [List.foldl_filterMap]
    congr 1
    funext weakest link
    cases link <;> rfl
  rw [hsame]
  exact foldl_weakest _ c

theorem weakest_Possible (c : Confidence) : c.weakest .Possible = .Possible := by
  cases c <;> decide

/-- Whatever its flag, a row describes the chain recorded behind its node. -/
theorem row_real {node : NodeRecord}
    (hreported : (marks view changed walker).reports node = true) :
    ∃ links shown, (marks view changed walker).Traces node.id
        ((marks view changed walker).row view node).2.chain links shown ∧
      (RealRow view walker changed (impacted_tests view changed walker).Reaches
        ((marks view changed walker).row view node).1 ((marks view changed walker).row view node).2 links ↔
          shown = flag_over links) := by
  have hmarked : node.id ∈ (marks view changed walker).reached := by
    rw [Marks.reports, Bool.and_eq_true, decide_eq_true_iff] at hreported
    exact hreported.1
  obtain ⟨chain, links, shown, htrace, hnodup, hreached, hjoined, root, hroot, hlast⟩ :=
    (marks_stitched view walker changed).1.traced node.id hmarked
  have hlength := length_le_node_count hnodup (marks_spec view changed walker).range hreached
  rw [htrace.length] at hlength
  obtain ⟨rest, hhead⟩ := htrace.head
  have hrow : (marks view changed walker).trace view.node_count node.id [node.id] .Certain false =
      (chain, links.foldl Marks.weaken .Certain, decide (.lift ∈ links)) := by
    rw [htrace.trace_eq (by omega), hhead]
    simp
  have hshown := htrace.discovery_eq (show links.length < view.node_count + 1 by omega)
  refine ⟨links, shown, ?_, ?_⟩
  · simp only [Marks.row, hrow]
    exact htrace
  · simp only [Marks.row, hrow]
    constructor
    · intro hreal
      rw [← hreal.transient]
      exact hshown.symm
    · intro hflag
      refine ⟨hnodup, ?_, ?_, ?_, fun n hn => reaches_iff.mpr (hreached n hn), hjoined, rfl, ?_, ?_⟩
      · simp [hhead]
      · simp [hlast]
      · simp only [hlast, Option.getD_some]
        exact (mem_seeds.mp hroot).1
      · split
        · rename_i hlift
          simp only [hlift, decide_true, if_true]
          exact weakest_Possible _
        · rename_i hnolift
          simp only [hnolift, decide_false]
          exact foldl_weaken links .Certain
      · exact hshown.trans hflag

end impacted

open impacted

/-- The test `t` calls `s`, which calls `r` on an exceptional path. -/
def exceptional_call : GraphView where
  nodes := [function_node 0 "r", function_node 1 "s", { function_node 2 "t" with entrypoint_kind := some .Test }]
  edges := [{ certain_edge 0 .Calls 1 0 with condition := .Exception }, certain_edge 1 .Calls 2 1]
  candidates := []
  ids_dense := by decide

end cgx.query
