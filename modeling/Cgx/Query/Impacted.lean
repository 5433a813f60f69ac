import Cgx.Core.Site
import Cgx.Query.Contract

open cgx.core walks sorting

namespace cgx.query.impacted

open cgx.query.FrontierFacts (when_positive)

/-- The languages for which test entrypoints can be identified at all. -/
def SUPPORTED_LANGS : List String :=
  ["go", "java", "python", "rust"]

/-- The rule stamped on the `via` of a test that is itself in the changed set. -/
def CHANGED_SYMBOL_RULE : String :=
  "impacted-changed-symbol"

/-- How one reported test reaches the change: a chain from the test to a changed
symbol, both included. -/
structure ImpactedWitness where
  root : NodeId
  chain : List NodeId
  via_containment_lift : Bool
deriving DecidableEq

/-- The answer of `impacted_tests`. The witnesses are parallel to the tests. -/
structure ImpactedTests where
  tests : List NeighborResult
  witnesses : List ImpactedWitness
  changed_symbols : Nat
  file_granular_only : Nat
  lifted : Nat
  langs_in_play : List String
  reached : List Bool
deriving DecidableEq

/-- What the walk cannot see of the diff. -/
structure DiffFacts where
  removed_symbols : Nat
  unindexed_changed_files : Nat
  dropped_unclaimed_paths : Nat
  tip_to_tip_base : Bool
deriving DecidableEq

/-- The FQN of the named symbol that encloses a lambda with this FQN. -/
def lambda_owner_fqn (fqn : String) : Option String :=
  match rsplit_once fqn.toList with
  | none => none
  | some (head, last) =>
    if last.getLast? = some '}' ∧
        ("\x7bfunc@".toList.isPrefixOf last ∨ "\x7bclosure@".toList.isPrefixOf last) then
      some (String.ofList head)
    else none

/-- The `via` of a test that is itself in the changed set: no edge justifies it. -/
def changed_symbol_marker (node : NodeId) : EdgeRecord where
  id := ⟨4294967295⟩
  src := node
  dst := node
  kind := .Calls
  condition := .Always
  confidence := .Certain
  tier := .NameSyntactic
  rule := CHANGED_SYMBOL_RULE
  site_id := none
  stmt_index := none
  cut_markers := []
  implicit := none
  candidate_group := none
  established_by := none
  cfg_condition := none
  macro_origin := none
  transform := none

/-- Ids in ascending order. -/
def id_cmp : NodeId → NodeId → Ordering :=
  compareOn NodeId.raw

/-- The node with this FQN, the lowest id winning a duplicate. -/
def fqn_index (view : GraphView) (fqn : String) : Option NodeId :=
  (view.nodes.find? fun node => node.fqn = fqn).map NodeRecord.id

/-- The named symbol that encloses a lambda node. -/
def owner (view : GraphView) (x : NodeId) : Option NodeId :=
  if (view.node x).kind ≠ .Lambda then none
  else (lambda_owner_fqn (view.node x).fqn).bind (fqn_index view)

/-- What the walk has marked so far. `round_new` are the nodes reached since the
last lift. -/
structure Marks where
  reached : List NodeId
  walk_reached : List NodeId
  expanded : List NodeId
  via_of : NodeId → Option Discovered
  lift_from : NodeId → Option NodeId
  round_new : List NodeId

namespace Marks

/-- Record one discovery of a root's walk. -/
def discover (view : GraphView) (m : Marks) (d : Discovered) : Marks :=
  if view.node_count ≤ d.node.index ∨ d.node ∈ m.reached then m
  else
    { m with
      reached := d.node :: m.reached
      walk_reached := d.node :: m.walk_reached
      via_of := fun n => if n = d.node then some d else m.via_of n
      round_new := m.round_new ++ [d.node] }

/-- Expand a root. One that another root's walk reached is passed over when the walk
is unbounded. -/
def expand_root (view : GraphView) (walker : PathWalker) (m : Marks) (r : NodeId) : Marks :=
  if view.node_count ≤ r.index ∨ r ∈ m.expanded ∨ (walker.max_depth = none ∧ r ∈ m.walk_reached) then m
  else (walker.bfs view r .Backward).foldl (discover view) { m with expanded := r :: m.expanded }

/-- The containment lift: a reached lambda pulls in the symbol that encloses it. -/
def lift (view : GraphView) (acc : Marks × List NodeId) (x : NodeId) : Marks × List NodeId :=
  match owner view x with
  | none => acc
  | some o =>
    if view.node_count ≤ o.index ∨ o ∈ acc.1.reached then acc
    else
      ({ acc.1 with
          reached := o :: acc.1.reached
          lift_from := fun n => if n = o then some x else acc.1.lift_from n },
        o :: acc.2)

/-- One round: expand the roots of the worklist, then lift. -/
def round (view : GraphView) (walker : PathWalker) (worklist : List NodeId) (m : Marks) :
    Marks × List NodeId :=
  let walked := worklist.foldl (expand_root view walker) m
  (sort_by id_cmp walked.round_new).foldl (lift view) (walked, [])

/-- Rounds until no lift brings in a new root. Each other round marks a node, so one
more than there are nodes is enough. -/
def spread (view : GraphView) (walker : PathWalker) : Nat → List NodeId → Marks → Marks
  | 0, _, m => m
  | rounds + 1, worklist, m =>
    let lifted := round view walker worklist m
    if lifted.2.isEmpty then lifted.1
    else
      let next := sort_by id_cmp lifted.2
      spread view walker rounds next { lifted.1 with round_new := next }

/-- The chain behind a node: back over lifts and discoveries, with the weakest
confidence met and whether a lift was. The loop stops at as many nodes as the view has. -/
def trace (m : Marks) : Nat → NodeId → List NodeId → Confidence → Bool → List NodeId × Confidence × Bool
  | 0, _, chain, weakest, lifted => (chain, weakest, lifted)
  | fuel + 1, cur, chain, weakest, lifted =>
    match m.lift_from cur with
    | some lambda => trace m fuel lambda (chain ++ [lambda]) weakest true
    | none =>
      match m.via_of cur with
      | some d =>
        trace m fuel d.via.dst (chain ++ [d.via.dst]) (weakest.weakest d.via.confidence) lifted
      | none => (chain, weakest, lifted)

/-- The discovery a row is shown with: the node's own, or that of the lambda it was
lifted from. A lambda is marked before its owner, so the search ends. -/
def discovery (m : Marks) : Nat → NodeId → Option Discovered
  | 0, _ => none
  | fuel + 1, c =>
    match m.via_of c with
    | some d => some d
    | none =>
      match m.lift_from c with
      | some lambda => discovery m fuel lambda
      | none => none

/-- The row of a reported test and its witness. -/
def row (view : GraphView) (m : Marks) (node : NodeRecord) : NeighborResult × ImpactedWitness :=
  let (chain, weakest, lifted) := m.trace view.node_count node.id [node.id] .Certain false
  let found := m.discovery (view.node_count + 1) node.id
  let via := (found.map Discovered.via).getD (changed_symbol_marker node.id)
  ({ node := node
     depth := chain.length - 1
     via := via
     condition := via.condition
     confidence := via.confidence
     min_confidence_on_path := if lifted then weakest.weakest .Possible else weakest
     exception_transient := (found.map Discovered.exception_transient).getD false },
    { root := chain.getLast?.getD node.id
      chain := chain
      via_containment_lift := lifted })

end Marks

/-- The changed symbols that are nodes, in ascending order, each once. -/
def seeds (view : GraphView) (changed : List NodeId) : List NodeId :=
  (sort_by id_cmp (changed.filter fun r => r.index < view.node_count)).dedup

/-- What is marked when the walk from the changed symbols ends. -/
def marks (view : GraphView) (changed : List NodeId) (walker : PathWalker) : Marks :=
  let seeds := seeds view changed
  Marks.spread view walker (view.node_count + 1) seeds
    ⟨seeds, [], [], fun _ => none, fun _ => none, seeds⟩

/-- Whether a node record is a reached test entrypoint. -/
def Marks.reports (m : Marks) (node : NodeRecord) : Bool :=
  node.id ∈ m.reached && node.entrypoint_kind = some .Test

/-- The test entrypoints whose call graph reaches a changed symbol. -/
def impacted_tests (view : GraphView) (changed : List NodeId) (walker : PathWalker) : ImpactedTests :=
  let m := marks view changed walker
  let rows := sort_by (fun a b => result_cmp a.1.node b.1.node)
    ((view.nodes.filter m.reports).map (m.row view))
  { tests := rows.map Prod.fst
    witnesses := rows.map Prod.snd
    changed_symbols := (seeds view changed).length
    file_granular_only := 0
    lifted := rows.countP fun row => row.2.via_containment_lift
    langs_in_play :=
      (sort_by compare ((seeds view changed).map fun r => (view.node r).lang)).dedup
    reached := view.nodes.map fun node => decide (node.id ∈ m.reached) }

/-! ### The contract

The source repeats here the texts of the neighbour contract's reasons; the two agree
word for word, so the same definitions stand for both. -/

/-- The incompleteness facts on the frontier of the reverse walk. -/
structure FrontierFacts where
  dangling_refs : Nat
  untyped_dropped : Nat
  narrowed_away_in : Nat
  visible_away_in : Nat
  cut_counts : CutMarker → Nat
  below_floor : Nat
  dropped_max_candidates : Nat
  depth_truncated : Bool

def FrontierFacts.empty : FrontierFacts :=
  ⟨0, 0, 0, 0, fun _ => 0, 0, 0, false⟩

/-- Whether the answer has marked a node. -/
def ImpactedTests.marks (answer : ImpactedTests) (n : NodeId) : Option Bool :=
  answer.reached[n.index]?

/-- Accumulate the facts of one node. The unreached side is counted for calls without
an edge, the reached side for everything the walk could have missed. -/
def scan_node (view : GraphView) (walker : PathWalker) (answer : ImpactedTests)
    (facts : FrontierFacts) (node : NodeRecord) : FrontierFacts :=
  match answer.marks node.id with
  | none => facts
  | some false =>
    { facts with
      dangling_refs :=
        facts.dangling_refs + (node.unresolved_calls.toNat + node.external_calls.toNat)
      untyped_dropped := facts.untyped_dropped + node.narrowing.visible_dropped_out.toNat }
  | some true =>
    let incident := view.neighbors node.id .Backward (scan_filter walker.filter)
    { facts with
      narrowed_away_in := facts.narrowed_away_in +
        (node.narrowing.typed_away_in.toNat + node.narrowing.interproc_away_in.toNat)
      visible_away_in := facts.visible_away_in + node.narrowing.visible_away_in.toNat
      cut_counts := fun marker =>
        facts.cut_counts marker + (incident.flatMap fun er => er.edge.cut_markers).count marker
      below_floor := facts.below_floor +
        incident.countP fun er => er.edge.confidence < walker.filter.min_confidence
      dropped_max_candidates := facts.dropped_max_candidates + incident.countP fun er =>
        !(er.edge.confidence < walker.filter.min_confidence) && view.over_cap walker.filter er.edge
      depth_truncated := facts.depth_truncated || (walker.max_depth.isSome &&
        (view.neighbors node.id .Backward walker.filter).any fun er =>
          answer.marks er.peer = some false) }

def scan_frontier (view : GraphView) (walker : PathWalker) (answer : ImpactedTests) : FrontierFacts :=
  view.nodes.foldl (scan_node view walker answer) .empty

def dangling_refs_reason (count : Nat) : ApproxReason :=
  ⟨.Under, "impacted-unresolved-external-calls",
    s!"{count} call(s) in symbols outside the walked region resolved to no in-repo target — " ++
      "an external or unindexed callee (no SCIP), or a call site the frontend does not " ++
      "model as an edge, such as one written inside an unexpanded macro. A test " ++
      "reaching your change only through such a call is not in this answer."⟩

def untyped_dropped_reason (count : Nat) : ApproxReason :=
  ⟨.Under, "impacted-untyped-receiver-dropped",
    s!"{count} untyped-receiver call site(s) outside the walked region were left with no " ++
      "target by the import-visibility rule; not sound for duck typing. A test reaching " ++
      "your change only through such a site is not in this answer."⟩

def narrowed_away_reason (count : Nat) : ApproxReason :=
  ⟨.Under, "impacted-receiver-narrowed-away",
    s!"{count} same-name virtual call site(s) were bound by receiver typing to targets other " ++
      "than the walked symbols; they could reach your change only if a typing " ++
      "assumption fails or a caller of the typed function is outside the indexed repo. " ++
      "A test reaching your change only through such a site is not in this answer."⟩

def visible_away_reason (count : Nat) : ApproxReason :=
  ⟨.Under, "impacted-residual-narrowed-away",
    s!"{count} same-name untyped-receiver call site(s) excluded the walked symbols because " ++
      "their classes are not import-visible to the caller; not sound for duck typing. " ++
      "A test reaching your change only through such a site is not in this answer."⟩

def FrontierFacts.into_reasons (facts : FrontierFacts) (walker : PathWalker) : List ApproxReason :=
  when_positive facts.dangling_refs dangling_refs_reason ++
  when_positive facts.untyped_dropped untyped_dropped_reason ++
  when_positive facts.narrowed_away_in narrowed_away_reason ++
  when_positive facts.visible_away_in visible_away_reason ++
  CutMarker.ALL.flatMap (fun marker => when_positive (facts.cut_counts marker) (cut_reason marker)) ++
  when_positive facts.below_floor (below_floor_reason walker.filter.min_confidence) ++
  (match walker.filter.max_candidates with
    | some max => when_positive facts.dropped_max_candidates (dropped_max_candidates_reason max.toNat)
    | none => []) ++
  (match walker.max_depth with
    | some depth => if facts.depth_truncated then [depth_limit_reason depth.toNat] else []
    | none => [])

/-- What the recognition of tests misses in a language. -/
def recognition_gap (lang : String) : Option (String × String) :=
  match lang with
  | "go" => some ("impacted-test-recognition-incomplete-go",
    "go: FuzzXxx is not recognised as a test; t.Run subtest closures are recovered by " ++
      "containment only (see over-reasons), not by a call edge.")
  | "java" => some ("impacted-test-recognition-incomplete-java",
    "java: a TestNG class-level @Test (annotating the type, so every public method is a " ++
      "test) is not read — only method-level annotations are; nor is JUnit4's experimental " ++
      "@Theory.")
  | "python" => some ("impacted-test-recognition-incomplete-python",
    "python: unittest camelCase testFoo methods, non-default pytest " ++
      "python_files/python_functions config, and TestCase chains through an unindexed " ++
      "third-party base are not recognised as tests.")
  | "rust" => some ("impacted-test-recognition-incomplete-rust",
    "rust: a call written inside an assertion macro (assert!, assert_eq!, assert_ne!, " ++
      "matches! and friends) is an unexpanded macro argument and yields no call edge, so a " ++
      "#[test] whose only use of the changed symbol is inside one is not in this answer — " ++
      "bind the call to a local first to make it visible; a test attribute whose last path " ++
      "segment is neither `test` nor `*_test` nor `rstest` (#[proptest], #[quickcheck], " ++
      "#[test_case]) is not recognised as a test; doc-tests have no node identity at all.")
  | _ => none

/-- The languages of the changed symbols for which no test can be identified. -/
def unsupported (view : GraphView) (changed : List NodeId) : List String :=
  ((changed.filterMap view.try_node).map NodeRecord.lang).filter fun lang =>
    lang ∉ SUPPORTED_LANGS

def language_unsupported_reasons (view : GraphView) (changed : List NodeId) : List ApproxReason :=
  if (unsupported view changed).isEmpty then []
  else
    let count := (unsupported view changed).length
    let langs := ", ".intercalate (sort_by compare (unsupported view changed)).dedup
    [⟨.Under, "impacted-language-unsupported",
      s!"{count} changed symbol(s) are in {langs}, for which cgx cannot identify tests at " ++
        "all (EntrypointHint FQNs are built from the test's string label and never match a " ++
        s!"symbol FQN; calls inside inline test callbacks produce no graph edge). No {langs} " ++
        "test appears in this answer."⟩]

/-- Changed files that brought in no symbol, or paths dropped from an empty change. -/
def file_unindexed_reasons (changed : List NodeId) (facts : DiffFacts) : List ApproxReason :=
  if 0 < facts.unindexed_changed_files then
    [⟨.Under, "impacted-changed-file-unindexed",
      s!"{facts.unindexed_changed_files} changed file(s) contributed no symbols (no adapter claims " ++
        "the extension, or the file defines none); edits there are not represented in the changed set."⟩]
  else if changed.isEmpty ∧ 0 < facts.dropped_unclaimed_paths then
    [⟨.Under, "impacted-changed-file-unindexed",
      s!"the changed-symbol set is empty and {facts.dropped_unclaimed_paths} working-tree path(s) " ++
        "were dropped from it as untracked and unclaimed (no adapter claims the extension, or the " ++
        "file defines nothing), none of them recognised as gitignored build output. A genuinely new " ++
        "unmodeled file — a migration, a config — reads exactly this way, so this empty " ++
        "answer is not a clean bill of health."⟩]
  else []

def removed_symbols_reason (count : Nat) : ApproxReason :=
  ⟨.Under, "impacted-removed-symbols-not-walked",
    s!"{count} symbol(s) were deleted at head; tests that exercised them are not in this answer."⟩

def file_granular_reason (count : Nat) : ApproxReason :=
  ⟨.Over, "impacted-changed-set-file-granular",
    s!"{count} symbol(s) entered the changed set because their defining file changed, not " ++
      "because their call graph changed; some may be unaffected by the edit."⟩

def containment_lift_reason (count : Nat) : ApproxReason :=
  ⟨.Over, "impacted-closure-containment-lift",
    s!"{count} test(s) were reached by walking from a closure body to its lexically enclosing " ++
      "function. Containment is not invocation: the closure may never be invoked by that test."⟩

def tip_to_tip_reason : ApproxReason :=
  ⟨.Over, "impacted-tip-to-tip-base",
    "base is the ref tip, not the merge-base of base and head; symbols that landed on the " ++
      "base ref since the branch point are counted as changed."⟩

/-- The contract of an `impacted-tests` answer: the frontier's reasons, the other ways
to have missed something, then the ways to have said too much. -/
def contract_for (view : GraphView) (walker : PathWalker) (changed : List NodeId)
    (tests : ImpactedTests) (facts : DiffFacts) : ApproximationContract :=
  .assemble
    ((scan_frontier view walker tests).into_reasons walker ++
      (tests.langs_in_play.filterMap recognition_gap).map (fun gap => ⟨.Under, gap.1, gap.2⟩) ++
      language_unsupported_reasons view changed ++
      file_unindexed_reasons changed facts ++
      when_positive facts.removed_symbols removed_symbols_reason ++
      when_positive tests.file_granular_only file_granular_reason ++
      when_positive tests.lifted containment_lift_reason ++
      (if facts.tip_to_tip_base then [tip_to_tip_reason] else []) ++
      (if tests.tests.any (fun r => r.min_confidence_on_path = .Possible ||
        r.via.candidate_group.isSome) then [over_candidate_reason] else []))
    (if tests.tests.isEmpty then some (scope_of walker) else none)

end cgx.query.impacted
