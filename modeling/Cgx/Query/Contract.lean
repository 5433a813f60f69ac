import Cgx.Query.Engine

open cgx.core walks

namespace cgx.query

/-- The direction an answer can be wrong. -/
inductive ApproxDirection where
  | Exact
  | Over
  | Under
  | OverUnder
deriving DecidableEq

/-- Which way a single reason pushes the answer. -/
inductive ReasonDirection where
  | Over
  | Under
deriving DecidableEq

/-- One machine-readable reason: a stable code and a compact phrase. -/
structure ApproxReason where
  direction : ReasonDirection
  code : String
  detail : String
deriving DecidableEq

/-- What the search behind a negative answer covered. -/
structure NegativeScope where
  searched_edge_kinds : List EdgeKind
  confidence_floor : Confidence
  max_depth : Option UInt32
deriving DecidableEq

/-- The standing modeling boundary of a call-graph contract. -/
def MODELED_GRAPH : String :=
  "descended function bodies in the indexed repository; external/unindexed callees, undescended " ++
    "closure bodies, and unexpanded macros are outside the modeled graph"

/-- The approximation contract attached to every query answer. -/
structure ApproximationContract where
  direction : ApproxDirection
  reasons : List ApproxReason
  modeled_graph : String
  scope : Option NegativeScope
deriving DecidableEq

/-- Fold the directions of the reasons; no reason is exact. -/
def ApproximationContract.assemble (reasons : List ApproxReason) (scope : Option NegativeScope) :
    ApproximationContract where
  direction :=
    match reasons.any (fun r => r.direction = .Over), reasons.any fun r => r.direction = .Under with
    | false, false => .Exact
    | true, false => .Over
    | false, true => .Under
    | true, true => .OverUnder
  reasons := reasons
  modeled_graph := MODELED_GRAPH
  scope := scope

/-- The stable output token of a confidence. -/
def confidence_token : Confidence → String
  | .Possible => "possible"
  | .Probable => "probable"
  | .Certain => "certain"

def over_candidate_reason : ApproxReason :=
  ⟨.Over, "over-approx-candidate-set",
    "resolved through an over-approximated candidate set (dynamic dispatch or name-collision); " ++
      "some reported edges may not occur"⟩

/-- The code and phrase of a cut marker. -/
def cut_phrase : CutMarker → String × String
  | .Unresolved => ("unresolved-call", "external/unindexed callees not modeled (no SCIP)")
  | .Dynamic => ("dynamic-dispatch", "dynamic/plugin dispatch not resolved")
  | .Reflective => ("reflective-dispatch", "reflective/string-computed dispatch not resolved")
  | .ViaFfi => ("foreign-function", "calls crossing an FFI boundary not modeled")
  | .ViaDi => ("dependency-injection", "dependency-injection dispatch not resolved")
  | .UnexpandedMacro => ("unexpanded-macro", "calls inside unexpanded macros not modeled")
  | .OpaqueCall => ("opaque-dataflow", "dataflow through an un-summarized callee not modeled")
  | .TruncatedAccessPath =>
    ("truncated-access-path", "deep field-access dataflow truncated to its base value")
  | .SummaryBudgetExceeded =>
    ("summary-budget", "interprocedural dataflow summary budget exhausted")
  | .External => ("external-receiver", "call on an out-of-repo receiver type not modeled")
  | .UntypedReceiver => ("untyped-receiver", "call on a receiver of unknown type not modeled")

def cut_reason (marker : CutMarker) (count : Nat) : ApproxReason :=
  ⟨.Under, (cut_phrase marker).1,
    s!"{(cut_phrase marker).2} ({count} site(s) on the searched frontier)"⟩

def below_floor_reason (floor : Confidence) (count : Nat) : ApproxReason :=
  ⟨.Under, "below-confidence-floor",
    s!"{count} edge(s) below the confidence>={confidence_token floor} floor were excluded from the " ++
      "search"⟩

def dropped_max_candidates_reason (max count : Nat) : ApproxReason :=
  ⟨.Under, "dropped-max-candidates",
    s!"{count} edge(s) in a candidate set larger than {max} were excluded from the search " ++
      "(--max-candidates fan-out cap)"⟩

def depth_limit_reason (depth : Nat) : ApproxReason :=
  ⟨.Under, "depth-limit", s!"search stopped at depth {depth}; deeper edges were not explored"⟩

def dangling_refs_reason (count : Nat) : ApproxReason :=
  ⟨.Under, "unresolved-external-calls",
    s!"{count} call(s) in the searched region resolved to no in-repo target " ++
      "(external/unindexed callee; no SCIP) and could not be followed"⟩

def external_receiver_calls_reason (count : Nat) : ApproxReason :=
  ⟨.Under, "external-receiver-calls",
    s!"{count} call(s) on receivers of out-of-repo types (builtin, stdlib or library) have no " ++
      "in-repo target and could not be followed"⟩

def receiver_narrowed_reason (count : Nat) : ApproxReason :=
  ⟨.Under, "receiver-narrowed",
    s!"{count} virtual call site(s) were bound by receiver typing (self/cls/super, class heads, " ++
      "annotations, constructors, fields); targets outside the inferred type are excluded and are " ++
      "reachable only if a typing assumption fails (monkey-patching or methods assigned from " ++
      "outside the class family, untruthful annotations, attributes set dynamically, a metaclass " ++
      "that makes a constructor return another class)"⟩

def receiver_narrowed_interproc_reason (count : Nat) : ApproxReason :=
  ⟨.Under, "receiver-narrowed-interproc",
    s!"{count} site(s) were bound using argument/return/fixture typing, which assumes every caller " ++
      "of the typed function is in the indexed repo"⟩

def residual_import_visible_reason (bounded dropped : Nat) : ApproxReason :=
  ⟨.Under, "residual-import-visible",
    s!"{bounded + dropped} untyped-receiver call site(s) were limited to methods of classes the " ++
      s!"caller's file defines or imports, plus their subclasses ({dropped} left with no target); " ++
      "this rule is not sound for duck typing: an object can reach a module that never imports its " ++
      "class"⟩

def receiver_narrowed_away_reason (count : Nat) : ApproxReason :=
  ⟨.Under, "receiver-narrowed-away",
    s!"{count} same-name virtual call site(s) were bound by receiver typing to other targets; they " ++
      "could reach the searched symbols only if a typing assumption fails"⟩

def receiver_narrowed_away_interproc_reason (count : Nat) : ApproxReason :=
  ⟨.Under, "receiver-narrowed-away-interproc",
    s!"{count} same-name virtual call site(s) were bound by argument/return/fixture typing to other " ++
      "targets; they could reach the searched symbols only if a typing assumption fails or a caller " ++
      "of the typed function is outside the indexed repo"⟩

def residual_narrowed_away_reason (count : Nat) : ApproxReason :=
  ⟨.Under, "residual-narrowed-away",
    s!"{count} same-name untyped-receiver call site(s) excluded the searched symbols because their " ++
      "classes are not import-visible to the caller; not sound for duck typing"⟩

/-- The incompleteness facts gathered by scanning the subgraph a walk touched. -/
structure FrontierFacts where
  dangling_refs : Nat
  external_calls : Nat
  typed_out : Nat
  interproc_out : Nat
  visible_out : Nat
  visible_dropped_out : Nat
  typed_away_in : Nat
  interproc_away_in : Nat
  visible_away_in : Nat
  cut_counts : CutMarker → Nat
  below_floor : Nat
  dropped_max_candidates : Nat
  depth_truncated : Bool

namespace FrontierFacts

def empty : FrontierFacts :=
  ⟨0, 0, 0, 0, 0, 0, 0, 0, 0, fun _ => 0, 0, 0, false⟩

/-- Accumulate the facts of one touched node. -/
def merge (a b : FrontierFacts) : FrontierFacts where
  dangling_refs := a.dangling_refs + b.dangling_refs
  external_calls := a.external_calls + b.external_calls
  typed_out := a.typed_out + b.typed_out
  interproc_out := a.interproc_out + b.interproc_out
  visible_out := a.visible_out + b.visible_out
  visible_dropped_out := a.visible_dropped_out + b.visible_dropped_out
  typed_away_in := a.typed_away_in + b.typed_away_in
  interproc_away_in := a.interproc_away_in + b.interproc_away_in
  visible_away_in := a.visible_away_in + b.visible_away_in
  cut_counts marker := a.cut_counts marker + b.cut_counts marker
  below_floor := a.below_floor + b.below_floor
  dropped_max_candidates := a.dropped_max_candidates + b.dropped_max_candidates
  depth_truncated := a.depth_truncated || b.depth_truncated

/-- A reason for a positive count, none for zero. -/
def when_positive (count : Nat) (reason : Nat → ApproxReason) : List ApproxReason :=
  if 0 < count then [reason count] else []

def into_reasons (facts : FrontierFacts) (walker : PathWalker) : List ApproxReason :=
  when_positive facts.dangling_refs dangling_refs_reason ++
  when_positive facts.external_calls external_receiver_calls_reason ++
  when_positive facts.typed_out receiver_narrowed_reason ++
  when_positive facts.interproc_out receiver_narrowed_interproc_reason ++
  when_positive (facts.visible_out + facts.visible_dropped_out)
    (fun _ => residual_import_visible_reason facts.visible_out facts.visible_dropped_out) ++
  when_positive facts.typed_away_in receiver_narrowed_away_reason ++
  when_positive facts.interproc_away_in receiver_narrowed_away_interproc_reason ++
  when_positive facts.visible_away_in residual_narrowed_away_reason ++
  CutMarker.ALL.flatMap (fun marker => when_positive (facts.cut_counts marker) (cut_reason marker)) ++
  when_positive facts.below_floor (below_floor_reason walker.filter.min_confidence) ++
  (match walker.filter.max_candidates with
    | some max => when_positive facts.dropped_max_candidates (dropped_max_candidates_reason max.toNat)
    | none => []) ++
  (match walker.max_depth with
    | some depth => if facts.depth_truncated then [depth_limit_reason depth.toNat] else []
    | none => [])

end FrontierFacts

/-- The discoveries of the walks from all roots, in root order. -/
def discoveries (view : GraphView) (walker : PathWalker) (roots : List NodeId) (dir : Direction) :
    List Discovered :=
  roots.flatMap fun root => walker.bfs view root dir

/-- The nodes a walk from the roots touches: the roots, then the discoveries. -/
def touched_nodes (view : GraphView) (walker : PathWalker) (roots : List NodeId) (dir : Direction) :
    List NodeId :=
  (roots ++ (discoveries view walker roots dir).map Discovered.node).foldl view.mark []

/-- The least depth of a touched node over all roots; a root has depth zero. -/
def depth_of (view : GraphView) (walker : PathWalker) (roots : List NodeId) (dir : Direction)
    (n : NodeId) : Nat :=
  let depths := ((discoveries view walker roots dir).filter fun d => d.node = n).map Discovered.depth
  ((if n ∈ roots then [0] else []) ++ depths).min?.getD 4294967295

/-- Every edge of the searched family, whatever its confidence, condition or
fan-out. -/
def scan_filter (filter : EdgeFilter) : EdgeFilter :=
  ⟨.Possible, .Any, filter.kinds, none⟩

/-- Whether the walk follows call-family edges only. -/
def is_call_scope (filter : EdgeFilter) : Bool :=
  match filter.kinds with
  | none => true
  | some kinds => kinds.all EdgeKind.is_call

/-- The facts one touched node contributes, given its depth and the touched set. -/
def scan_node (view : GraphView) (walker : PathWalker) (dir : Direction) (touched : List NodeId)
    (depth : Nat) (n : NodeId) : FrontierFacts :=
  let record := view.node n
  let inside_horizon := walker.limit ≠ some depth
  let count_dangling := dir = .Forward ∧ is_call_scope walker.filter
  let count_backward := dir = .Backward ∧ is_call_scope walker.filter
  let incident := view.neighbors n dir (scan_filter walker.filter)
  { dangling_refs := if count_dangling then record.unresolved_calls.toNat else 0
    external_calls := if count_dangling ∧ inside_horizon then record.external_calls.toNat else 0
    typed_out := if count_dangling ∧ inside_horizon then record.narrowing.typed_out.toNat else 0
    interproc_out := if count_dangling ∧ inside_horizon then record.narrowing.interproc_out.toNat else 0
    visible_out := if count_dangling ∧ inside_horizon then record.narrowing.visible_out.toNat else 0
    visible_dropped_out :=
      if count_dangling ∧ inside_horizon then record.narrowing.visible_dropped_out.toNat else 0
    typed_away_in := if count_backward ∧ inside_horizon then record.narrowing.typed_away_in.toNat else 0
    interproc_away_in :=
      if count_backward ∧ inside_horizon then record.narrowing.interproc_away_in.toNat else 0
    visible_away_in :=
      if count_backward ∧ inside_horizon then record.narrowing.visible_away_in.toNat else 0
    cut_counts marker := (incident.flatMap fun er => er.edge.cut_markers).count marker
    below_floor := incident.countP fun er => er.edge.confidence < walker.filter.min_confidence
    dropped_max_candidates := incident.countP fun er =>
      !(er.edge.confidence < walker.filter.min_confidence) && view.over_cap walker.filter er.edge
    depth_truncated := walker.limit = some depth &&
      (view.neighbors n dir walker.filter).any fun er =>
        er.peer.index < view.node_count && !touched.contains er.peer }

/-- Scan the subgraph reached from the roots for the facts that make a negative
answer incomplete. -/
def scan_frontier (view : GraphView) (walker : PathWalker) (roots : List NodeId) (dir : Direction) :
    FrontierFacts :=
  let touched := touched_nodes view walker roots dir
  touched.foldl (fun facts n =>
    facts.merge (scan_node view walker dir touched (depth_of view walker roots dir n) n)) .empty

/-- The edge kinds a filter follows: its explicit kinds, or the call family. -/
def searched_kinds (filter : EdgeFilter) : List EdgeKind :=
  match filter.kinds with
  | some kinds => kinds
  | none => [.Calls, .CallsVirtual, .CallsClosure, .CallsCallback, .CallsAsync, .CallsIndirect]

def scope_of (walker : PathWalker) : NegativeScope :=
  ⟨searched_kinds walker.filter, walker.filter.min_confidence, walker.max_depth⟩

/-- Contract for a neighbor answer. -/
def for_neighbors (view : GraphView) (walker : PathWalker) (root : NodeId) (dir : Direction)
    (results : List NeighborResult) : ApproximationContract :=
  let crossed := if results.any (fun r => r.min_confidence_on_path = .Possible ||
      r.via.candidate_group.isSome) then [over_candidate_reason] else []
  .assemble (crossed ++ (scan_frontier view walker [root] dir).into_reasons walker)
    (if results.isEmpty then some (scope_of walker) else none)

/-- Contract for a reachability answer. A positive one is proven by its witness. -/
def for_reaches (view : GraphView) (walker : PathWalker) (source : NodeId) (result : ReachResult) :
    ApproximationContract :=
  match result.witness with
  | some witness =>
    let crossed := witness.min_confidence = .Possible || witness.steps.any fun s =>
      s.via.any fun edge => edge.candidate_group.isSome
    .assemble (if crossed then [over_candidate_reason] else []) none
  | none =>
    .assemble ((scan_frontier view walker [source] .Forward).into_reasons walker)
      (some (scope_of walker))

/-- Contract for an `unused` answer, an inherently negative claim. -/
def for_unused (view : GraphView) (walker : PathWalker) (roots : List NodeId) :
    ApproximationContract :=
  .assemble ((scan_frontier view walker roots .Forward).into_reasons walker)
    (some (scope_of walker))

end cgx.query
