import Cgx.Core.Node

namespace cgx.core

/-- How sure an edge's target is. The ranks ascend with certainty, so the order
answers "is this at least `Probable`?". -/
inductive Confidence where
  | Possible
  | Probable
  | Certain
deriving DecidableEq, Inhabited

def Confidence.rank : Confidence → Nat
  | .Possible => 0
  | .Probable => 1
  | .Certain => 2

instance : LE Confidence := ⟨fun a b => a.rank ≤ b.rank⟩
instance : LT Confidence := ⟨fun a b => a.rank < b.rank⟩
instance (a b : Confidence) : Decidable (a ≤ b) := inferInstanceAs (Decidable (a.rank ≤ b.rank))
instance (a b : Confidence) : Decidable (a < b) := inferInstanceAs (Decidable (a.rank < b.rank))

/-- The weaker of two confidences. -/
def Confidence.weakest (a b : Confidence) : Confidence :=
  if a ≤ b then a else b

theorem Confidence.not_lt_Possible (c : Confidence) : ¬ c < .Possible := by
  cases c <;> decide

theorem Confidence.not_Certain_lt (c : Confidence) : ¬ .Certain < c := by
  cases c <;> decide

theorem Confidence.weakest_Probable_ne (c : Confidence) : c.weakest .Probable ≠ .Certain := by
  cases c <;> decide

/-- The resolution tier that produced an edge. -/
inductive Tier where
  | NameSyntactic
  | ScopeGraph
  | Scip
  | ChaRta
  | PointsTo
deriving DecidableEq, Inhabited

/-- The runtime condition under which a call edge is taken. -/
inductive EdgeCondition where
  | Always
  | Conditional
  | Loop
  | Exception
  | Panic
deriving DecidableEq, Inhabited

def EdgeCondition.is_exceptional : EdgeCondition → Bool
  | .Exception | .Panic => true
  | _ => false

/-- A reason an edge's target is structurally hard or impossible to resolve. -/
inductive CutMarker where
  | Reflective
  | Dynamic
  | ViaDi
  | ViaFfi
  | Unresolved
  | UnexpandedMacro
  | OpaqueCall
  | TruncatedAccessPath
  | SummaryBudgetExceeded
  | External
  | UntypedReceiver
deriving DecidableEq, Inhabited

/-- The markers in ascending discriminant order, the order a `BTreeMap` keyed by
markers is drained in. -/
def CutMarker.ALL : List CutMarker :=
  [.Reflective, .Dynamic, .ViaDi, .ViaFfi, .Unresolved, .UnexpandedMacro, .OpaqueCall,
    .TruncatedAccessPath, .SummaryBudgetExceeded, .External, .UntypedReceiver]

theorem CutMarker.mem_ALL (m : CutMarker) : m ∈ CutMarker.ALL := by
  cases m <;> decide

/-- Edge kinds. `Spawns` is a kind, orthogonal to the edge condition. -/
inductive EdgeKind where
  | Calls
  | CallsVirtual
  | CallsClosure
  | CallsCallback
  | CallsAsync
  | CallsIndirect
  | Spawns
  | Contains
  | Imports
  | DerivesFrom
  | Overrides
  | Implements
  | Inherits
  | References
  | Instantiates
  | Throws
  | Catches
  | ReadsField
  | WritesField
deriving DecidableEq, Inhabited

/-- Whether this is a call-family edge. `Spawns` is included. -/
def EdgeKind.is_call : EdgeKind → Bool
  | .Calls | .CallsVirtual | .CallsClosure | .CallsCallback | .CallsAsync | .CallsIndirect
  | .Spawns => true
  | _ => false

/-- The declaration position, the `kind as u8` of the canonical edge order. -/
def EdgeKind.discriminant : EdgeKind → Nat
  | .Calls => 0
  | .CallsVirtual => 1
  | .CallsClosure => 2
  | .CallsCallback => 3
  | .CallsAsync => 4
  | .CallsIndirect => 5
  | .Spawns => 6
  | .Contains => 7
  | .Imports => 8
  | .DerivesFrom => 9
  | .Overrides => 10
  | .Implements => 11
  | .Inherits => 12
  | .References => 13
  | .Instantiates => 14
  | .Throws => 15
  | .Catches => 16
  | .ReadsField => 17
  | .WritesField => 18

/-- The mechanism behind an implicit call site. -/
inductive ImplicitKind where
  | Drop
  | Destructor
  | Deref
  | Coercion
  | Operator
  | Iterator
  | ContextEnter
  | ContextExit
  | Property
  | Defer
  | StaticInit
  | Conversion
deriving DecidableEq, Inhabited

/-- Evidence class for a mediated call edge. -/
inductive EstablishedBy where
  | Annotation
  | ConfigFile
  | RegistrationSite
  | Convention
deriving DecidableEq, Inhabited

/-- The structural shape of a `DerivesFrom` derivation. -/
inductive Transform where
  | Copy
  | Projection
  | Arith
  | Concat
  | Composed
  | Branched
  | Aggregation
  | Parse
  | Serialize
  | Other
deriving DecidableEq, Inhabited

/-- An edge record. `candidate_group` groups the parallel edges of a single
over-approximated call site; its members are listed in the candidate table. -/
structure EdgeRecord where
  id : EdgeId
  src : NodeId
  dst : NodeId
  kind : EdgeKind
  condition : EdgeCondition
  confidence : Confidence
  tier : Tier
  rule : String
  site_id : Option SiteId
  stmt_index : Option UInt32
  cut_markers : List CutMarker
  implicit : Option ImplicitKind
  candidate_group : Option UInt32
  established_by : Option EstablishedBy
  cfg_condition : Option String
  macro_origin : Option String
  transform : Option Transform
deriving DecidableEq, Inhabited

/-- One member of a candidate set; a lower rank is more likely. -/
structure Candidate where
  candidate_group : UInt32
  dst : NodeId
  rank : UInt32
deriving DecidableEq, Inhabited

end cgx.core

namespace cgx.core

def NarrowingCounts.zero : NarrowingCounts :=
  ⟨0, 0, 0, 0, 0, 0, 0⟩

/-- A public function with nothing to report, for concrete graphs. -/
def function_node (id : UInt32) (fqn : String) : NodeRecord where
  id := ⟨id⟩
  kind := .Function
  fqn := fqn
  file := "a.rs"
  line_start := id + 1
  line_end := id + 1
  lang := "rust"
  visibility := .Public
  is_abstract := false
  entrypoint_kind := none
  signature := none
  own_effects := ⟨0⟩
  transitive_effects := ⟨0⟩
  unresolved_calls := 0
  external_calls := 0
  narrowing := .zero

/-- A certain, unconditional edge without a candidate group, for concrete graphs. -/
def certain_edge (id : UInt32) (kind : EdgeKind) (src dst : UInt32) : EdgeRecord where
  id := ⟨id⟩
  src := ⟨src⟩
  dst := ⟨dst⟩
  kind := kind
  condition := .Always
  confidence := .Certain
  tier := .ScopeGraph
  rule := "scope-ref"
  site_id := none
  stmt_index := none
  cut_markers := []
  implicit := none
  candidate_group := none
  established_by := none
  cfg_condition := none
  macro_origin := none
  transform := none

end cgx.core
