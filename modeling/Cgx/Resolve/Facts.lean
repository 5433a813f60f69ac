import Cgx.Core.Site

open cgx.core

namespace cgx.frontend

/-- Index of a lexical scope within one file's scope tree. -/
structure ScopeId where
  raw : UInt32
deriving DecidableEq, Inhabited

def ScopeId.ROOT : ScopeId := ⟨0⟩

def ScopeId.index (s : ScopeId) : Nat :=
  s.raw.toNat

/-- A definition extracted from a file. -/
structure SymbolDef where
  fqn : String
  kind : SymbolKind
  visibility : Visibility
  scope : ScopeId
  span : Span
  line_end : UInt32
  is_abstract : Bool
  signature : Option Signature
deriving DecidableEq, Inhabited

/-- What kind of reference a `RawRef` is, before resolution. -/
inductive RefKind where
  | Call
  | CallVirtualReceiver
  | CallClosure
  | CallCallback
  | CallAsync
  | Spawn
  | Reference
  | Instantiate
  | CallPinnedClosure
deriving DecidableEq, Inhabited

/-- An unresolved reference site: what the source says and where. -/
structure RawRef where
  name_path : List String
  scope : ScopeId
  kind : RefKind
  edge_condition : EdgeCondition
  implicit : Option ImplicitKind
  span : Span
  stmt_index : UInt32
  arity : Option UInt8
  cut_markers : List CutMarker
deriving DecidableEq, Inhabited

inductive RelationKind where
  | Implements
  | Inherits
  | Overrides
deriving DecidableEq, Inhabited

/-- A declared relation between two named types, or between a method and the
trait method it overrides. -/
structure ImplRelation where
  kind : RelationKind
  subject : List String
  object : List String
  span : Span
deriving DecidableEq, Inhabited

structure ImportedName where
  name : String
  alias_name : Option String
deriving DecidableEq, Inhabited

structure ImportFact where
  specifier : String
  names : List ImportedName
  glob : Bool
  re_export : Bool
  scope : ScopeId
deriving DecidableEq, Inhabited

structure ExportFact where
  name : String
  alias_name : Option String
  source : Option String
deriving DecidableEq, Inhabited

structure Scope where
  parent : Option ScopeId
  owner_fqn : Option String
deriving DecidableEq, Inhabited

/-- The lexical scopes of a file, indexed by `ScopeId`. -/
structure ScopeTree where
  scopes : List Scope
deriving DecidableEq, Inhabited

def ScopeTree.new : ScopeTree :=
  ⟨[⟨none, none⟩]⟩

def ScopeTree.parent (t : ScopeTree) (id : ScopeId) : Option ScopeId :=
  t.scopes[id.index]?.bind Scope.parent

def ScopeTree.ancestors_from (t : ScopeTree) : Nat → ScopeId → List ScopeId
  | 0, _ => []
  | fuel + 1, id =>
    match t.parent id with
    | some parent => id :: t.ancestors_from fuel parent
    | none => [id]

/-- The scopes from `scope` up to the root. A parent chain without a cycle visits
each scope of the tree at most once, so the fuel never cuts it. -/
def ScopeTree.ancestors (t : ScopeTree) (scope : ScopeId) : List ScopeId :=
  t.ancestors_from (t.scopes.length + 1) scope

structure EntrypointHint where
  fqn : String
  kind : EntrypointKind
deriving DecidableEq, Inhabited

structure EffectFact where
  fqn : String
  effects : EffectSet
deriving DecidableEq, Inhabited

/-- One intraprocedural dataflow fact: `derived` at `derived_version` was produced
from `source`. -/
structure DataFlowFact where
  derived : List String
  source : List String
  derived_version : UInt32
  scope : ScopeId
  transform : Transform
  edge_condition : EdgeCondition
  cut_markers : List CutMarker
  callee_fqn : Option String
  args : List (List String)
  span : Span
deriving DecidableEq, Inhabited

/-- The facts of one file that the linker reads. -/
structure FileFacts where
  defs : List SymbolDef
  refs : List RawRef
  impl_relations : List ImplRelation
  imports : List ImportFact
  exports : List ExportFact
  scopes : ScopeTree
  entrypoint_hints : List EntrypointHint
  effects : List EffectFact
  data_flows : List DataFlowFact
deriving DecidableEq, Inhabited

def FileFacts.empty : FileFacts :=
  ⟨[], [], [], [], [], .new, [], [], []⟩

/-- One file's contribution to the link. -/
structure FileInput where
  blob_oid : String
  path : String
  lang : String
  facts : FileFacts
deriving DecidableEq, Inhabited

end cgx.frontend
