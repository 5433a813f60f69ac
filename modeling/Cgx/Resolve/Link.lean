import Cgx.Resolve.Symtab

open cgx.core cgx.frontend sorting

namespace cgx.resolve

/-- Options controlling the link pass. -/
structure LinkOpts where
  name_arity_fallback : Bool
  arity_filter : Bool
  dataflow : Bool
  receiver_narrowing : Bool
deriving DecidableEq, Inhabited

def LinkOpts.default : LinkOpts :=
  ⟨true, true, false, false⟩

/-- A reference the resolver could not bind. `caller` is the node whose dangling
counters count it. -/
structure UnresolvedRef where
  caller_fqn : String
  name_path : List String
  span : Span
  marker : CutMarker
  caller : NodeId
deriving DecidableEq, Inhabited

/-! ### Nodes -/

/-- The record of one definition, before ids are assigned. -/
def node_record (file : FileInput) (d : SymbolDef) : NodeRecord where
  id := ⟨0⟩
  kind := d.kind
  fqn := d.fqn
  file := file.path
  line_start := d.span.line
  line_end := d.line_end
  lang := file.lang
  visibility := d.visibility
  is_abstract := d.is_abstract
  entrypoint_kind := (file.facts.entrypoint_hints.find? fun h => h.fqn = d.fqn).map EntrypointHint.kind
  signature := d.signature
  own_effects := ((file.facts.effects.find? fun e => e.fqn = d.fqn).map EffectFact.effects).getD ⟨0⟩
  transitive_effects := ⟨0⟩
  unresolved_calls := 0
  external_calls := 0
  narrowing := ⟨0, 0, 0, 0, 0, 0, 0⟩

def staged_node (file : FileInput) (d : SymbolDef) : NodeWithProvenance where
  node := node_record file d
  provenance := ⟨d.span, "def", .ScopeGraph, file.blob_oid⟩

/-- The canonical node order, on nodes with provenance. -/
def node_order : NodeWithProvenance → NodeWithProvenance → Ordering :=
  fun a b => node_cmp a.node b.node

/-- Give every node its position as its id. -/
def assign_ids (nodes : List NodeWithProvenance) : List NodeWithProvenance :=
  nodes.mapIdx fun i n => { n with node := { n.node with id := .ofIndex i } }

/-- The symbol nodes of all files, in canonical order with dense ids. -/
def build_nodes (inputs : List FileInput) : List NodeWithProvenance :=
  assign_ids (sort_by node_order
    (inputs.flatMap fun file => file.facts.defs.map (staged_node file)))

/-- The `fqn → id` map of the symbol nodes; a later node replaces an earlier one. -/
def def_to_node (nodes : List NodeWithProvenance) (fqn : String) : Option NodeId :=
  (nodes.reverse.find? fun n => n.node.fqn = fqn).map fun n => n.node.id

/-- The text between the last separator `/` or `\` and the next `.`. -/
def file_stem (path : String) : String :=
  let name := path.toList.reverse.takeWhile fun c => c != '/' && c != '\\'
  String.ofList (name.reverse.takeWhile (· != '.'))

/-- The last segment of the module a file's definitions are rooted at. -/
def module_segment (file : FileInput) : String :=
  match file.facts.defs.findSome? fun d => module_prefix d.fqn with
  | some m => short_name m
  | none => file_stem file.path

/-! ### Scopes -/

/-- The definition whose body lexically encloses `scope`: the nearest scope owner
that is defined in the file. -/
def enclosing_def (scopes : ScopeTree) (defs : List SymbolDef) (scope : ScopeId) : Option SymbolDef :=
  (scopes.ancestors scope).findSome? fun sid =>
    (scopes.scopes[sid.index]?.bind Scope.owner_fqn).bind fun owner =>
      defs.find? fun d => d.fqn = owner

/-- The first definition of the least FQN. -/
def min_by_fqn : List SymbolDef → Option SymbolDef
  | [] => none
  | d :: ds =>
    match min_by_fqn ds with
    | some e => if e.fqn < d.fqn then some e else some d
    | none => some d

/-- The nearest definition named `name` in `scope` or a scope around it. -/
def resolve_local (scopes : ScopeTree) (defs : List SymbolDef) (scope : ScopeId) (name : String) :
    Option SymbolDef :=
  (scopes.ancestors scope).findSome? fun sid =>
    min_by_fqn (defs.filter fun d => d.scope = sid ∧ short_name d.fqn = name)

def resolve_pinned_from (defs : List SymbolDef) (name : String) : List ScopeId → Option SymbolDef
  | [] => none
  | sid :: rest =>
    match defs.filter fun d => d.scope = sid ∧ d.kind = .Lambda ∧ short_name d.fqn = name with
    | [] => resolve_pinned_from defs name rest
    | [d] => some d
    | _ => none

/-- The closure a pinned call names: the nearest scope that defines a `Lambda` of
that name must define exactly one. -/
def resolve_pinned_closure (scopes : ScopeTree) (defs : List SymbolDef) (scope : ScopeId)
    (name : String) : Option SymbolDef :=
  resolve_pinned_from defs name (scopes.ancestors scope)

/-- The import binding of a head name visible at `scope`, or a visible glob. -/
def lookup_binding (bindings : List ImportBinding) (scopes : ScopeTree) (scope : ScopeId)
    (head : String) : Option ImportBinding :=
  let visible := scopes.ancestors scope
  (bindings.find? fun b => !b.glob && b.local_name = head && visible.contains b.scope).or
    (bindings.find? fun b => b.glob && visible.contains b.scope)

/-- The exported name a reference asks the bound module for. -/
def ImportBinding.exported_for (b : ImportBinding) (head last : String) : String :=
  if b.glob then last
  else if b.local_name = head ∧ head ≠ last then last
  else b.exported

/-! ### Resolution of one reference -/

/-- One reference with its caller, as the link pass sees it. -/
structure Site where
  file : FileInput
  file_idx : Nat
  raw : RawRef
  caller : SymbolDef
  caller_id : NodeId
  local_def : Option SymbolDef
deriving DecidableEq, Inhabited

/-- The outcome of receiver narrowing at a virtual site. -/
inductive Narrowed where
  | Typed (hits : List DefEntry) (rule : String) (virtual_dispatch : Bool)
  | External
  | Legacy
deriving DecidableEq, Inhabited

/-- How one reference is resolved. -/
inductive Resolution where
  | Ignored
  | Bound (dst : NodeId) (confidence : Confidence) (rule : String) (virtual_dispatch : Bool)
  | Indirect
  | Typed (hits : List DefEntry) (rule : String) (virtual_dispatch : Bool)
  | External
  | Candidates (hits : List DefEntry) (rule : String) (virtual_dispatch : Bool)
  | Unresolved
deriving DecidableEq, Inhabited

def is_indirect : RefKind → Bool
  | .CallClosure | .CallPinnedClosure | .CallCallback => true
  | _ => false

/-- The same-name, same-language callables a virtual call may reach. -/
def method_candidates (table : SymbolTable) (name lang : String) : List DefEntry :=
  ((table.defs_by_short name).filter fun d => d.kind = .Method ∨ d.kind = .Function).filter
    fun d => d.lang = lang

/-- The global fallback set: same short name and language, callable or a type, and
of the call's arity when some candidate has it or leaves it open. -/
def name_arity_candidates (table : SymbolTable) (opts : LinkOpts) (lang last : String)
    (arity : Option UInt8) : List DefEntry :=
  let hits := ((table.defs_by_short last).filter fun d => d.lang = lang).filter
    fun d => d.kind.is_callable ∨ d.kind = .Type
  match opts.arity_filter, arity with
  | true, some a =>
    match hits.filter fun d => d.arity.all (· = a) with
    | [] => hits
    | filtered => filtered
  | _, _ => hits

/-- Steps 3 to 5: same-name dispatch, the global fallback, or a dangling reference. -/
def resolve_by_name (table : SymbolTable) (opts : LinkOpts) (lang : String) (raw : RawRef)
    (last : String) : Resolution :=
  let virtual_receiver := decide (raw.kind = .CallVirtualReceiver)
  match if virtual_receiver then method_candidates table last lang else [] with
  | [] =>
    match if opts.name_arity_fallback then name_arity_candidates table opts lang last raw.arity
      else [] with
    | [] => .Unresolved
    | hits => .Candidates hits "name-arity" virtual_receiver
  | hits => .Candidates hits "name-method" true

/-- Step 2: the import binding of the head name, else by name. -/
def resolve_by_import (table : SymbolTable) (opts : LinkOpts) (lang : String) (scopes : ScopeTree)
    (bindings : List ImportBinding) (raw : RawRef) (head last : String) : Resolution :=
  let virtual_receiver := decide (raw.kind = .CallVirtualReceiver)
  match (lookup_binding bindings scopes raw.scope head).map fun b =>
      table.resolve_member b.specifier (b.exported_for head last) with
  | some (.Unique hit) => .Bound hit.node_id .Probable "import-ref" virtual_receiver
  | some (.Ambiguous hits) => .Candidates hits "import-ref" virtual_receiver
  | _ => resolve_by_name table opts lang raw last

/-- Step 1b: receiver narrowing of a virtual site, else by import. -/
def resolve_by_receiver (table : SymbolTable) (opts : LinkOpts)
    (receivers : Option (Site → Narrowed)) (site : Site) (bindings : List ImportBinding)
    (head last : String) : Resolution :=
  let otherwise := resolve_by_import table opts site.file.lang site.file.facts.scopes bindings
    site.raw head last
  match receivers with
  | some narrow =>
    if site.raw.kind = .CallVirtualReceiver then
      match narrow site with
      | .Typed hits rule virtual_dispatch => .Typed hits rule virtual_dispatch
      | .External => .External
      | .Legacy => otherwise
    else otherwise
  | none => otherwise

/-- Step 1: a bare name that names a definition of the file around the reference. -/
def local_target (table : SymbolTable) (facts : FileFacts) (raw : RawRef) (last : String) :
    Option NodeId :=
  if raw.kind ≠ .CallVirtualReceiver ∧ raw.name_path.length = 1 then
    (resolve_local facts.scopes facts.defs raw.scope last).bind fun d =>
      (table.def_by_fqn d.fqn).map DefEntry.node_id
  else none

/-- Step 0a: the closure a pinned call names, if its FQN belongs to one node only. -/
def pinned_target (table : SymbolTable) (facts : FileFacts) (raw : RawRef) (last : String) :
    Option NodeId :=
  if raw.kind = .CallPinnedClosure ∧ raw.name_path.length = 1 then
    (resolve_pinned_closure facts.scopes facts.defs raw.scope last).bind fun d =>
      match (table.defs_by_short last).filter fun e => e.fqn = d.fqn with
      | [target] => some target.node_id
      | _ => none
  else none

/-- How the linker resolves a reference, step by step. -/
def resolution (table : SymbolTable) (opts : LinkOpts) (receivers : Option (Site → Narrowed))
    (bindings : List ImportBinding) (site : Site) : Resolution :=
  match site.raw.name_path.head?, site.raw.name_path.getLast? with
  | some head, some last =>
    match pinned_target table site.file.facts site.raw last with
    | some dst => .Bound dst .Certain "scope-ref" false
    | none =>
      if is_indirect site.raw.kind then .Indirect
      else
        match local_target table site.file.facts site.raw last with
        | some dst => .Bound dst .Certain "scope-ref" false
        | none => resolve_by_receiver table opts receivers site bindings head last
  | _, _ => .Ignored

end cgx.resolve
