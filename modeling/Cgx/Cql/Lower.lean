import Cgx.Cql.Ast
import Cgx.Query.View

open cgx.core cgx.query

namespace cgx.cql

/-- How an anchor's binding set is produced. -/
inductive AnchorSet where
  | Symbol (pat : SymbolPattern)
  | Kinds (kinds : List SymbolKind)
  | All

/-- A single fixed hop, or a walk of `min..max` hops. -/
inductive Cardinality where
  | SingleHop
  | VarLength (min : UInt32) (max : Option UInt32)

/-- The backing field a node property maps to. -/
inductive NodeField where
  | Fqn
  | File
  | Line
  | Kind
deriving DecidableEq

/-- A node-property predicate resolved to a field. -/
structure NodeProp where
  field : NodeField
  value : Value

/-- A lowered single-relationship pattern: anchor at one end, walk toward the other. -/
structure PatternPlan where
  path_var : Option String
  anchor_bound_var : Option String
  anchor_var : Option String
  peer_var : Option String
  rel_var : Option String
  anchor : AnchorSet
  direction : Direction
  filter : EdgeFilter
  cardinality : Cardinality
  peer_kinds : Option (List SymbolKind)
  peer_props : List NodeProp

/-- Node properties the language knows but that have no backing field. -/
def UNBACKED_NODE_PROPERTIES : List String :=
  ["scope", "col", "type", "in_degree", "out_degree", "is_exit", "entrypoint_class", "source_class",
    "sink_class", "sanitizer_class", "introduced_in_branch", "transitive_effects", "suspends",
    "lock_set", "async"]

/-- Map a node-property name to its backing field, rejecting unbacked names. -/
def NodeField.from_name (name : String) (span : Span) : Except CqlError NodeField :=
  if name = "name" then .ok .Fqn
  else if name = "file" then .ok .File
  else if name = "line" then .ok .Line
  else if name = "kind" then .ok .Kind
  else if name = "fqn" then .ok .Fqn
  else if name = "confidence" then
    .error (.plan span ("node property `confidence` is not supported: confidence is an edge " ++
      "attribute (use `r.confidence` on a relationship); deferred on nodes"))
  else if UNBACKED_NODE_PROPERTIES.contains name then
    .error (.plan span ("node property `" ++ name ++ "` is not supported in this release " ++
      "(no backing field on a symbol node)"))
  else .error (.plan span ("unknown node property `" ++ name ++ "`"))

/-- The backing field an edge property maps to. -/
inductive EdgeField where
  | Condition
  | Confidence
  | Kind
deriving DecidableEq

def EdgeField.from_name (name : String) (span : Span) : Except CqlError EdgeField :=
  if name = "condition" then .ok .Condition
  else if name = "confidence" then .ok .Confidence
  else if name = "kind" then .ok .Kind
  else if name = "transformation" then
    .error (.plan span ("edge property `transformation` is not populated by the current " ++
      "frontend; DATA_FLOW transformation tags are deferred"))
  else if name = "via" ∨ name = "taint_label" ∨ name = "site" then
    .error (.plan span ("edge property `" ++ name ++ "` is not supported in this release " ++
      "(no backing field on an edge)"))
  else .error (.plan span ("unknown edge property `" ++ name ++ "`"))

/-- Map a label or `kind` token to a symbol kind. -/
def symbol_kind (token : String) (span : Span) : Except CqlError SymbolKind :=
  if token = "function" then .ok .Function
  else if token = "method" then .ok .Method
  else if token = "type" then .ok .Type
  else if token = "field" then .ok .Field
  else if token = "variable" then .ok .Variable
  else if token = "module" then .ok .Module
  else if token = "constant" then .ok .Constant
  else if token = "macro" then .ok .Macro
  else if token = "lambda" then .ok .Lambda
  else if token = "entrypoint" then .ok .Entrypoint
  else .error (.plan span ("unknown symbol kind `" ++ token ++ "`"))

/-- The token of a symbol kind. -/
def symbol_kind_token : SymbolKind → String
  | .Function => "function"
  | .Method => "method"
  | .Type => "type"
  | .Field => "field"
  | .Variable => "variable"
  | .Module => "module"
  | .Constant => "constant"
  | .Macro => "macro"
  | .Lambda => "lambda"
  | .Entrypoint => "entrypoint"

/-- Relationship types the language recognises but does not support yet. -/
def DEFERRED_EDGE_TYPES : List String :=
  ["CALLS:super", "RESOLVES_TO", "PROVIDES_BODY", "SHADOWS_FIELD", "FULFILLS"]

/-- Map a relationship type to the edge kinds it admits and whether its arrow runs
against the stored edge. -/
def rel_kinds (token : String) (span : Span) : Except CqlError (List EdgeKind × Bool) :=
  if token = "CALLS" then
    .ok ([.Calls, .CallsVirtual, .CallsClosure, .CallsCallback, .CallsAsync, .CallsIndirect], false)
  else if token = "SPAWNS" then .ok ([.Spawns], false)
  else if token = "DATA_FLOW" then .ok ([.DerivesFrom], false)
  else if token = "MEMBER_OF" then .ok ([.Contains], true)
  else if token = "CONTAINS" then .ok ([.Contains], false)
  else if token = "OVERRIDES" then .ok ([.Overrides], false)
  else if token = "INHERITS" then .ok ([.Inherits], false)
  else if token = "IMPLEMENTS" then .ok ([.Implements], false)
  else if token = "IMPORTS" then .ok ([.Imports], false)
  else if token = "REFERENCES" then .ok ([.References], false)
  else if token = "INSTANTIATES" then .ok ([.Instantiates], false)
  else if token = "THROWS" then .ok ([.Throws], false)
  else if token = "CATCHES" then .ok ([.Catches], false)
  else if token = "READS_FIELD" then .ok ([.ReadsField], false)
  else if token = "WRITES_FIELD" then .ok ([.WritesField], false)
  else if DEFERRED_EDGE_TYPES.contains token then
    .error (.plan span ("edge type `" ++ token ++ "` is recognised but not supported in this " ++
      "release (Theme-13, deferred)"))
  else if token = "COMPATIBLE_WITH" then
    .error (.plan span ("edge type `COMPATIBLE_WITH` is not supported in this release " ++
      "(type-reconstruction operator, deferred)"))
  else .error (.plan span ("unknown edge type `" ++ token ++ "`"))

/-- The kinds of a multi-type relationship; all types must agree on the inversion. -/
def rel_kinds_multi_from (invert : Option Bool) :
    List (Spanned String) → Except CqlError (List EdgeKind × Bool)
  | [] => .ok ([], invert.getD false)
  | t :: rest => do
    let (kinds, inverted) ← rel_kinds t.value t.span
    match invert with
    | some previous =>
      if previous ≠ inverted then
        throw (.plan t.span ("cannot combine `MEMBER_OF` with other edge types in one " ++
          "pattern (their stored directions disagree)"))
    | none => pure ()
    let (more, result) ← rel_kinds_multi_from (some (invert.getD inverted)) rest
    return (kinds ++ more, result)

def rel_kinds_multi (types : List (Spanned String)) : Except CqlError (List EdgeKind × Bool) :=
  rel_kinds_multi_from none types

/-- The direction that follows the arrow as written. -/
def walk_direction (arrow : Arrow) (invert : Bool) : Direction :=
  let base := match arrow with
    | .Forward => Direction.Forward
    | .Backward => Direction.Backward
  if invert then base.reverse else base

/-- The property predicates of a node pattern and its kind constraint, gathered from
the label and the `kind` entries. -/
def node_constraints_from (props : List NodeProp) (kinds : Option (List SymbolKind)) :
    List PropEntry → Except CqlError (List NodeProp × Option (List SymbolKind))
  | [] => .ok (props, kinds)
  | entry :: rest => do
    let field ← NodeField.from_name entry.key.value entry.key.span
    if field = .Kind then
      match entry.value with
      | .Str token =>
        let kind ← symbol_kind token entry.key.span
        node_constraints_from props (some (kinds.getD [] ++ [kind])) rest
      | _ => throw (.plan entry.key.span "node `kind` property requires a string value")
    else node_constraints_from (props ++ [⟨field, entry.value⟩]) kinds rest

def node_constraints (node : NodePat) : Except CqlError (List NodeProp × Option (List SymbolKind)) := do
  match node.label with
  | some label =>
    let kind ← symbol_kind label.value label.span
    node_constraints_from [] (some [kind]) node.props
  | none => node_constraints_from [] none node.props

/-- The pattern of a `name`/`fqn` string: a glob if it holds `*` or `?`, an FQN if it
holds a segment separator, else a short name. -/
def name_pattern (s : String) : SymbolPattern :=
  if (as_bytes s).contains STAR || (as_bytes s).contains QUESTION then ⟨.Glob, s⟩
  else if contains_segment_separator s then ⟨.Fqn, s⟩
  else ⟨.ShortName, s⟩

def symbol_pattern_from : Value → Option SymbolPattern
  | .Str s => some (name_pattern s)
  | _ => none

/-- The first `name`/`fqn` property of an end. -/
def name_prop (props : List NodeProp) : Option NodeProp :=
  props.find? fun p => p.field = .Fqn

/-- A name is the most selective end, then a kind or any other property, then nothing. -/
def selectivity (props : List NodeProp) (kinds : Option (List SymbolKind)) : Nat :=
  if props.any fun p => p.field = .Fqn then 2
  else if kinds.isSome || !props.isEmpty then 1
  else 0

/-- The anchor set of an end: its name if that is a string, else its kinds. -/
def anchor_set (props : List NodeProp) (kinds : Option (List SymbolKind)) : AnchorSet :=
  match (name_prop props).bind fun p => symbol_pattern_from p.value with
  | some pat => .Symbol pat
  | none =>
    match kinds with
    | some kinds => .Kinds kinds
    | none => .All

def condition_token : EdgeCondition → String
  | .Always => "always"
  | .Conditional => "conditional"
  | .Loop => "loop"
  | .Exception => "exception"
  | .Panic => "panic"

def confidence_token : Confidence → String
  | .Possible => "possible"
  | .Probable => "probable"
  | .Certain => "certain"

/-- Parse an inline `condition` value. -/
def parse_condition (value : Value) (span : Span) : Except CqlError EdgeCondition :=
  match value with
  | .Str s =>
    if s = "always" then .ok .Always
    else if s = "conditional" then .ok .Conditional
    else if s = "loop" then .ok .Loop
    else if s = "exception" then .ok .Exception
    else if s = "panic" then .ok .Panic
    else .error (.plan span ("unknown edge condition `" ++ s ++ "`"))
  | _ => .error (.plan span "edge `condition` must be a string")

/-- Parse an inline `confidence` value to a floor. -/
def parse_confidence (value : Value) (span : Span) : Except CqlError Confidence :=
  match value with
  | .Str s =>
    if s = "possible" then .ok .Possible
    else if s = "probable" then .ok .Probable
    else if s = "certain" then .ok .Certain
    else .error (.plan span ("unknown edge confidence `" ++ s ++ "`"))
  | _ => .error (.plan span "edge `confidence` must be a string")

/-- Push inline relationship properties into the edge filter. -/
def apply_rel_props (filter : EdgeFilter) : List PropEntry → Except CqlError EdgeFilter
  | [] => .ok filter
  | entry :: rest => do
    match ← EdgeField.from_name entry.key.value entry.key.span with
    | .Condition =>
      let c ← parse_condition entry.value entry.key.span
      apply_rel_props { filter with condition := .Only c } rest
    | .Confidence =>
      let c ← parse_confidence entry.value entry.key.span
      apply_rel_props { filter with min_confidence := c } rest
    | .Kind =>
      throw (.plan entry.key.span ("inline relationship `kind` property is not supported; use the " ++
        "`:TYPE` syntax instead"))

/-- The edge filter of a relationship and whether its arrow is inverted. A bare
relationship follows the call family. -/
def rel_filter (rel : RelPat) : Except CqlError (EdgeFilter × Bool) := do
  let (kinds, invert) ← if rel.types.isEmpty then pure ([], false) else rel_kinds_multi rel.types
  let filter := if kinds.isEmpty then EdgeFilter.calls else { EdgeFilter.calls with kinds := some kinds }
  return (← apply_rel_props filter rel.props, invert)

def rel_cardinality (rel : RelPat) : Cardinality :=
  match rel.var_len with
  | none => .SingleHop
  | some len => .VarLength (len.min.getD 1) len.max

/-- Lower one relationship, anchoring on the more selective end; ties favour the
written start. -/
def lower_single (path_var : Option String) (start : NodePat) (rel : RelPat) (finish : NodePat) :
    Except CqlError PatternPlan := do
  let (start_props, start_kinds) ← node_constraints start
  let (end_props, end_kinds) ← node_constraints finish
  let (filter, invert) ← rel_filter rel
  let direction := walk_direction rel.direction invert
  if selectivity end_props end_kinds ≤ selectivity start_props start_kinds then
    return {
      path_var := path_var
      anchor_bound_var := none
      anchor_var := start.var
      peer_var := finish.var
      rel_var := rel.var
      anchor := anchor_set start_props start_kinds
      direction := direction
      filter := filter
      cardinality := rel_cardinality rel
      peer_kinds := end_kinds
      peer_props := end_props }
  else
    return {
      path_var := path_var
      anchor_bound_var := none
      anchor_var := finish.var
      peer_var := start.var
      rel_var := rel.var
      anchor := anchor_set end_props end_kinds
      direction := direction.reverse
      filter := filter
      cardinality := rel_cardinality rel
      peer_kinds := start_kinds
      peer_props := start_props }

/-- Lower one step of a chain, anchored on its written start. -/
def lower_chained_step (start : NodePat) (rel : RelPat) (finish : NodePat) :
    Except CqlError PatternPlan := do
  let (start_props, start_kinds) ← node_constraints start
  let (end_props, end_kinds) ← node_constraints finish
  let (filter, invert) ← rel_filter rel
  return {
    path_var := none
    anchor_bound_var := none
    anchor_var := start.var
    peer_var := finish.var
    rel_var := rel.var
    anchor := anchor_set start_props start_kinds
    direction := walk_direction rel.direction invert
    filter := filter
    cardinality := rel_cardinality rel
    peer_kinds := end_kinds
    peer_props := end_props }

/-- The steps of a chain from `prev_node` on. Each but the first anchors on the
variable of the node it starts from. -/
def lower_chain_from (prev_node : NodePat) (first : Bool) :
    List (RelPat × NodePat) → Except CqlError (List PatternPlan)
  | [] => .ok []
  | (rel, end_node) :: rest => do
    if !rest.isEmpty && end_node.var.isNone then
      throw (.plan ⟨0, 0⟩ ("interior nodes of a multi-relationship pattern must be named " ++
        "(they are the join keys, e.g. `(a)-[]->(b)-[]->(c)`)"))
    let plan ← lower_chained_step prev_node rel end_node
    let plan := if first then plan else { plan with anchor_bound_var := prev_node.var }
    let plans ← lower_chain_from end_node false rest
    return plan :: plans

/-- Lower a possibly chained pattern into the plans evaluated left to right. -/
def lower_pattern_chain (pat : PathPattern) : Except CqlError (List PatternPlan) :=
  match pat.steps with
  | [] => .error (.plan ⟨0, 0⟩ "a MATCH pattern must contain at least one relationship")
  | [(rel, end_node)] => do return [← lower_single pat.path_var pat.start rel end_node]
  | steps =>
    if pat.path_var.isSome then
      .error (.plan ⟨0, 0⟩
        "a `path =` binding over a multi-relationship pattern is not yet supported")
    else lower_chain_from pat.start true steps

/-- Lower a pattern in a position that accepts a single relationship only. -/
def lower_pattern (pat : PathPattern) : Except CqlError PatternPlan :=
  match pat.steps with
  | [(rel, end_node)] => lower_single pat.path_var pat.start rel end_node
  | _ => .error (.plan ⟨0, 0⟩ "this position accepts only a single-relationship pattern")

end cgx.cql
