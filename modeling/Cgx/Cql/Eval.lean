import Cgx.Cql.Expand

open cgx.core cgx.query sorting

namespace cgx.cql

/-- The node-selector engine: it compiles a selector string, or reports why it cannot,
to a test of a node under the agnostic flag. -/
abbrev SelectorEngine := String → Except String (Bool → NodeRecord → Bool)

def edge_kind_token : EdgeKind → String
  | .Calls => "calls"
  | .CallsVirtual => "calls-virtual"
  | .CallsClosure => "calls-closure"
  | .CallsCallback => "calls-callback"
  | .CallsAsync => "calls-async"
  | .CallsIndirect => "calls-indirect"
  | .Spawns => "spawns"
  | .Contains => "contains"
  | .Imports => "imports"
  | .DerivesFrom => "derives-from"
  | .Overrides => "overrides"
  | .Implements => "implements"
  | .Inherits => "inherits"
  | .References => "references"
  | .Instantiates => "instantiates"
  | .Throws => "throws"
  | .Catches => "catches"
  | .ReadsField => "reads-field"
  | .WritesField => "writes-field"

/-- Read an edge field as a value. -/
def edge_field_value (edge : EdgeRecord) : EdgeField → Value
  | .Condition => .Str (condition_token edge.condition)
  | .Confidence => .Str (confidence_token edge.confidence)
  | .Kind => .Str (edge_kind_token edge.kind)

/-- Evaluate a property access against the binding. -/
def eval_property (view : GraphView) (head : Spanned String) (segments : List (Spanned String))
    (b : Binding) : Except CqlError Value :=
  match segments with
  | [] => .ok ((b.get head.value).getD .Null)
  | [prop] =>
    match b.get head.value with
    | some (.Node id) => do
      let field ← NodeField.from_name prop.value prop.span
      match view.try_node id with
      | some node => return node_field_value node field
      | none => throw (.eval prop.span "dangling node id")
    | some (.Edge id) => do
      let field ← EdgeField.from_name prop.value prop.span
      match view.edges[id.index]? with
      | some edge => return edge_field_value edge field
      | none => throw (.eval prop.span "dangling edge id")
    | some .Null | none => .ok .Null
    | some other =>
      .error (.eval head.span ("cannot access property `" ++ prop.value ++ "` on a " ++
        value_type_name other ++ " value"))
  | _ :: second :: _ =>
    .error (.plan second.span "nested property access is not supported (e.g. `n.in_degree.calls`)")

/-- The comparison operators; a null on either side makes them false. -/
def compare_with (op : BinOp) (l r : Value) : Bool :=
  match l, r with
  | .Null, _ | _, .Null => false
  | l, r =>
    match op with
    | .Eq => values_equal l r
    | .Ne => !values_equal l r
    | .Lt => compare_values l r = .lt
    | .Le => compare_values l r ≠ .gt
    | .Gt => compare_values l r = .gt
    | .Ge => compare_values l r ≠ .lt
    | .And | .Or | .In => false

/-- Apply a binary operator; both sides are always evaluated first. -/
def eval_binary (op : BinOp) (l r : Value) : Except CqlError Value :=
  match op with
  | .And => .ok (.Bool (is_truthy l && is_truthy r))
  | .Or => .ok (.Bool (is_truthy l || is_truthy r))
  | .In =>
    match r with
    | .List items => .ok (.Bool (items.any fun x => values_equal x l))
    | .Null => .ok (.Bool false)
    | _ => .error (.eval ⟨0, 0⟩ "right-hand side of IN must be a list")
  | op => .ok (.Bool (compare_with op l r))

def expect_list : Value → Except CqlError (List Value)
  | .List items => .ok items
  | .Null => .ok []
  | _ => .error (.eval ⟨0, 0⟩ "expected a list (e.g. from `nodes(p)` / `relationships(p)`)")

/-- The results of a function's arguments. They are evaluated when the function asks for
them; evaluation has no effect but its result. -/
abbrev Args := List (Except CqlError Value)

def expect_path (v : Value) (name : Spanned String) : Except CqlError PathValue :=
  match v with
  | .Path p => .ok p
  | other => .error (.eval name.span (name.value ++ ": argument must be a path, got a " ++
      value_type_name other ++ " value"))

/-- The path of a single-argument path function. -/
def expect_path_arg (fname : String) : Args → Except CqlError PathValue
  | [arg] => do
    match ← arg with
    | .Path p => return p
    | other => throw (.eval ⟨0, 0⟩ (fname ++ ": argument must be a path, got a " ++
        value_type_name other ++ " value"))
  | _ => .error (.eval ⟨0, 0⟩ (fname ++ ": expected exactly one argument"))

def arity_error (name : Spanned String) (args : Args) (n : Nat) : CqlError :=
  .eval name.span (name.value ++ ": expected " ++ toString n ++ " argument(s), got " ++
    toString args.length)

/-- Find the position of a node in a path. -/
def eval_position_in (name : Spanned String) (args : Args) : Except CqlError Value :=
  match args with
  | [needle, path] => do
    let needle ← needle
    let p ← expect_path (← path) name
    match needle with
    | .Node id => return ((p.nodes.idxOf? id).map fun i => Value.Int i).getD .Null
    | _ => throw (.eval name.span "position_in: first argument must be a node")
  | _ => .error (arity_error name args 2)

def eval_size (name : Spanned String) (args : Args) : Except CqlError Value :=
  match args with
  | [arg] => do
    match ← arg with
    | .List items => return .Int items.length
    | .Null => return .Null
    | _ => throw (.eval name.span "size: argument must be a list")
  | _ => .error (arity_error name args 1)

/-- The agnostic flag of `select`. -/
def select_flag (name : Spanned String) : Option (Except CqlError Value) → Except CqlError Bool
  | none => .ok false
  | some arg => do
    match ← arg with
    | .Bool flag => return flag
    | other => throw (.eval name.span ("select: third argument (agnostic) must be a boolean, got a " ++
        value_type_name other ++ " value"))

/-- The `select(node, "<selector>" [, agnostic])` predicate. -/
def eval_select (engine : SelectorEngine) (view : GraphView) (name : Spanned String) (args : Args) :
    Except CqlError Value :=
  match args with
  | node :: selector :: rest =>
    if 1 < rest.length then .error (count_error args)
    else do
      match ← node with
      | .Node id =>
        let source ← match ← selector with
          | .Str s => pure s
          | other => throw (.eval name.span ("select: second argument must be a selector string, got a " ++
              value_type_name other ++ " value"))
        let agnostic ← select_flag name rest.head?
        let matcher ← match engine source with
          | .ok matcher => pure matcher
          | .error e => throw (.eval name.span ("select: " ++ e))
        match view.try_node id with
        | some record => return .Bool (matcher agnostic record)
        | none => throw (.eval name.span "select: dangling node id")
      | .Null => return .Bool false
      | other => throw (.eval name.span ("select: first argument must be a node, got a " ++
          value_type_name other ++ " value"))
  | args => .error (count_error args)
where
  count_error (args : Args) : CqlError :=
    .eval name.span ("select: expected 2 or 3 arguments (node, \"<selector>\" [, agnostic]), got " ++
      toString args.length)

/-- Evaluate a function call on the results of its arguments. -/
def eval_function (engine : SelectorEngine) (view : GraphView) (name : Spanned String) (args : Args) :
    Except CqlError Value :=
  if name.value = "nodes" then do
    return .List ((← expect_path_arg name.value args).nodes.map Value.Node)
  else if name.value = "relationships" then do
    return .List ((← expect_path_arg name.value args).edges.map Value.Edge)
  else if name.value = "length" then do
    return .Int (← expect_path_arg name.value args).edges.length
  else if name.value = "last_node" then do
    return ((← expect_path_arg name.value args).nodes.getLast?.map Value.Node).getD .Null
  else if name.value = "position_in" then eval_position_in name args
  else if name.value = "size" then eval_size name args
  else if name.value = "select" then eval_select engine view name args
  else .error (.plan name.span ("function `" ++ name.value ++ "` is not supported in this release"))

/-- Whether an admitted edge or walk leads from the anchor to a matching peer. -/
def anchor_matches (view : GraphView) (plan : PatternPlan) (anchor : NodeId) : Bool :=
  match plan.cardinality with
  | .SingleHop => (view.neighbors anchor plan.direction plan.filter).any fun er =>
      peer_matches view plan er.peer
  | .VarLength min max => ((var_walker plan max).bfs view anchor plan.direction).any fun d =>
      min.toNat ≤ d.depth && peer_matches view plan d.node

/-- Evaluate a bare pattern predicate. The anchor variable is looked up in the binding
first. -/
def pattern_exists (view : GraphView) (pattern : PathPattern) (b : Binding) : Except CqlError Bool := do
  let plan ← lower_pattern pattern
  let anchors := match plan.anchor_var.bind b.node with
    | some id => [id]
    | none => anchor_ids view plan.anchor
  return anchors.any (anchor_matches view plan)

/-- Filter a list by a predicate over the local variable and map what is left. -/
def eval_list_comp (var : String) (b : Binding) (keep : Binding → Except CqlError Bool)
    (project : Binding → Except CqlError Value) : List Value → Except CqlError (List Value)
  | [] => .ok []
  | item :: rest => do
    let local_scope := b.insert var item
    if ← keep local_scope then
      let value ← project local_scope
      return value :: (← eval_list_comp var b keep project rest)
    else eval_list_comp var b keep project rest

/-- The truth of a predicate at each element, in order. -/
def eval_each (var : String) (b : Binding) (holds : Binding → Except CqlError Value) :
    List Value → Except CqlError (List Bool)
  | [] => .ok []
  | item :: rest => do
    let value ← holds (b.insert var item)
    return is_truthy value :: (← eval_each var b holds rest)

def quantify (kind : QuantifierKind) (truths : List Bool) : Bool :=
  match kind with
  | .None => !truths.any id
  | .Any => truths.any id
  | .All => truths.all id

section eval_expr

variable (engine : SelectorEngine) (view : GraphView)

mutual

/-- Evaluate an expression in `WHERE` or `RETURN` position. -/
def eval_expr (expr : Expr) (b : Binding) : Except CqlError Value :=
  match expr with
  | .Literal v => .ok v
  | .Property head segments => eval_property view head segments b
  | .Not inner => do return .Bool (!is_truthy (← eval_expr inner b))
  | .Binary op lhs rhs _ => do
    let l ← eval_expr lhs b
    let r ← eval_expr rhs b
    eval_binary op l r
  | .PatternPredicate negated pattern => do
    let found ← pattern_exists view pattern b
    return .Bool (if negated then !found else found)
  | .FunctionCall name args => eval_function engine view name (eval_args args b)
  | .ListComp var list filter projection => do
    let items ← expect_list (← eval_expr list b)
    return .List (← eval_list_comp var b (eval_filter filter) (eval_expr projection) items)
  | .Quantifier kind var list predicate => do
    let items ← expect_list (← eval_expr list b)
    return .Bool (quantify kind (← eval_each var b (eval_expr predicate) items))

def eval_args (args : List Expr) (b : Binding) : Args :=
  match args with
  | [] => []
  | arg :: rest => eval_expr arg b :: eval_args rest b

def eval_filter (filter : Option Expr) (b : Binding) : Except CqlError Bool :=
  match filter with
  | none => .ok true
  | some f => do return is_truthy (← eval_expr f b)

end

/-- Evaluate an expression as a predicate: null is false. -/
def eval_predicate (expr : Expr) (b : Binding) : Except CqlError Bool := do
  return is_truthy (← eval_expr engine view expr b)

end eval_expr

/-- A resolved procedure: the direction it walks and the column that carries the reached
symbol. Every procedure also yields a `confidence` column. -/
structure ProcPlan where
  direction : Direction
  symbol_column : String

def ProcPlan.produces (plan : ProcPlan) (col : String) : Bool :=
  col = plan.symbol_column || col = "confidence"

/-- Resolve a procedure name, rejecting unknown procedures. -/
def resolve_proc (call : CallClause) : Except CqlError ProcPlan :=
  if call.proc.value = "cgx.mutation_fanout" then .ok ⟨.Forward, "mutator"⟩
  else if call.proc.value = "cgx.pedigree" then .ok ⟨.Backward, "source"⟩
  else .error (.plan call.proc.span ("unknown procedure `" ++ call.proc.value ++
    "` (known: `cgx.mutation_fanout`, `cgx.pedigree`)"))

/-- The first requested column the procedure does not produce is an error. -/
def validate_yields (call : CallClause) (plan : ProcPlan) : List YieldItem → Except CqlError Unit
  | [] => .ok ()
  | y :: rest =>
    if plan.produces y.name.value then validate_yields call plan rest
    else .error (.plan y.name.span ("procedure `" ++ call.proc.value ++ "` does not yield column `" ++
      y.name.value ++ "`; it yields `" ++ plan.symbol_column ++ "` and `confidence` " ++
      "(the `effect`/`transform`/`evidence` columns are not populated by the " ++
      "current frontend and are deferred)"))

def validate_call (call : CallClause) : Except CqlError Unit := do
  validate_yields call (← resolve_proc call) call.yields

/-- The name a column is bound to: its alias, else its own. -/
def YieldItem.key (y : YieldItem) : String :=
  y.alias_name.getD y.name.value

/-- Bind the requested columns of one reached row. -/
def bind_yields (b : Binding) (call : CallClause) (plan : ProcPlan) (fqn conf : String) : Binding :=
  call.yields.foldl (fun b y =>
    b.insert y.key (.Str (if y.name.value = plan.symbol_column then fqn else conf))) b

section eval_call

variable (engine : SelectorEngine) (view : GraphView)

/-- The procedure's single argument, a symbol name. -/
def resolve_arg (call : CallClause) (b : Binding) : Except CqlError String :=
  match call.args with
  | [arg] => do
    match ← eval_expr engine view arg b with
    | .Str s => return s
    | other => throw (.eval call.proc.span ("procedure `" ++ call.proc.value ++
        "` argument must be a string symbol name, got a " ++ value_type_name other ++ " value"))
  | _ => .error (.plan call.proc.span ("procedure `" ++ call.proc.value ++
      "` takes exactly one argument (the anchor symbol)"))

/-- The walker of a procedure: dataflow edges to the default depth. -/
def proc_walker : PathWalker :=
  ⟨{ EdgeFilter.calls with kinds := some [.DerivesFrom] }, some DEFAULT_VAR_LENGTH_DEPTH, none, none⟩

/-- The rows reached from every anchor the name resolves to, by node and edge id. -/
def proc_rows (plan : ProcPlan) (anchor_name : String) : List (NodeId × EdgeId × String) :=
  sort_by (compareLex (compareOn fun row => row.1.raw) (compareOn fun row => row.2.1.raw))
    ((view.resolve_symbol (name_pattern anchor_name)).flatMap fun anchor =>
      (proc_walker.bfs view anchor plan.direction).map fun d =>
        (d.node, d.via.id, confidence_token d.via.confidence))

/-- Whether an optional `WHERE` clause admits a binding. -/
def admits_where (where_clause : Option Expr) (b : Binding) : Except CqlError Bool :=
  match where_clause with
  | some filter => eval_predicate engine view filter b
  | none => .ok true

/-- Keep the bindings a `WHERE` clause admits. -/
def filter_where (where_clause : Option Expr) : List Binding → Except CqlError (List Binding)
  | [] => .ok []
  | b :: rest => do
    let kept ← admits_where engine view where_clause b
    let more ← filter_where where_clause rest
    return if kept then b :: more else more

/-- The rows of each incoming binding in turn. -/
def call_from (call : CallClause) (plan : ProcPlan) : List Binding → Except CqlError (List Binding)
  | [] => .ok []
  | base :: rest => do
    let anchor_name ← resolve_arg engine view call base
    let rows := (proc_rows view plan anchor_name).filterMap fun row =>
      (view.try_node row.1).map fun node => bind_yields base call plan node.fqn row.2.2
    let kept ← filter_where engine view call.where_clause rows
    return kept ++ (← call_from call plan rest)

/-- Evaluate one `CALL … YIELD … [WHERE]` against the input stream. -/
def eval_call (call : CallClause) (input : List Binding) : Except CqlError (List Binding) := do
  let plan ← resolve_proc call
  validate_call call
  call_from engine view call plan input

end eval_call

end cgx.cql
