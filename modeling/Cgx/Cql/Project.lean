import Mathlib.Data.List.Destutter
import Cgx.Cql.Joins
import Cgx.Lib.SortBy

open cgx.core cgx.query sorting

namespace cgx.cql

/-- A projected row. -/
abbrev Row := List Value

/-- The result of a query. The paths are those of a single whole-path column. -/
structure ResultTable where
  columns : List String
  rows : List Row
  paths : List PathValue
  truncation : Option TruncationReason

/-- The aggregate a function name stands for. -/
def aggregate_name (name : String) : Option String :=
  if name = "collect" then some "collect"
  else if name = "count" then some "count"
  else if name = "MIN" ∨ name = "min" then some "min"
  else if name = "MAX" ∨ name = "max" then some "max"
  else none

/-- Aggregates do not nest, so the outermost call decides. -/
def is_aggregate_expr : Expr → Bool
  | .FunctionCall name _ => (aggregate_name name.value).isSome
  | _ => false

/-- The star of `count(*)`, a bare property. -/
def is_star_arg : Expr → Bool
  | .Property head [] => head.value = "*"
  | _ => false

/-- A bare variable, which may name a path. -/
def is_path_return (item : ReturnItem) : Bool :=
  match item.expr with
  | .Property _ [] => true
  | _ => false

section rendering

/-! How a float prints is a parameter: only column names depend on it. -/

variable (float_text : Float → String)

def render_property (head : Spanned String) (segments : List (Spanned String)) : String :=
  segments.foldl (fun s seg => s ++ "." ++ seg.value) head.value

mutual

/-- The text of an expression, the default column name. -/
def render_expr : Expr → String
  | .Property head segments => render_property head segments
  | .FunctionCall name args => name.value ++ "(" ++ ", ".intercalate (render_args args) ++ ")"
  | .Literal (.Str s) => "\"" ++ s ++ "\""
  | .Literal (.Int i) => toString i
  | .Literal (.Float f) => float_text f
  | .Literal (.Bool b) => if b then "true" else "false"
  | .Literal .Null => "null"
  | _ => "<expr>"

def render_args : List Expr → List String
  | [] => []
  | arg :: rest => render_expr arg :: render_args rest

end

/-- The column of an item: its alias, else its text. -/
def column_name (item : ReturnItem) : String :=
  item.alias_name.getD (render_expr float_text item.expr)

end rendering

/-- The smallest node id bound to any variable. -/
def representative_node (b : Binding) : Option NodeId :=
  (b.vars.filterMap fun entry => match entry.2 with
    | .Node id => some id.raw
    | _ => none).min?.map NodeId.mk

/-- Representative nodes first, in ascending order; the row breaks ties. -/
def default_cmp (a b : (Option NodeId × Row) × Binding) : Ordering :=
  match a.1.1, b.1.1 with
  | some x, some y => (compare x.raw y.raw).then (cmp_list a.1.2 b.1.2)
  | some _, none => .lt
  | none, some _ => .gt
  | none, none => cmp_list a.1.2 b.1.2

/-- Drop each row that is the same as the one kept before it. -/
def dedup_rows (rows : List Row) : List Row :=
  rows.destutter fun kept next => same_values next kept = false

/-- The `DISTINCT` step: sort, then drop repeated rows. -/
def distinct_rows (rows : List Row) : List Row :=
  dedup_rows (sort_by cmp_list rows)

/-- The whole paths of the first column. -/
def row_paths (rows : List Row) : List PathValue :=
  rows.filterMap fun row => match row with
    | .Path p :: _ => some p
    | _ => none

/-- The order of confidence tokens. -/
def confidence_rank (s : String) : Option Nat :=
  if s = "possible" then some 0
  else if s = "probable" then some 1
  else if s = "certain" then some 2
  else none

/-- The order of `MIN` and `MAX`: confidence tokens by rank, else the order of values. -/
def aggregate_value_cmp : Value → Value → Ordering
  | .Str x, .Str y =>
    match confidence_rank x, confidence_rank y with
    | some rx, some ry => compare rx ry
    | _, _ => compare_values (.Str x) (.Str y)
  | a, b => compare_values a b

/-- The first of the least elements. -/
def min_by (cmp : Value → Value → Ordering) : List Value → Option Value
  | [] => none
  | x :: rest => some (rest.foldl (fun best y => if cmp best y = .gt then y else best) x)

/-- The last of the greatest elements. -/
def max_by (cmp : Value → Value → Ordering) : List Value → Option Value
  | [] => none
  | x :: rest => some (rest.foldl (fun best y => if cmp best y = .gt then best else y) x)

def is_null : Value → Bool
  | .Null => true
  | _ => false

/-- The elements a binding gives to `MIN` or `MAX`: a list's, or the value itself. -/
def elements_of : Value → List Value
  | .List items => items.filter fun v => !is_null v
  | .Null => []
  | scalar => [scalar]

/-- Put a binding with its key to the group that has the key, or to a new one. -/
def add_to_group (groups : List (Row × List Binding)) (keyed : Row × Binding) :
    List (Row × List Binding) :=
  match groups with
  | [] => [(keyed.1, [keyed.2])]
  | group :: rest =>
    if same_values group.1 keyed.1 then (group.1, group.2 ++ [keyed.2]) :: rest
    else group :: add_to_group rest keyed

section project

variable (engine : SelectorEngine) (view : GraphView) (float_text : Float → String)

/-- The row of a binding. -/
def eval_row (items : List ReturnItem) (b : Binding) : Except CqlError Row :=
  items.mapM fun item => eval_expr engine view item.expr b

/-- Sort bindings by representative node. -/
def sort_bindings_default (ret : ReturnClause) (bindings : List Binding) :
    Except CqlError (List Binding) := do
  let keyed ← bindings.mapM fun b => do
    return ((representative_node b, ← eval_row engine view ret.items b), b)
  return (sort_by default_cmp keyed).map Prod.snd

def arity (name : Spanned String) (args : List Expr) (n : Nat) : Except CqlError Unit :=
  if args.length ≠ n then
    .error (.eval name.span (name.value ++ ": expected " ++ toString n ++ " argument(s), got " ++
      toString args.length))
  else .ok ()

/-- Fold one aggregate call over the bindings of a group. -/
def eval_aggregate (name : Spanned String) (args : List Expr) (group : List Binding) :
    Except CqlError Value :=
  let arg_values := group.mapM fun b => eval_expr engine view (args.headD (.Literal .Null)) b
  match aggregate_name name.value with
  | some "count" =>
    if args.head?.all is_star_arg then .ok (.Int group.length)
    else do
      arity name args 1
      return .Int ((← arg_values).countP fun v => !is_null v)
  | some "collect" => do
    arity name args 1
    let ordered := sort_by (compareOn fun b => (representative_node b).map NodeId.raw) group
    let values ← ordered.mapM fun b => eval_expr engine view (args.headD (.Literal .Null)) b
    return .List (values.filter fun v => !is_null v)
  | some extreme => do
    arity name args 1
    let elems := (← arg_values).flatMap elements_of
    return ((if extreme = "min" then min_by aggregate_value_cmp elems
      else max_by aggregate_value_cmp elems)).getD .Null
  | none => .ok .Null

/-- An output value of a group: an aggregate, or a key read from its first binding. -/
def eval_grouped_item (group : List Binding) (item : ReturnItem) : Except CqlError Value :=
  match item.expr with
  | .FunctionCall name args =>
    if (aggregate_name name.value).isSome then eval_aggregate engine view name args group
    else eval_expr engine view item.expr (group.headD .empty)
  | _ => eval_expr engine view item.expr (group.headD .empty)

/-- The name an `ORDER BY` expression is looked up by. -/
def order_expr_name : Expr → String :=
  render_expr float_text

/-- An `ORDER BY` expression names a column by its alias or by its text. -/
def eval_order_key (ret : ReturnClause) (expr : Expr) (row : Row) : Except CqlError Value :=
  let target := order_expr_name float_text expr
  match (ret.items.zip row).find? fun entry =>
      column_name float_text entry.1 = target ∨ render_expr float_text entry.1.expr = target with
  | some entry => .ok entry.2
  | none => .error (.plan ⟨0, 0⟩ ("ORDER BY `" ++ target ++ "` must reference a RETURN column"))

/-- The keys in turn, each possibly descending, then the row. -/
def order_cmp (keys : List OrderBy) (a b : Row × Row) : Ordering :=
  ((((a.1.zip b.1).zip keys).map fun entry =>
      if entry.2.descending then (compare_values entry.1.1 entry.1.2).swap
      else compare_values entry.1.1 entry.1.2).foldr Ordering.then .eq).then (cmp_list a.2 b.2)

/-- Sort rows by the `ORDER BY` keys. -/
def sort_rows (ret : ReturnClause) (rows : List Row) : Except CqlError (List Row) := do
  let keyed ← rows.mapM fun row => do
    return (← ret.order_by.mapM fun key => eval_order_key float_text ret key.expr row, row)
  return (sort_by (order_cmp ret.order_by) keyed).map Prod.snd

/-- The first rows, up to the limit. -/
def limit_rows {α : Type} (limit : Option Nat) (rows : List α) : List α :=
  match limit with
  | some n => rows.take n
  | none => rows

/-- The groups of a stream, by the values of the items that are no aggregates, in the
order they are first seen. Without a key there is always a group. -/
def group_bindings (ret : ReturnClause) (bindings : List Binding) :
    Except CqlError (List (Row × List Binding)) := do
  let keys := ret.items.filter fun item => !is_aggregate_expr item.expr
  let keyed ← bindings.mapM fun b => do return (← eval_row engine view keys b, b)
  let groups := keyed.foldl add_to_group []
  return if keys.isEmpty && groups.isEmpty then [([], [])] else groups

/-- Project with implicit grouping: one row a group. -/
def project_grouped (ret : ReturnClause) (columns : List String) (bindings : List Binding)
    (truncation : Option TruncationReason) : Except CqlError ResultTable := do
  let groups ← group_bindings engine view ret bindings
  let rows ← groups.mapM fun group => ret.items.mapM (eval_grouped_item engine view group.2)
  let rows := if ret.distinct then distinct_rows rows else rows
  let rows ← (if ret.order_by.isEmpty then pure (sort_by cmp_list rows)
    else sort_rows float_text ret rows)
  return ⟨columns, limit_rows ret.limit rows, [], truncation⟩

/-- Project the surviving bindings into a table. -/
def project (ret : ReturnClause) (bindings : List Binding) (truncation : Option TruncationReason) :
    Except CqlError ResultTable := do
  let columns := ret.items.map (column_name float_text)
  if ret.items.any fun item => is_aggregate_expr item.expr then
    project_grouped engine view float_text ret columns bindings truncation
  else
    let single_path_col := ret.items.length = 1 ∧ ret.items.all is_path_return
    let bindings ← (if ret.order_by.isEmpty then sort_bindings_default engine view ret bindings
      else pure bindings)
    let rows ← bindings.mapM (eval_row engine view ret.items)
    let rows := if ret.distinct then distinct_rows rows else rows
    let rows ← (if ret.order_by.isEmpty then pure rows else sort_rows float_text ret rows)
    let paths := if single_path_col then row_paths rows else []
    return ⟨columns, limit_rows ret.limit rows, limit_rows ret.limit paths, truncation⟩

/-- Project a `WITH`: only its columns survive. Its table carries no truncation. -/
def project_with (carry : WithClause) (bindings : List Binding) : Except CqlError (List Binding) := do
  let table ← project engine view float_text
    ⟨carry.distinct, carry.items, carry.order_by, carry.limit⟩ bindings none
  let carried := table.rows.map fun row =>
    (table.columns.zip row).foldl (fun b entry => b.insert entry.1 entry.2) Binding.empty
  filter_where engine view carry.where_clause carried

/-- Evaluate the parts in turn on what the part before carries. -/
def eval_parts : List QueryPart → List Binding → Option TruncationReason → Except CqlError ResultTable
  | [], _, _ => .error (.plan ⟨0, 0⟩ "query must end with a RETURN clause")
  | part :: rest, carried, truncation => do
    let (bindings, truncation) ← eval_reading engine view part carried truncation
    match part.carry, part.ret with
    | some carry, _ => eval_parts rest (← project_with engine view float_text carry bindings) truncation
    | none, some ret => project engine view float_text ret bindings truncation
    | none, none => throw (.plan ⟨0, 0⟩ "query part must end with WITH or RETURN")

/-- Evaluate a query. -/
def eval (query : Query) : Except CqlError ResultTable :=
  eval_parts engine view float_text query.parts [.empty] none

end project

end cgx.cql
