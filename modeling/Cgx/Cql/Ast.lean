import Cgx.Core.Node

open cgx.core

namespace cgx.cql

/-- A concrete path binding: the nodes in traversal order and the edge of each hop. -/
structure PathValue where
  nodes : List NodeId
  edges : List EdgeId
deriving DecidableEq, Inhabited

/-- A value produced during evaluation. -/
inductive Value where
  | Null
  | Bool (b : Bool)
  | Int (i : Int)
  | Float (f : Float)
  | Str (s : String)
  | List (items : List Value)
  | Node (id : NodeId)
  | Edge (id : EdgeId)
  | Path (path : PathValue)
deriving Inhabited

def type_rank : Value → Nat
  | .Null => 0
  | .Bool _ => 1
  | .Int _ => 2
  | .Float _ => 3
  | .Str _ => 4
  | .List _ => 5
  | .Node _ => 6
  | .Edge _ => 7
  | .Path _ => 8

/-- Everything but `Null` and `false` is truthy. -/
def is_truthy : Value → Bool
  | .Null => false
  | .Bool b => b
  | _ => true

/-- A total order over floats that places NaN last and treats `-0.0` as `0.0`. -/
def total_f64 (a b : Float) : Ordering :=
  if a < b then .lt
  else if a == b then .eq
  else if b < a then .gt
  else match a.isNaN, b.isNaN with
    | true, true => .eq
    | true, false => .gt
    | _, _ => .lt

def cmp_path (x y : PathValue) : Ordering :=
  (compare (x.nodes.map fun n => n.index) (y.nodes.map fun n => n.index)).then
    (compare (x.edges.map fun e => e.index) (y.edges.map fun e => e.index))

mutual

/-- The cross-type comparison rule: integers and floats compare numerically, other
distinct types by rank. -/
def compare_values : Value → Value → Ordering
  | .Int x, .Int y => compare x y
  | .Float x, .Float y => total_f64 x y
  | .Int x, .Float y => total_f64 (Float.ofInt x) y
  | .Float x, .Int y => total_f64 x (Float.ofInt y)
  | .Bool x, .Bool y => compare x y
  | .Str x, .Str y => compare x y
  | .List x, .List y => cmp_list x y
  | .Node x, .Node y => compare x.raw y.raw
  | .Edge x, .Edge y => compare x.raw y.raw
  | .Path x, .Path y => cmp_path x y
  | .Null, .Null => .eq
  | a, b => compare (type_rank a) (type_rank b)

def cmp_list : List Value → List Value → Ordering
  | [], [] => .eq
  | [], _ :: _ => .lt
  | _ :: _, [] => .gt
  | x :: xs, y :: ys => (compare_values x y).then (cmp_list xs ys)

end

mutual

/-- Same variant and same value. -/
def same_value : Value → Value → Bool
  | .Null, .Null => true
  | .Bool x, .Bool y => x == y
  | .Int x, .Int y => x == y
  | .Float x, .Float y => x == y
  | .Str x, .Str y => x == y
  | .List x, .List y => same_values x y
  | .Node x, .Node y => x == y
  | .Edge x, .Edge y => x == y
  | .Path x, .Path y => x == y
  | _, _ => false

def same_values : List Value → List Value → Bool
  | [], [] => true
  | x :: xs, y :: ys => same_value x y && same_values xs ys
  | _, _ => false

end

/-- The equality of `=`, `IN` and property constraints: integers and floats compare
numerically, otherwise same variant and same value. -/
def values_equal : Value → Value → Bool
  | .Int x, .Float y => Float.ofInt x == y
  | .Float y, .Int x => Float.ofInt x == y
  | a, b => same_value a b

/-- The type name error messages use. -/
def value_type_name : Value → String
  | .Null => "null"
  | .Bool _ => "bool"
  | .Int _ => "int"
  | .Float _ => "float"
  | .Str _ => "string"
  | .List _ => "list"
  | .Node _ => "node"
  | .Edge _ => "edge"
  | .Path _ => "path"

/-- A byte range of the query text. -/
structure Span where
  start : Nat
  stop : Nat
deriving DecidableEq, Inhabited

/-- The phase that produced an error. -/
inductive ErrorKind where
  | Parse
  | Plan
  | Eval
deriving DecidableEq

/-- A query error: the span it points at, its phase and a message. -/
structure CqlError where
  span : Span
  kind : ErrorKind
  message : String
deriving DecidableEq

def CqlError.plan (span : Span) (message : String) : CqlError :=
  ⟨span, .Plan, message⟩

def CqlError.eval (span : Span) (message : String) : CqlError :=
  ⟨span, .Eval, message⟩

/-- A value paired with its source span. -/
structure Spanned (α : Type) where
  value : α
  span : Span

/-- Arrow direction as written. -/
inductive Arrow where
  | Forward
  | Backward
deriving DecidableEq, Inhabited

/-- Variable-length bounds. -/
structure VarLen where
  min : Option UInt32
  max : Option UInt32
deriving DecidableEq

/-- One `key: literal` entry of a property map. -/
structure PropEntry where
  key : Spanned String
  value : Value

/-- A node pattern `(var:label {props})`. -/
structure NodePat where
  var : Option String
  label : Option (Spanned String)
  props : List PropEntry

/-- A relationship pattern `-[var:TYPE*min..max {props}]->`. -/
structure RelPat where
  var : Option String
  direction : Arrow
  types : List (Spanned String)
  var_len : Option VarLen
  props : List PropEntry

/-- A single comma-separated pattern, optionally bound to a path variable. -/
structure PathPattern where
  path_var : Option String
  start : NodePat
  steps : List (RelPat × NodePat)

inductive QuantifierKind where
  | None
  | Any
  | All
deriving DecidableEq

inductive BinOp where
  | Eq
  | Ne
  | Lt
  | Le
  | Gt
  | Ge
  | In
  | And
  | Or
deriving DecidableEq

/-- An expression node. -/
inductive Expr where
  | Literal (v : Value)
  | Property (head : Spanned String) (segments : List (Spanned String))
  | FunctionCall (name : Spanned String) (args : List Expr)
  | ListComp (var : String) (list : Expr) (filter : Option Expr) (projection : Expr)
  | Quantifier (kind : QuantifierKind) (var : String) (list predicate : Expr)
  | PatternPredicate (negated : Bool) (pattern : PathPattern)
  | Binary (op : BinOp) (lhs rhs : Expr) (span : Span)
  | Not (inner : Expr)

/-- One `MATCH` clause. -/
structure MatchClause where
  patterns : List PathPattern
  where_clause : Option Expr

structure YieldItem where
  name : Spanned String
  alias_name : Option String

/-- One `CALL … YIELD` clause. -/
structure CallClause where
  proc : Spanned String
  args : List Expr
  yields : List YieldItem
  where_clause : Option Expr

inductive ReadingClause where
  | Match (clause : MatchClause)
  | Call (clause : CallClause)

structure ReturnItem where
  expr : Expr
  alias_name : Option String

structure OrderBy where
  expr : Expr
  descending : Bool

structure ReturnClause where
  distinct : Bool
  items : List ReturnItem
  order_by : List OrderBy
  limit : Option Nat

/-- A `WITH` projection plus an optional filter of the carried rows. -/
structure WithClause where
  distinct : Bool
  items : List ReturnItem
  order_by : List OrderBy
  limit : Option Nat
  where_clause : Option Expr

/-- One pipeline stage: a run of reading clauses closed by a `WITH` or a `RETURN`. -/
structure QueryPart where
  reading : List ReadingClause
  ret : Option ReturnClause
  carry : Option WithClause

/-- A query: its parts, chained by `WITH`. -/
structure Query where
  parts : List QueryPart

end cgx.cql
