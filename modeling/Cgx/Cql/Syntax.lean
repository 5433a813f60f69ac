import Cgx.Cql.Parser

open parsing

namespace cgx.cql

/-! ### The grammar

Each rule relates a part of a query to the tokens it is written with. -/

/-- The token `f`. -/
def Token.Is (f : Fixed) (t : Token) : Prop := t.kind = .Fixed f

inductive IsName : Spanned String → List Token → Prop
  | intro {t : Token} {name : String} (ident : t.kind = .Ident name) : IsName ⟨name, t.span⟩ [t]

inductive IsIdent : String → List Token → Prop
  | intro {t : Token} {name : String} (ident : t.kind = .Ident name) : IsIdent name [t]

/-- Items with commas between them, or none, between brackets. -/
inductive Bracketed {α : Type} (opens closes : Fixed) (R : α → List Token → Prop) : List α → List Token → Prop
  | empty {o c : Token} (left : o.Is opens) (right : c.Is closes) : Bracketed opens closes R [] [o, c]
  | items {o c : Token} {as : List α} {u : List Token} (left : o.Is opens) (items : Separated (Token.Is .Comma) R as u)
    (right : c.Is closes) : Bracketed opens closes R as (o :: (u ++ [c]))

/-- A literal, or the further literals of a list. -/
inductive LiteralPhrase where
  | one (v : Value)
  | tail (vs : List Value)

inductive IsLiteral : LiteralPhrase → List Token → Prop
  | scalar {t : Token} {v : Value} (value : scalar t.kind = some v) : IsLiteral (.one v) [t]
  | empty {o c : Token} (left : o.Is .LBracket) (right : c.Is .RBracket) : IsLiteral (.one (.List [])) [o, c]
  | list {o c : Token} {v : Value} {vs : List Value} {u w : List Token} (left : o.Is .LBracket)
    (first : IsLiteral (.one v) u) (further : IsLiteral (.tail vs) w) (right : c.Is .RBracket) :
    IsLiteral (.one (.List (v :: vs))) (o :: (u ++ w ++ [c]))
  | done : IsLiteral (.tail []) []
  | more {t : Token} {v : Value} {vs : List Value} {u w : List Token} (comma : t.Is .Comma)
    (first : IsLiteral (.one v) u) (further : IsLiteral (.tail vs) w) : IsLiteral (.tail (v :: vs)) (t :: u ++ w)

inductive IsPropEntry : PropEntry → List Token → Prop
  | intro {key : Spanned String} {v : Value} {c : Token} {k u : List Token} (name : IsName key k) (colon : c.Is .Colon)
    (value : IsLiteral (.one v) u) : IsPropEntry ⟨key, v⟩ (k ++ c :: u)

/-- A property map, or none at all. -/
inductive IsProps : List PropEntry → List Token → Prop
  | none : IsProps [] []
  | map {props : List PropEntry} {u : List Token} (entries : Bracketed .LBrace .RBrace IsPropEntry props u) :
    IsProps props u

inductive IsNodePat : NodePat → List Token → Prop
  | intro {o c : Token} {var : Option String} {label : Option (Spanned String)} {props : List PropEntry}
    {u v w : List Token} (left : o.Is .LParen) (name : Opt IsIdent var u)
    (kind : Opt (After (Token.Is .Colon) IsName) label v) (fields : IsProps props w) (right : c.Is .RParen) :
    IsNodePat ⟨var, label, props⟩ (o :: (u ++ v ++ w ++ [c]))

/-- The types of a relationship, of which there may be none. -/
inductive IsRelTypes : List (Spanned String) → List Token → Prop
  | none : IsRelTypes [] []
  | some {c : Token} {types : List (Spanned String)} {u : List Token} (colon : c.Is .Colon)
    (names : Separated (Token.Is .Pipe) IsName types u) : IsRelTypes types (c :: u)

inductive IsBound : UInt32 → List Token → Prop
  | intro {t : Token} {n : Int} (int : t.kind = .Int n) (lower : 0 ≤ n) (upper : n < 2 ^ 32) :
    IsBound (UInt32.ofNat n.toNat) [t]

inductive IsVarLen : VarLen → List Token → Prop
  | exactly {s : Token} {bound : Option UInt32} {u : List Token} (star : s.Is .Star) (count : Opt IsBound bound u) :
    IsVarLen ⟨bound, bound⟩ (s :: u)
  | range {s d : Token} {min max : Option UInt32} {u v : List Token} (star : s.Is .Star) (lower : Opt IsBound min u)
    (dots : d.Is .DotDot) (upper : Opt IsBound max v) : IsVarLen ⟨min, max⟩ (s :: (u ++ d :: v))

inductive IsRelBody : RelBody → List Token → Prop
  | bare : IsRelBody ⟨none, [], none, []⟩ []
  | brackets {o c : Token} {var : Option String} {types : List (Spanned String)} {len : Option VarLen}
    {props : List PropEntry} {u v w x : List Token} (left : o.Is .LBracket) (name : Opt IsIdent var u)
    (kinds : IsRelTypes types v) (length : Opt IsVarLen len w) (fields : IsProps props x) (right : c.Is .RBracket) :
    IsRelBody ⟨var, types, len, props⟩ (o :: (u ++ v ++ w ++ x ++ [c]))

inductive IsRelPat : RelPat → List Token → Prop
  | forward {l r : Token} {body : RelBody} {u : List Token} (left : l.Is .Dash) (inner : IsRelBody body u)
    (right : r.Is .ArrowR) : IsRelPat ⟨body.var, .Forward, body.types, body.var_len, body.props⟩ (l :: (u ++ [r]))
  | backward {l r : Token} {body : RelBody} {u : List Token} (left : l.Is .ArrowL) (inner : IsRelBody body u)
    (right : r.Is .Dash) : IsRelPat ⟨body.var, .Backward, body.types, body.var_len, body.props⟩ (l :: (u ++ [r]))

inductive IsPathVar : String → List Token → Prop
  | intro {t e : Token} {name : String} (ident : t.kind = .Ident name) (eq : e.Is .Eq) : IsPathVar name [t, e]

inductive IsStep : RelPat × NodePat → List Token → Prop
  | intro {rel : RelPat} {node : NodePat} {u v : List Token} (relation : IsRelPat rel u) (target : IsNodePat node v) :
    IsStep (rel, node) (u ++ v)

inductive IsPath : PathPattern → List Token → Prop
  | intro {var : Option String} {start : NodePat} {steps : List (RelPat × NodePat)} {u v w : List Token}
    (name : Opt IsPathVar var u) (first : IsNodePat start v) (hops : Many IsStep steps w) :
    IsPath ⟨var, start, steps⟩ (u ++ v ++ w)

/-- A pattern that is an expression has a step and no name. -/
inductive IsPatternPredicate : PathPattern → List Token → Prop
  | intro {start : NodePat} {step : RelPat × NodePat} {steps : List (RelPat × NodePat)} {u v : List Token}
    (first : IsNodePat start u) (hops : Many IsStep (step :: steps) v) :
    IsPatternPredicate ⟨none, start, step :: steps⟩ (u ++ v)

/-- The binding strengths of expressions, the loosest first. -/
inductive Level where
  | or
  | and
  | not
  | comparison
  | primary

/-- The operators that chain. -/
inductive Connective where
  | or
  | and

def Connective.sign : Connective → Fixed
  | .or => .Or
  | .and => .And

def Connective.op : Connective → BinOp
  | .or => .Or
  | .and => .And

/-- The level of a chain. -/
def Connective.level : Connective → Level
  | .or => .or
  | .and => .and

/-- The level of the operands. -/
def Connective.operand : Connective → Level
  | .or => .and
  | .and => .not

/-- An expression of a level, the further arguments of a call, or the rest of an operator chain. -/
inductive Phrase where
  | expr (level : Level) (e : Expr)
  | args (es : List Expr)
  | chain (c : Connective) (lhs e : Expr)

inductive IsExpr : Phrase → List Token → Prop
  | or {first e : Expr} {u v : List Token} (head : IsExpr (.expr .and first) u)
    (links : IsExpr (.chain .or first e) v) : IsExpr (.expr .or e) (u ++ v)
  | and {first e : Expr} {u v : List Token} (head : IsExpr (.expr .not first) u)
    (links : IsExpr (.chain .and first e) v) : IsExpr (.expr .and e) (u ++ v)
  | chain_done {c : Connective} {e : Expr} : IsExpr (.chain c e e) []
  | chain_link {c : Connective} {lhs rhs e : Expr} {t : Token} {u v : List Token} (operator : t.Is c.sign)
    (right : IsExpr (.expr c.operand rhs) u) (links : IsExpr (.chain c (.Binary c.op lhs rhs t.span) e) v) :
    IsExpr (.chain c lhs e) (t :: u ++ v)
  | not_pattern {t : Token} {pat : PathPattern} {u : List Token} (not : t.Is .Not) (pattern : IsPatternPredicate pat u) :
    IsExpr (.expr .not (.PatternPredicate true pat)) (t :: u)
  | not_not {t n : Token} {e : Expr} {u : List Token} (not : t.Is .Not) (inner_not : n.Is .Not)
    (inner : IsExpr (.expr .not e) (n :: u)) : IsExpr (.expr .not (.Not e)) (t :: n :: u)
  | not_comparison {t : Token} {e : Expr} {u : List Token} (not : t.Is .Not) (inner : IsExpr (.expr .comparison e) u) :
    IsExpr (.expr .not (.Not e)) (t :: u)
  | pattern {pat : PathPattern} {u : List Token} (pattern : IsPatternPredicate pat u) :
    IsExpr (.expr .not (.PatternPredicate false pat)) u
  | comparison {e : Expr} {u : List Token} (inner : IsExpr (.expr .comparison e) u) : IsExpr (.expr .not e) u
  | primary {e : Expr} {u : List Token} (inner : IsExpr (.expr .primary e) u) : IsExpr (.expr .comparison e) u
  | binary {lhs rhs : Expr} {op : BinOp} {t : Token} {u v : List Token} (left : IsExpr (.expr .primary lhs) u)
    (operator : comparison_op t.kind = some op) (right : IsExpr (.expr .primary rhs) v) :
    IsExpr (.expr .comparison (.Binary op lhs rhs t.span)) (u ++ t :: v)
  | group {e : Expr} {o c : Token} {u : List Token} (left : o.Is .LParen) (inner : IsExpr (.expr .or e) u)
    (right : c.Is .RParen) : IsExpr (.expr .primary e) (o :: (u ++ [c]))
  | literal {v : Value} {u : List Token} (value : IsLiteral (.one v) u) : IsExpr (.expr .primary (.Literal v)) u
  | comprehension {o i p c : Token} {var : String} {list projection : Expr} {x u w : List Token}
    (left : o.Is .LBracket) (name : IsIdent var x) (member : i.Is .In) (source : IsExpr (.expr .or list) u)
    (pipe : p.Is .Pipe) (result : IsExpr (.expr .or projection) w) (right : c.Is .RBracket) :
    IsExpr (.expr .primary (.ListComp var list none projection)) (o :: (x ++ i :: (u ++ p :: (w ++ [c]))))
  | filtered {o i f p c : Token} {var : String} {list filter projection : Expr} {x u v w : List Token}
    (left : o.Is .LBracket) (name : IsIdent var x) (member : i.Is .In) (source : IsExpr (.expr .or list) u)
    (keyword : f.Is .Where) (condition : IsExpr (.expr .or filter) v) (pipe : p.Is .Pipe)
    (result : IsExpr (.expr .or projection) w) (right : c.Is .RBracket) :
    IsExpr (.expr .primary (.ListComp var list (some filter) projection))
      (o :: (x ++ i :: (u ++ f :: (v ++ p :: (w ++ [c])))))
  | quantifier {k o i f c : Token} {kind : QuantifierKind} {var : String} {list predicate : Expr} {x u v : List Token}
    (keyword : quantifier_kind k.kind = some kind) (left : o.Is .LParen) (name : IsIdent var x) (member : i.Is .In)
    (source : IsExpr (.expr .or list) u) (condition : f.Is .Where) (inner : IsExpr (.expr .or predicate) v)
    (right : c.Is .RParen) :
    IsExpr (.expr .primary (.Quantifier kind var list predicate))
      (k :: o :: (x ++ i :: (u ++ f :: (v ++ [c]))))
  | property {head : Spanned String} {segments : List (Spanned String)} {u v : List Token} (name : IsName head u)
    (path : Many (After (Token.Is .Dot) IsName) segments v) :
    IsExpr (.expr .primary (.Property head segments)) (u ++ v)
  | call_star {name : Spanned String} {o s c : Token} {u : List Token} (function : IsName name u) (left : o.Is .LParen)
    (star : s.Is .Star) (right : c.Is .RParen) :
    IsExpr (.expr .primary (.FunctionCall name [.Property ⟨"*", s.span⟩ []])) (u ++ [o, s, c])
  | call_empty {name : Spanned String} {o c : Token} {u : List Token} (function : IsName name u) (left : o.Is .LParen)
    (right : c.Is .RParen) : IsExpr (.expr .primary (.FunctionCall name [])) (u ++ [o, c])
  | call {name : Spanned String} {first : Expr} {further : List Expr} {o c : Token} {u v w : List Token}
    (function : IsName name u) (left : o.Is .LParen) (head : IsExpr (.expr .or first) v)
    (tail : IsExpr (.args further) w) (right : c.Is .RParen) :
    IsExpr (.expr .primary (.FunctionCall name (first :: further))) (u ++ o :: (v ++ w ++ [c]))
  | args_done : IsExpr (.args []) []
  | args_more {t : Token} {e : Expr} {es : List Expr} {u v : List Token} (comma : t.Is .Comma)
    (head : IsExpr (.expr .or e) u) (tail : IsExpr (.args es) v) : IsExpr (.args (e :: es)) (t :: u ++ v)

/-- An expression of a query. -/
def IsQueryExpr (e : Expr) (used : List Token) : Prop := IsExpr (.expr .or e) used

/-- `WHERE` and a condition, or nothing. -/
def IsWhere : Option Expr → List Token → Prop := Opt (After (Token.Is .Where) IsQueryExpr)

/-- `AS` and a name, or nothing. -/
def IsAlias : Option String → List Token → Prop := Opt (After (Token.Is .As) IsIdent)

inductive IsMatch : MatchClause → List Token → Prop
  | intro {m : Token} {patterns : List PathPattern} {condition : Option Expr} {u v : List Token} (keyword : m.Is .Match)
    (paths : Separated (Token.Is .Comma) IsPath patterns u) (filter : IsWhere condition v) :
    IsMatch ⟨patterns, condition⟩ (m :: (u ++ v))

inductive IsYieldItem : YieldItem → List Token → Prop
  | intro {name : Spanned String} {alias_name : Option String} {u v : List Token} (column : IsName name u)
    (renamed : IsAlias alias_name v) : IsYieldItem ⟨name, alias_name⟩ (u ++ v)

inductive IsCall : CallClause → List Token → Prop
  | intro {k y : Token} {head : Spanned String} {segments : List (Spanned String)} {args : List Expr}
    {yields : List YieldItem} {condition : Option Expr} {u v w x z : List Token} (keyword : k.Is .Call)
    (name : IsName head u) (path : Many (After (Token.Is .Dot) IsName) segments v)
    (inputs : Bracketed .LParen .RParen IsQueryExpr args w) (yield : y.Is .Yield)
    (columns : Separated (Token.Is .Comma) IsYieldItem yields x) (filter : IsWhere condition z) :
    IsCall ⟨proc_name head segments, args, yields, condition⟩ (k :: (u ++ v ++ w ++ y :: (x ++ z)))

inductive IsReading : ReadingClause → List Token → Prop
  | Match {clause : MatchClause} {u : List Token} (inner : IsMatch clause u) : IsReading (.Match clause) u
  | Call {clause : CallClause} {u : List Token} (inner : IsCall clause u) : IsReading (.Call clause) u

inductive IsReturnItem : ReturnItem → List Token → Prop
  | intro {e : Expr} {alias_name : Option String} {u v : List Token} (value : IsQueryExpr e u)
    (renamed : IsAlias alias_name v) : IsReturnItem ⟨e, alias_name⟩ (u ++ v)

inductive IsSortItem : OrderBy → List Token → Prop
  | plain {e : Expr} {u : List Token} (value : IsQueryExpr e u) : IsSortItem ⟨e, false⟩ u
  | asc {e : Expr} {t : Token} {u : List Token} (value : IsQueryExpr e u) (order : t.Is .Asc) :
    IsSortItem ⟨e, false⟩ (u ++ [t])
  | desc {e : Expr} {t : Token} {u : List Token} (value : IsQueryExpr e u) (order : t.Is .Desc) :
    IsSortItem ⟨e, true⟩ (u ++ [t])

inductive IsOrderBy : List OrderBy → List Token → Prop
  | none : IsOrderBy [] []
  | some {o b : Token} {items : List OrderBy} {u : List Token} (order : o.Is .Order) (by_keyword : b.Is .By)
    (keys : Separated (Token.Is .Comma) IsSortItem items u) : IsOrderBy items (o :: b :: u)

inductive IsLimit : Option Nat → List Token → Prop
  | none : IsLimit none []
  | some {l t : Token} {n : Int} (keyword : l.Is .Limit) (int : t.kind = .Int n) (lower : 0 ≤ n) :
    IsLimit (some n.toNat) [l, t]

inductive IsDistinct : Bool → List Token → Prop
  | absent : IsDistinct false []
  | present {d : Token} (keyword : d.Is .Distinct) : IsDistinct true [d]

inductive IsReturn : ReturnClause → List Token → Prop
  | intro {r : Token} {distinct : Bool} {items : List ReturnItem} {order_by : List OrderBy} {limit : Option Nat}
    {u v w x : List Token} (keyword : r.Is .Return) (dedup : IsDistinct distinct u)
    (columns : Separated (Token.Is .Comma) IsReturnItem items v) (order : IsOrderBy order_by w) (cap : IsLimit limit x) :
    IsReturn ⟨distinct, items, order_by, limit⟩ (r :: (u ++ v ++ w ++ x))

inductive IsWith : WithClause → List Token → Prop
  | intro {k : Token} {distinct : Bool} {items : List ReturnItem} {order_by : List OrderBy} {limit : Option Nat}
    {condition : Option Expr} {u v w x y : List Token} (keyword : k.Is .With) (dedup : IsDistinct distinct u)
    (columns : Separated (Token.Is .Comma) IsReturnItem items v) (order : IsOrderBy order_by w) (cap : IsLimit limit x)
    (filter : IsWhere condition y) :
    IsWith ⟨distinct, items, order_by, limit, condition⟩ (k :: (u ++ v ++ w ++ x ++ y))

/-- The parts of a query: all but the last carry rows on, the last one returns. -/
inductive IsParts : List QueryPart → List Token → Prop
  | last {reading : List ReadingClause} {ret : ReturnClause} {u v : List Token} (clauses : Many IsReading reading u)
    (result : IsReturn ret v) : IsParts [⟨reading, some ret, none⟩] (u ++ v)
  | carry {reading : List ReadingClause} {carry : WithClause} {parts : List QueryPart} {u v w : List Token}
    (clauses : Many IsReading reading u) (projection : IsWith carry v) (further : IsParts parts w) :
    IsParts (⟨reading, none, some carry⟩ :: parts) (u ++ v ++ w)

def IsQuery (query : Query) (used : List Token) : Prop := IsParts query.parts used

end cgx.cql
