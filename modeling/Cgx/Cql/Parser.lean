import Mathlib.Algebra.Group.Int.Defs
import Cgx.Lib.Parsing
import Cgx.Cql.Token

open parsing

namespace cgx.cql

/-- The standard library's reading and texts of floats, and its quoted texts of strings. -/
structure Texts where
  parse_f64 : String → Option Float
  float_text : Float → String
  debug_text : String → String

abbrev Parser (α : Type) := parsing.Parser Token CqlError α

/-! ### The token cursor -/

def peek : List Token → TokenKind
  | [] => .Eof
  | token :: _ => token.kind

def peek_span : List Token → Span
  | [] => default
  | token :: _ => token.span

/-- Whether the next token is `f`. -/
def next_is (f : Fixed) (tokens : List Token) : Bool :=
  match peek tokens with
  | .Fixed g => g == f
  | _ => false

/-- Whether the next token is the identifier `word`, in any case. -/
def next_is_word (word : String) (tokens : List Token) : Bool :=
  match peek tokens with
  | .Ident name => name.map Char.toUpper == word
  | _ => false

/-- Whether the next token is the end of the input. -/
def at_eof : List Token → Bool
  | ⟨.Eof, _⟩ :: _ => true
  | _ => false

def at_ident (tokens : List Token) : Bool :=
  match peek tokens with
  | .Ident _ => true
  | _ => false

/-- Step over the next token. The end of the input stays. -/
def bump : Parser Unit := fun tokens =>
  .ok ((), if at_eof tokens then tokens else tokens.tail)

def eat (f : Fixed) : Parser Bool := do
  if next_is f (← get) then
    bump
    return true
  else return false

def err_here {α : Type} (message : String) : Parser α := fun tokens =>
  .error (.parse (peek_span tokens) message)

def plan_here {α : Type} (message : String) : Parser α := fun tokens =>
  .error (.plan (peek_span tokens) message)

def token_text : Fixed → String
  | .Match => "MATCH"
  | .Where => "WHERE"
  | .Return => "RETURN"
  | .With => "WITH"
  | .Call => "CALL"
  | .Yield => "YIELD"
  | .Order => "ORDER"
  | .By => "BY"
  | .As => "AS"
  | .Distinct => "DISTINCT"
  | .Limit => "LIMIT"
  | .Asc => "ASC"
  | .Desc => "DESC"
  | .And => "AND"
  | .Or => "OR"
  | .Not => "NOT"
  | .In => "IN"
  | .None => "NONE"
  | .Any => "ANY"
  | .All => "ALL"
  | .True => "true"
  | .False => "false"
  | .Null => "null"
  | .LParen => "("
  | .RParen => ")"
  | .LBracket => "["
  | .RBracket => "]"
  | .LBrace => "\x7b"
  | .RBrace => "\x7d"
  | .Colon => ":"
  | .Comma => ","
  | .Dot => "."
  | .Pipe => "|"
  | .At => "@"
  | .Star => "*"
  | .DotDot => ".."
  | .Eq => "="
  | .Ne => "<>"
  | .Lt => "<"
  | .Le => "<="
  | .Gt => ">"
  | .Ge => ">="
  | .Dash => "-"
  | .ArrowR => "->"
  | .ArrowL => "<-"

section parser

variable (texts : Texts)

/-- The name of a token in error messages. -/
def describe : TokenKind → String
  | .Eof => "end of input"
  | .Ident s => "identifier `" ++ s ++ "`"
  | .Int n => "integer `" ++ toString n ++ "`"
  | .Float f => "float `" ++ texts.float_text f ++ "`"
  | .Str s => "string " ++ texts.debug_text s
  | .Fixed f => "`" ++ token_text f ++ "`"

/-- The error for a token that is not what the grammar asks for. -/
def expected {α : Type} (what : String) : Parser α := do
  err_here ("expected " ++ what ++ ", found " ++ describe texts (peek (← get)))

def expect (f : Fixed) (what : String) : Parser Unit := do
  if next_is f (← get) then bump else expected texts what

def expect_ident (what : String) : Parser (Spanned String) := do
  let tokens ← get
  match peek tokens with
  | .Ident name =>
    bump
    return ⟨name, peek_span tokens⟩
  | _ => expected texts what

def parse_opt_ident : Parser (Option String) := do
  match peek (← get) with
  | .Ident name =>
    bump
    return some name
  | _ => return none

/-- A part behind its keyword or sign, when the sign is there. -/
def opt_after {α : Type} (f : Fixed) (part : Parser α) : Parser (Option α) := do
  if ← eat f then some <$> part else return none

/-- Further items, each behind the sign. -/
def many_after {α : Type} (f : Fixed) (item : Parser α) : Parser (List α) :=
  many (next_is f) (do bump; item)

/-- Items with the sign between them. -/
def separated {α : Type} (f : Fixed) (item : Parser α) : Parser (List α) := do
  let first ← item
  let rest ← many_after f item
  return first :: rest

/-- Items with commas between them, or the closing sign at once. -/
def comma_list_until {α : Type} (close : Fixed) (item : Parser α) : Parser (List α) := do
  if next_is close (← get) then return [] else separated .Comma item

/-! ### Literals -/

/-- The literal that a single token is. -/
def scalar : TokenKind → Option Value
  | .Str s => some (.Str s)
  | .Int n => some (.Int n)
  | .Float f => some (.Float f)
  | .Fixed .True => some (.Bool true)
  | .Fixed .False => some (.Bool false)
  | .Fixed .Null => some .Null
  | _ => none

def parse_list_literal (literal : Parser Value) : Parser Value := do
  expect texts .LBracket "`[`"
  let items ← comma_list_until .RBracket literal
  expect texts .RBracket "`]` to close the list literal"
  return .List items

/-- Lists nest at most as deep as there are tokens. -/
def parse_literal_within : Nat → Parser Value
  | 0 => expected texts "a literal"
  | fuel + 1 => do
    let tokens ← get
    match scalar (peek tokens) with
    | some v =>
      bump
      return v
    | none =>
      if next_is .LBracket tokens then parse_list_literal texts (parse_literal_within fuel)
      else expected texts "a literal"

def parse_literal : Parser Value := fun tokens =>
  parse_literal_within texts tokens.length tokens

/-! ### Patterns -/

def parse_prop_key : Parser (Spanned String) :=
  expect_ident texts "property key"

def parse_prop_entry : Parser PropEntry := do
  let key ← parse_prop_key texts
  expect texts .Colon "`:` after property key"
  let value ← parse_literal texts
  return ⟨key, value⟩

def parse_prop_map : Parser (List PropEntry) := do
  expect texts .LBrace "`\x7b`"
  let entries ← comma_list_until .RBrace (parse_prop_entry texts)
  expect texts .RBrace "`\x7d` to close the property map"
  return entries

def parse_opt_props : Parser (List PropEntry) := do
  if next_is .LBrace (← get) then parse_prop_map texts else return []

def parse_node_pat : Parser NodePat := do
  expect texts .LParen "`(` to begin a node pattern"
  let var ← parse_opt_ident
  let label ← opt_after .Colon (expect_ident texts "node label after `:`")
  let props ← parse_opt_props texts
  expect texts .RParen "`)` to close the node pattern"
  return ⟨var, label, props⟩

def parse_rel_types : Parser (List (Spanned String)) := do
  let name ← expect_ident texts "relationship type after `:`"
  if next_is .Colon (← get) then
    plan_here ("sub-type qualifier `" ++ name.value ++ ":…` (e.g. `CALLS:super`) is recognised " ++
      "but not supported in this release (Theme-13, deferred)")
  else
    let types ← many_after .Pipe (expect_ident texts "relationship type after `|`")
    return name :: types

/-- A length bound is at most a `u32`. -/
def parse_opt_int_u32 : Parser (Option UInt32) := do
  let tokens ← get
  match peek tokens with
  | .Int n =>
    if 0 ≤ n ∧ n < 2 ^ 32 then
      bump
      return some (UInt32.ofNat n.toNat)
    else fun _ => .error (.parse (peek_span tokens) ("length bound `" ++ toString n ++ "` out of range"))
  | _ => return none

/-- `*n` without `..` means exactly `n`. -/
def parse_var_len : Parser VarLen := do
  expect texts .Star "`*`"
  let min ← parse_opt_int_u32
  if ← eat .DotDot then
    let max ← parse_opt_int_u32
    return ⟨min, max⟩
  else return ⟨min, min⟩

def parse_opt_types : Parser (List (Spanned String)) := do
  if ← eat .Colon then parse_rel_types texts else return []

def parse_opt_var_len : Parser (Option VarLen) := do
  if next_is .Star (← get) then some <$> parse_var_len texts else return none

/-- What stands between the arrow sides of a relationship. -/
structure RelBody where
  var : Option String
  types : List (Spanned String)
  var_len : Option VarLen
  props : List PropEntry

def parse_rel_body : Parser RelBody := do
  if ← eat .LBracket then
    let var ← parse_opt_ident
    let types ← parse_opt_types texts
    let var_len ← parse_opt_var_len texts
    let props ← parse_opt_props texts
    expect texts .RBracket "`]` to close the relationship"
    return ⟨var, types, var_len, props⟩
  else return ⟨none, [], none, []⟩

def parse_leading : Parser Bool := do
  if ← eat .Dash then return false
  else if ← eat .ArrowL then return true
  else err_here "expected `-` or `<-` to begin a relationship"

def parse_trailing : Parser Bool := do
  if ← eat .ArrowR then return true
  else if ← eat .Dash then return false
  else err_here "expected `->` or `-` to close a relationship"

def parse_rel_pat : Parser RelPat := do
  let leading_back ← parse_leading
  let body ← parse_rel_body texts
  let trailing_forward ← parse_trailing
  match leading_back, trailing_forward with
  | false, true => return ⟨body.var, .Forward, body.types, body.var_len, body.props⟩
  | true, false => return ⟨body.var, .Backward, body.types, body.var_len, body.props⟩
  | _, _ => err_here "ambiguous relationship direction: use `-[...]->` or `<-[...]-`"

/-- The `path =` in front of a pattern. -/
def parse_path_var : Parser (Option String) := do
  let tokens ← get
  match peek tokens with
  | .Ident name =>
    if next_is .Eq tokens.tail then
      bump
      bump
      return some name
    else return none
  | _ => return none

def next_is_arrow (tokens : List Token) : Bool :=
  next_is .Dash tokens || next_is .ArrowL tokens

def parse_step : Parser (RelPat × NodePat) := do
  let rel ← parse_rel_pat texts
  let node ← parse_node_pat texts
  return (rel, node)

def parse_path_pattern : Parser PathPattern := do
  let path_var ← parse_path_var
  let start ← parse_node_pat texts
  let steps ← many next_is_arrow (parse_step texts)
  return ⟨path_var, start, steps⟩

/-! ### Expressions -/

/-- Whether the group that closes the open parentheses has an arrow behind it. -/
def group_is_pattern : Nat → List Token → Bool
  | _, [] => false
  | depth, token :: rest =>
    match token.kind with
    | .Fixed .LParen => group_is_pattern (depth + 1) rest
    | .Fixed .RParen => if depth - 1 = 0 then next_is_arrow rest else group_is_pattern (depth - 1) rest
    | .Eof => false
    | _ => group_is_pattern depth rest

def paren_group_is_pattern (tokens : List Token) : Bool :=
  group_is_pattern 0 tokens

/-- A pattern at an opening parenthesis whose group an arrow follows. -/
def try_pattern_predicate : Parser (Option PathPattern) := do
  let tokens ← get
  if next_is .LParen tokens && paren_group_is_pattern tokens then
    let pat ← parse_path_pattern texts
    if pat.steps.isEmpty then
      err_here "a pattern predicate requires a relationship, e.g. `(m)<-[:CALLS]-()`"
    else return some pat
  else return none

/-- `[` opens a comprehension when an identifier and `IN` stand behind it. -/
def bracket_is_comprehension (tokens : List Token) : Bool :=
  at_ident (tokens.drop 1) && next_is .In (tokens.drop 2)

def parse_property (head : Spanned String) : Parser Expr := do
  let segments ← many_after .Dot (expect_ident texts "property name after `.`")
  return .Property head segments

section nested

-- The parser of nested expressions.
variable (expr : Parser Expr)

/-- `count(*)` is the one call with a star. -/
def parse_call_args : Parser (List Expr) := do
  let tokens ← get
  if next_is .Star tokens then
    bump
    return [.Property ⟨"*", peek_span tokens⟩ []]
  else comma_list_until .RParen expr

def parse_function_call (name : Spanned String) : Parser Expr := do
  expect texts .LParen "`(`"
  let args ← parse_call_args expr
  expect texts .RParen "`)` to close the argument list"
  return .FunctionCall name args

def parse_list_comp : Parser Expr := do
  expect texts .LBracket "`[`"
  let var ← expect_ident texts "comprehension variable"
  expect texts .In "IN in a list comprehension"
  let list ← expr
  let filter ← opt_after .Where expr
  expect texts .Pipe "`|` before the comprehension projection"
  let projection ← expr
  expect texts .RBracket "`]` to close the comprehension"
  return .ListComp var.value list filter projection

def quantifier_kind : TokenKind → Option QuantifierKind
  | .Fixed .None => some .None
  | .Fixed .Any => some .Any
  | .Fixed .All => some .All
  | _ => none

def parse_quantifier (kind : QuantifierKind) : Parser Expr := do
  bump
  expect texts .LParen "`(` after a quantifier"
  let var ← expect_ident texts "quantifier variable"
  expect texts .In "IN in a quantifier"
  let list ← expr
  expect texts .Where "WHERE in a quantifier"
  let predicate ← expr
  expect texts .RParen "`)` to close the quantifier"
  return .Quantifier kind var.value list predicate

def parse_group : Parser Expr := do
  bump
  let e ← expr
  expect texts .RParen "`)` to close a parenthesised expression"
  return e

def parse_named : Parser Expr := do
  let name ← expect_ident texts "an expression"
  if next_is .LParen (← get) then parse_function_call texts expr name else parse_property texts name

def parse_primary : Parser Expr := do
  let tokens ← get
  if next_is .LParen tokens then parse_group texts expr
  else if next_is .LBracket tokens then
    if bracket_is_comprehension tokens then parse_list_comp texts expr
    else .Literal <$> parse_list_literal texts (parse_literal texts)
  else
    match quantifier_kind (peek tokens), scalar (peek tokens) with
    | some kind, _ => parse_quantifier texts expr kind
    | none, some _ => .Literal <$> parse_literal texts
    | none, none => parse_named texts expr

def comparison_op : TokenKind → Option BinOp
  | .Fixed .Eq => some .Eq
  | .Fixed .Ne => some .Ne
  | .Fixed .Lt => some .Lt
  | .Fixed .Le => some .Le
  | .Fixed .Gt => some .Gt
  | .Fixed .Ge => some .Ge
  | .Fixed .In => some .In
  | _ => none

def parse_comparison : Parser Expr := do
  let lhs ← parse_primary texts expr
  let tokens ← get
  match comparison_op (peek tokens) with
  | some op =>
    bump
    let rhs ← parse_primary texts expr
    return .Binary op lhs rhs (peek_span tokens)
  | none =>
    if next_is_word "IS" tokens then
      plan_here ("`IS EMPTY` / `IS NULL` predicates are not supported in this " ++
        "release (IS EMPTY requires type reconstruction; deferred)")
    else return lhs

/-- A pattern predicate or a comparison. -/
def parse_bare : Parser Expr := do
  match ← try_pattern_predicate texts with
  | some pat => return .PatternPredicate false pat
  | none => parse_comparison texts expr

/-- `NOT` in front of a pattern negates the pattern itself. -/
def parse_not : List Token → Except CqlError (Expr × List Token)
  | [] => parse_bare texts expr []
  | token :: rest =>
    if next_is .Not [token] then do
      let (pat, behind) ← try_pattern_predicate texts rest
      match pat with
      | some pat => .ok (.PatternPredicate true pat, behind)
      | none =>
        let (inner, behind) ← parse_not rest
        .ok (.Not inner, behind)
    else parse_bare texts expr (token :: rest)

/-- Operands with an operator between them, associated to the left. -/
def binary_chain (sign : Fixed) (op : BinOp) (operand : Parser Expr) : Parser Expr := do
  let first ← operand
  loop (next_is sign) (fun lhs => do
    let span := peek_span (← get)
    bump
    let rhs ← operand
    return .Binary op lhs rhs span) first

def parse_and : Parser Expr :=
  binary_chain .And .And (parse_not texts expr)

def parse_or : Parser Expr :=
  binary_chain .Or .Or (parse_and texts expr)

end nested

/-- Expressions nest at most as deep as there are tokens. -/
def parse_expr_within : Nat → Parser Expr
  | 0 => expected texts "an expression"
  | fuel + 1 => parse_or texts (parse_expr_within fuel)

def parse_expr : Parser Expr := fun tokens =>
  parse_expr_within texts tokens.length tokens

/-! ### Clauses -/

def parse_opt_where : Parser (Option Expr) :=
  opt_after .Where (parse_expr texts)

def parse_alias : Parser (Option String) := do
  let name ← opt_after .As (expect_ident texts "alias after AS")
  return name.map Spanned.value

def parse_match : Parser MatchClause := do
  expect texts .Match "MATCH"
  if next_is .All (← get) then
    plan_here ("`MATCH ALL … MUST PASS THROUGH/AVOIDING` (Q-20 guarded-cut) is " ++
      "not supported in this release (deferred)")
  else
    let patterns ← separated .Comma (parse_path_pattern texts)
    let where_clause ← parse_opt_where texts
    return ⟨patterns, where_clause⟩

def parse_yield_item : Parser YieldItem := do
  let name ← expect_ident texts "yielded column name"
  let alias_name ← parse_alias texts
  return ⟨name, alias_name⟩

/-- The dotted name of a procedure, with the span of all of it. -/
def proc_name (head : Spanned String) (segments : List (Spanned String)) : Spanned String :=
  ⟨segments.foldl (fun name seg => name ++ "." ++ seg.value) head.value,
    ⟨head.span.start, (segments.getLast?.getD head).span.stop⟩⟩

def parse_call : Parser CallClause := do
  expect texts .Call "CALL"
  let head ← expect_ident texts "procedure name"
  let segments ← many_after .Dot (expect_ident texts "procedure name segment after `.`")
  expect texts .LParen "`(` after procedure name"
  let args ← comma_list_until .RParen (parse_expr texts)
  expect texts .RParen "`)` to close arguments"
  expect texts .Yield "YIELD"
  let yields ← separated .Comma (parse_yield_item texts)
  let where_clause ← parse_opt_where texts
  return ⟨proc_name head segments, args, yields, where_clause⟩

def parse_return_item : Parser ReturnItem := do
  let expr ← parse_expr texts
  let alias_name ← parse_alias texts
  return ⟨expr, alias_name⟩

def parse_return_items : Parser (List ReturnItem) :=
  separated .Comma (parse_return_item texts)

def parse_sort_item : Parser OrderBy := do
  let expr ← parse_expr texts
  if ← eat .Desc then return ⟨expr, true⟩
  else
    let _ ← eat .Asc
    return ⟨expr, false⟩

def parse_opt_order_by : Parser (List OrderBy) := do
  if ← eat .Order then
    expect texts .By "BY after ORDER"
    separated .Comma (parse_sort_item texts)
  else return []

def parse_opt_limit : Parser (Option Nat) := do
  if ← eat .Limit then
    match peek (← get) with
    | .Int n =>
      if 0 ≤ n then
        bump
        return some n.toNat
      else err_here "expected a non-negative integer after LIMIT"
    | _ => err_here "expected a non-negative integer after LIMIT"
  else return none

def parse_return : Parser ReturnClause := do
  expect texts .Return "RETURN"
  let distinct ← eat .Distinct
  let items ← parse_return_items texts
  let order_by ← parse_opt_order_by texts
  let limit ← parse_opt_limit
  return ⟨distinct, items, order_by, limit⟩

def parse_with : Parser WithClause := do
  let distinct ← eat .Distinct
  let items ← parse_return_items texts
  let order_by ← parse_opt_order_by texts
  let limit ← parse_opt_limit
  let where_clause ← parse_opt_where texts
  return ⟨distinct, items, order_by, limit, where_clause⟩

/-! ### Parts and queries -/

def next_is_reading (tokens : List Token) : Bool :=
  next_is .Match tokens || next_is .Call tokens

def parse_reading : Parser ReadingClause := do
  if next_is .Match (← get) then .Match <$> parse_match texts else .Call <$> parse_call texts

/-- The deferred clauses, by the identifier that opens them. -/
def deferred_clause (name : String) : Option String :=
  let word := name.map Char.toUpper
  if word = "CREATE" ∨ word = "SET" ∨ word = "DELETE" ∨ word = "DETACH" then
    some ("`" ++ name ++ "` is not supported: cgx query is a read-only language; " ++
      "write clauses (CREATE/SET/DELETE) are deferred")
  else if word = "UNWIND" then some "`UNWIND` is not supported in this release (deferred)"
  else if word = "OPTIONAL" then some "`OPTIONAL MATCH` is not supported in this release (deferred)"
  else if word = "UNION" then some "`UNION` is not supported in this release (deferred)"
  else none

def deferred_at (tokens : List Token) : Option String :=
  match peek tokens with
  | .Ident name => deferred_clause name
  | _ => none

/-- The error behind the reading clauses of a part that nothing closes. -/
def unclosed_part (reading : List ReadingClause) : Parser QueryPart := do
  match deferred_at (← get) with
  | some message => plan_here message
  | none =>
    if reading.isEmpty then expected texts "MATCH, CALL, WITH, or RETURN"
    else expected texts "WITH or RETURN"

def parse_part : Parser QueryPart := do
  let reading ← many next_is_reading (parse_reading texts)
  if ← eat .With then
    let carry ← parse_with texts
    return ⟨reading, none, some carry⟩
  else if next_is .Return (← get) then
    let ret ← parse_return texts
    return ⟨reading, some ret, none⟩
  else unclosed_part texts reading

/-- Parts up to the first one without a `WITH`. Every part takes a token. -/
def parse_parts : Nat → Parser (List QueryPart)
  | 0 => expected texts "MATCH, CALL, WITH, or RETURN"
  | fuel + 1 => do
    let part ← parse_part texts
    if part.carry.isNone then return [part]
    else
      let parts ← parse_parts fuel
      return part :: parts

def parse_query : Parser Query := do
  let tokens ← get
  let parts ← parse_parts texts tokens.length
  let behind ← get
  if !at_eof behind then
    if next_is_word "UNION" behind then plan_here "`UNION` is not supported in this release (deferred)"
    else err_here ("unexpected trailing input " ++ describe texts (peek behind))
  else if (parts.getLast?.bind QueryPart.ret).isSome then return ⟨parts⟩
  else err_here "query must end with a RETURN clause"

/-- Parse a query text. -/
def parse (src : String) : Except CqlError Query := do
  let tokens ← tokenize texts.parse_f64 src
  let (query, _) ← parse_query texts tokens
  .ok query

end parser

end cgx.cql
