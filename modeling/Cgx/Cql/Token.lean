import Cgx.Cql.Ast

namespace cgx.cql

/-- The token kinds without data: keywords, punctuation, comparisons and arrows. -/
inductive Fixed where
  | Match | Where | Return | With | Call | Yield | Order | By | As | Distinct | Limit | Asc | Desc
  | And | Or | Not | In | None | Any | All | True | False | Null
  | LParen | RParen | LBracket | RBracket | LBrace | RBrace | Colon | Comma | Dot | Pipe | At | Star | DotDot
  | Eq | Ne | Lt | Le | Gt | Ge | Dash | ArrowR | ArrowL
deriving DecidableEq

inductive TokenKind where
  | Fixed (f : Fixed)
  | Ident (name : String)
  | Int (n : Int)
  | Float (f : Float)
  | Str (s : String)
  | Eof

/-- A token with its byte range in the query text. -/
structure Token where
  kind : TokenKind
  span : Span

def CqlError.parse (span : Span) (message : String) : CqlError :=
  ⟨span, .Parse, message⟩

/-! ### Characters -/

def is_ident_start (c : Char) : Bool :=
  c.isAlpha || c == '_'

def is_ident_continue (c : Char) : Bool :=
  c.isAlphanum || c == '_'

def is_blank (c : Char) : Bool :=
  c == ' ' || c == '\t' || c == '\r' || c == '\n'

/-- The bytes of a text. -/
def byte_len (cs : List Char) : Nat :=
  (cs.map Char.utf8Size).sum

def keywords : List (String × Fixed) :=
  [("MATCH", .Match), ("WHERE", .Where), ("RETURN", .Return), ("WITH", .With), ("CALL", .Call), ("YIELD", .Yield),
    ("ORDER", .Order), ("BY", .By), ("AS", .As), ("DISTINCT", .Distinct), ("LIMIT", .Limit), ("ASC", .Asc),
    ("DESC", .Desc), ("AND", .And), ("OR", .Or), ("NOT", .Not), ("IN", .In), ("NONE", .None), ("ANY", .Any),
    ("ALL", .All), ("TRUE", .True), ("FALSE", .False), ("NULL", .Null)]

/-- Keywords are recognised in any case. -/
def keyword (text : String) : Option Fixed :=
  (keywords.find? fun row => row.1.toList = text.toList.map Char.toUpper).map Prod.snd

/-- The operator at a character, by the character behind it, and its length. -/
def operator (c : Char) (two : Option Char) : Option (Fixed × Nat) :=
  match c, two with
  | '<', some '>' => some (.Ne, 2)
  | '<', some '=' => some (.Le, 2)
  | '<', some '-' => some (.ArrowL, 2)
  | '>', some '=' => some (.Ge, 2)
  | '-', some '>' => some (.ArrowR, 2)
  | '.', some '.' => some (.DotDot, 2)
  | '(', _ => some (.LParen, 1)
  | ')', _ => some (.RParen, 1)
  | '[', _ => some (.LBracket, 1)
  | ']', _ => some (.RBracket, 1)
  | '{', _ => some (.LBrace, 1)
  | '}', _ => some (.RBrace, 1)
  | ':', _ => some (.Colon, 1)
  | ',', _ => some (.Comma, 1)
  | '.', _ => some (.Dot, 1)
  | '|', _ => some (.Pipe, 1)
  | '@', _ => some (.At, 1)
  | '*', _ => some (.Star, 1)
  | '=', _ => some (.Eq, 1)
  | '<', _ => some (.Lt, 1)
  | '>', _ => some (.Gt, 1)
  | '-', _ => some (.Dash, 1)
  | _, _ => none

/-- The error at a character that starts no token. Some characters are named as deferred. -/
def unexpected (start : Nat) (c : Char) : CqlError :=
  let span : Span := ⟨start, start + c.utf8Size⟩
  let ch := String.ofList [c]
  if c = '$' then .plan span "query parameters (`$name`) are not supported in this release (deferred)"
  else if c = '+' ∨ c = '/' ∨ c = '%' then
    .plan span ("arithmetic operator `" ++ ch ++
      "` is not supported in this release (arithmetic expressions are deferred)")
  else .parse span ("unexpected character `" ++ ch ++ "`")

/-! ### Lexing one token -/

/-- Skip blanks and line comments; the offset behind them and the rest. -/
def skip_trivia (in_comment : Bool) (pos : Nat) : List Char → Nat × List Char
  | [] => (pos, [])
  | c :: rest =>
    if in_comment then skip_trivia (c != '\n') (pos + c.utf8Size) rest
    else if is_blank c then skip_trivia false (pos + 1) rest
    else if c = '/' ∧ rest.head? = some '/' then skip_trivia true (pos + 1) rest
    else (pos, c :: rest)

/-- A word is a keyword, or else an identifier. -/
def word_kind (text : String) : TokenKind :=
  match keyword text with
  | some f => .Fixed f
  | none => .Ident text

def lex_ident (start : Nat) (cs : List Char) : Token × List Char :=
  let text := cs.takeWhile is_ident_continue
  (⟨word_kind (String.ofList text), ⟨start, start + text.length⟩⟩, cs.dropWhile is_ident_continue)

/-- The fraction of a number: a point with a digit behind it. -/
def fraction : List Char → List Char
  | '.' :: d :: rest => if d.isDigit then '.' :: (d :: rest).takeWhile Char.isDigit else []
  | _ => []

/-- The sign of an exponent, if it has one. -/
def exponent_sign : List Char → List Char
  | '+' :: _ => ['+']
  | '-' :: _ => ['-']
  | _ => []

/-- The exponent of a number, with or without a sign. -/
def exponent : List Char → List Char
  | [] => []
  | e :: rest =>
    let digits := (rest.drop (exponent_sign rest).length).takeWhile Char.isDigit
    if (e = 'e' ∨ e = 'E') ∧ digits ≠ [] then e :: (exponent_sign rest ++ digits) else []

/-- The number that digits stand for. -/
def digits_value (digits : List Char) : Nat :=
  digits.foldl (fun n d => 10 * n + (d.toNat - '0'.toNat)) 0

section lexer

-- The parser of float literals.
variable (parse_f64 : String → Option Float)

/-- The token of a number. A fraction or an exponent makes it a float. -/
def number_token (start : Nat) (digits frac exp : List Char) : Except CqlError Token :=
  let text := digits ++ frac ++ exp
  let span : Span := ⟨start, start + text.length⟩
  if frac ≠ [] ∨ exp ≠ [] then
    match parse_f64 (String.ofList text) with
    | some f => .ok ⟨.Float f, span⟩
    | none => .error (.parse span ("invalid float literal `" ++ String.ofList text ++ "`"))
  else if digits_value digits < 2 ^ 63 then .ok ⟨.Int (digits_value digits), span⟩
  else .error (.parse span ("integer literal `" ++ String.ofList text ++ "` out of range"))

def lex_number (start : Nat) (cs : List Char) : Except CqlError (Token × List Char) := do
  let digits := cs.takeWhile Char.isDigit
  let behind := cs.dropWhile Char.isDigit
  let frac := fraction behind
  let exp := exponent (behind.drop frac.length)
  let token ← number_token parse_f64 start digits frac exp
  .ok (token, cs.drop (digits ++ frac ++ exp).length)

/-- The character of an escape. -/
def decode_escape (esc : Char) : Option Char :=
  if esc = '"' ∨ esc = '\\' ∨ esc = '/' then some esc
  else if esc = 'n' then some '\n'
  else if esc = 't' then some '\t'
  else if esc = 'r' then some '\r'
  else none

/-- The first byte of a character, shown as a character. -/
def lead_byte (c : Char) : Char :=
  Char.ofNat ((String.utf8EncodeChar c).headD 0).toNat

/-- A string literal from the character at `i` on, behind what it holds so far. -/
def lex_string (start i : Nat) (value : List Char) : List Char → Except CqlError (Token × List Char)
  | [] => .error (.parse ⟨start, i⟩ "unterminated string literal")
  | c :: rest =>
    if c = '"' then .ok (⟨.Str (String.ofList value), ⟨start, i + 1⟩⟩, rest)
    else if c = '\\' then
      match rest with
      | [] => .error (.parse ⟨start, i + 1⟩ "unterminated string literal")
      | esc :: rest =>
        match decode_escape esc with
        | some d => lex_string start (i + 2) (value ++ [d]) rest
        | none => .error (.parse ⟨i, i + 2⟩ ("invalid string escape `\\" ++ String.ofList [lead_byte esc] ++ "`"))
    else lex_string start (i + c.utf8Size) (value ++ [c]) rest

/-- The token at the offset `start` of the text, and the text behind it. -/
def next_token (start : Nat) (c : Char) (rest : List Char) : Except CqlError (Token × List Char) :=
  if is_ident_start c then .ok (lex_ident start (c :: rest))
  else if c.isDigit then lex_number parse_f64 start (c :: rest)
  else if c = '"' then lex_string start (start + 1) [] rest
  else
    match operator c rest.head? with
    | some (f, len) => .ok (⟨.Fixed f, ⟨start, start + len⟩⟩, rest.drop (len - 1))
    | none => .error (unexpected start c)

/-- Lex the text from the offset `pos` on. Every token takes a character, which bounds the fuel. -/
def lex_from : Nat → Nat → List Char → Except CqlError (List Token)
  | 0, pos, _ => .ok [⟨.Eof, ⟨pos, pos⟩⟩]
  | fuel + 1, pos, cs =>
    match skip_trivia false pos cs with
    | (pos, []) => .ok [⟨.Eof, ⟨pos, pos⟩⟩]
    | (pos, c :: rest) => do
      let (token, rest) ← next_token parse_f64 pos c rest
      let tokens ← lex_from fuel token.span.stop rest
      .ok (token :: tokens)

/-- The tokens of a text, up to a single `Eof` at its end. -/
def tokenize (src : String) : Except CqlError (List Token) :=
  lex_from parse_f64 (src.toList.length + 1) 0 src.toList

end lexer

end cgx.cql
