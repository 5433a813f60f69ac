import Mathlib.Data.List.Basic
import Mathlib.Data.List.Chain
import Cgx.Select.Grammar

/-! The parser of one segment of a selector. -/

namespace cgx.select

/-- The character class a family admits inside a literal. -/
inductive CharClass where
  | Rust
  | JavaTs
  | Python
  | Go
deriving DecidableEq

namespace CharClass

def admits (c : Char) : CharClass → Bool
  | .Rust | .Python => c.isAlphanum || c == '_'
  | .JavaTs => c.isAlphanum || c == '_' || c == '$'
  | .Go => c.isAlphanum || c == '_' || c == '.' || c == '-'

end CharClass

/-- Why a segment is rejected. -/
inductive RejectReason where
  | QuestionMark (pos : Nat)
  | IllegalChar (ch : Char) (pos : Nat)
  | EmptySegment
  | Malformed (detail : String)
deriving DecidableEq

/-- A literal or a group of a run. -/
inductive Atom where
  | Lit (s : String)
  | Group (opts : List GroupOpt)
deriving DecidableEq

/-- Move each `!` that stands before a run of stars behind it, and say whether one was moved.
`skip` counts the stars that have been moved over. -/
def bang_star : Nat → List Char → List Char × Bool
  | _, [] => ([], false)
  | skip + 1, _ :: rest => bang_star skip rest
  | 0, c :: rest =>
    if c = '!' ∧ rest.head? = some '*' then
      let stars := rest.takeWhile fun c => c = '*'
      let (out, _) := bang_star stars.length rest
      (stars ++ '!' :: out, true)
    else
      let (out, changed) := bang_star 0 rest
      (c :: out, changed)

def rewrite_bang_star (raw : String) : String × Bool :=
  let (out, changed) := bang_star 0 raw.toList
  (String.ofList out, changed)

/-- Take the alternative that ends here. -/
def push_opt (opts : List GroupOpt) (cur : String) (negated started_opt : Bool) :
    Except RejectReason (List GroupOpt) :=
  if cur = "" && !started_opt then .error (.Malformed "empty alternative in group")
  else if cur = "" then .error (.Malformed "empty alternative in group")
  else .ok (opts ++ [⟨cur, negated⟩])

/-- The loop of `parse_group`, at position `i`. -/
def scan_group (char_class : CharClass) : List Char → Nat → List GroupOpt → String → Bool → Bool →
    Except RejectReason (Atom × Nat)
  | [], _, _, _, _, _ => .error (.Malformed "unbalanced `(` in alternation group")
  | c :: rest, i, opts, cur, negated, started_opt =>
    if c = ')' then do
      let opts ← push_opt opts cur negated started_opt
      if opts = [] then .error (.Malformed "empty alternation group `()`")
      else .ok (.Group opts, i + 1)
    else if c = '|' then do
      let opts ← push_opt opts cur negated started_opt
      scan_group char_class rest (i + 1) opts "" false false
    else if c = '!' ∧ started_opt = false ∧ cur = "" ∧ negated = false then
      scan_group char_class rest (i + 1) opts cur true true
    else if c = '(' then .error (.Malformed "nested alternation groups are not supported")
    else if c = '*' ∨ c = '?' then
      .error (.Malformed ("wildcard '" ++ c.toString ++ "' inside an alternation group"))
    else if char_class.admits c then
      scan_group char_class rest (i + 1) opts (cur.push c) negated true
    else .error (.IllegalChar c i)

/-- A group, and how many characters it takes; `chars` begins with its parenthesis. -/
def parse_group (chars : List Char) (char_class : CharClass) : Except RejectReason (Atom × Nat) :=
  scan_group char_class chars.tail 1 [] "" false false

/-- Adjacent stars are one. -/
def push_star (pieces : List Piece) : List Piece :=
  if pieces.getLast? = some .Star then pieces else pieces ++ [.Star]

/-- The strings a run spells, by one of its atoms more. -/
def expand_atom (strings : List String) : Atom → Except RejectReason (List String)
  | .Lit s => .ok (strings.map fun p => p ++ s)
  | .Group opts =>
    if opts.any GroupOpt.negated then
      .error (.Malformed "negated option in a concatenated group is unsupported")
    else .ok (strings.flatMap fun p => opts.map fun o => p ++ o.text)

/-- The alternatives of a run that is one group with a negated one among them. -/
def standalone : List Atom → Option (List GroupOpt)
  | [.Group opts] => if opts.any GroupOpt.negated then some opts else none
  | _ => none

/-- Reduce the atoms of a run to a predicate. A negation without atoms is dropped. -/
def flush_run (pieces : List Piece) (atoms : List Atom) (run_negated : Bool) : Except RejectReason (List Piece) :=
  if atoms = [] then .ok pieces
  else
    match standalone atoms with
    | some opts =>
      if run_negated then
        .error (.Malformed "`!` cannot prefix a group that already negates options")
      else .ok (pieces ++ [.Run (.MixedGroup opts)])
    | none => do
      let strings ← atoms.foldlM expand_atom [""]
      .ok (pieces ++ [.Run (.Set strings run_negated)])

/-- Make an atom of the literal read so far. -/
def flush_lit (atoms : List Atom) (lit : String) : List Atom :=
  if lit = "" then atoms else atoms ++ [.Lit lit]

/-- The loop of `parse_segment_body`, at position `i`; `skip` counts the characters a group
has taken. -/
def scan_body (char_class : CharClass) : List Char → Nat → Nat → List Piece → List Atom → String → Bool →
    Except RejectReason (List Piece)
  | [], _, _, pieces, atoms, lit, run_negated => flush_run pieces (flush_lit atoms lit) run_negated
  | _ :: rest, skip + 1, i, pieces, atoms, lit, run_negated =>
    scan_body char_class rest skip (i + 1) pieces atoms lit run_negated
  | c :: rest, 0, i, pieces, atoms, lit, run_negated =>
    if c = '?' then .error (.QuestionMark i)
    else if c = '*' then do
      let pieces ← flush_run pieces (flush_lit atoms lit) run_negated
      scan_body char_class rest 0 (i + 1) (push_star pieces) [] "" false
    else if c = '!' then
      if lit ≠ "" ∨ atoms ≠ [] ∨ run_negated then
        .error (.Malformed "`!` must prefix a literal or `(...)` group")
      else scan_body char_class rest 0 (i + 1) pieces atoms lit true
    else if c = '(' then do
      let (group, consumed) ← parse_group (c :: rest) char_class
      scan_body char_class rest (consumed - 1) (i + 1) pieces (flush_lit atoms lit ++ [group]) "" run_negated
    else if c = ')' ∨ c = '|' then
      .error (.Malformed ("unexpected '" ++ c.toString ++ "' outside a group"))
    else if char_class.admits c then
      scan_body char_class rest 0 (i + 1) pieces atoms (lit.push c) run_negated
    else .error (.IllegalChar c i)

def parse_segment_body (s : String) (char_class : CharClass) : Except RejectReason SegmentMatcher := do
  let pieces ← scan_body char_class s.toList 0 0 [] [] "" false
  .ok ⟨pieces⟩

/-- A matcher for a segment, and the rewrite it was parsed after, if one was made. -/
structure SegmentParse where
  matcher : SegmentMatcher
  rewrite : Option (String × String)
deriving DecidableEq

def parse_segment (raw : String) (char_class : CharClass) : Except RejectReason SegmentParse := do
  let (working, rewritten) := rewrite_bang_star raw
  let matcher ← parse_segment_body working char_class
  .ok ⟨matcher, if rewritten then some (raw, working) else none⟩

/-! What a segment says: stars and runs, and where each run has to be found. -/

/-- A star, or a run with its polarity. -/
inductive Item where
  | Star
  | Run (negated : Bool) (atoms : List Atom)
deriving DecidableEq

/-- A negation as it is written. -/
def bang (negated : Bool) : List Char :=
  if negated then ['!'] else []

def GroupOpt.spelling (o : GroupOpt) : List Char :=
  bang o.negated ++ o.text.toList

/-- The alternatives of a group, with bars between them. -/
def joined : List GroupOpt → List Char
  | [] => []
  | [o] => o.spelling
  | o :: o' :: rest => o.spelling ++ '|' :: joined (o' :: rest)

def Atom.spelling : Atom → List Char
  | .Lit s => s.toList
  | .Group opts => '(' :: joined opts ++ [')']

def run_spelling (negated : Bool) (atoms : List Atom) : List Char :=
  bang negated ++ atoms.flatMap Atom.spelling

def Item.spelling : Item → List Char
  | .Star => ['*']
  | .Run negated atoms => run_spelling negated atoms

/-- A segment as it is written. -/
def spelling (items : List Item) : List Char :=
  items.flatMap Item.spelling

/-- A text of a literal or an alternative: at least one character of the class. -/
def Word (char_class : CharClass) (s : String) : Prop :=
  s ≠ "" ∧ ∀ c ∈ s.toList, char_class.admits c = true

def Atom.Ok (char_class : CharClass) : Atom → Prop
  | .Lit s => Word char_class s
  | .Group opts => opts ≠ [] ∧ ∀ o ∈ opts, Word char_class o.text

def Atom.is_lit : Atom → Bool
  | .Lit _ => true
  | .Group _ => false

/-- The atoms of a run: literals are as long as they can be, and an alternative is negated only
in a group that is the whole run. -/
structure RunOk (char_class : CharClass) (negated : Bool) (atoms : List Atom) : Prop where
  atoms_ok : ∀ a ∈ atoms, a.Ok char_class
  apart : atoms.IsChain fun a b => ¬(a.is_lit = true ∧ b.is_lit = true)
  polarity : ∀ opts, .Group opts ∈ atoms → opts.any GroupOpt.negated = true →
    atoms = [.Group opts] ∧ negated = false

/-- A run of at least one atom, or a negation that negates nothing. -/
def Item.Ok (char_class : CharClass) : Item → Prop
  | .Star => True
  | .Run negated atoms => RunOk char_class negated atoms ∧ (atoms = [] → negated = true)

/-- A sequence of stars and runs in which a negation may stand alone. No two runs touch. -/
structure Tolerated (char_class : CharClass) (items : List Item) : Prop where
  items_ok : ∀ x ∈ items, x.Ok char_class
  apart : items.IsChain fun a b => a = .Star ∨ b = .Star

/-- A negation that negates nothing: a `!` before a star or at the end. -/
def Dangling (items : List Item) : Prop :=
  .Run true [] ∈ items

/-- The grammar: a sequence of stars and runs, every run with an atom. -/
structure WellFormed (char_class : CharClass) (items : List Item) : Prop where
  tolerated : Tolerated char_class items
  settled : ¬Dangling items

/-- Where the text of a run has to be: with nothing before the run, the segment begins with it,
and with nothing behind, it ends with it. -/
def Placed (before after : Bool) (text seg : List Char) : Prop :=
  ∃ front back, seg = front ++ text ++ back ∧ (before = false → front = []) ∧ (after = false → back = [])

/-- A text that the atoms spell, one alternative of each group taken. -/
inductive Spells : List Atom → List Char → Prop
  | nil : Spells [] []
  | lit {s : String} {rest : List Atom} {w : List Char} : Spells rest w → Spells (.Lit s :: rest) (s.toList ++ w)
  | group {opts : List GroupOpt} {o : GroupOpt} {rest : List Atom} {w : List Char} : o ∈ opts → Spells rest w →
      Spells (.Group opts :: rest) (o.text.toList ++ w)

/-- The constraint of a run: one of its texts is in place, or none is if the run is negated. In
a group with negated alternatives each alternative has its own polarity. -/
def RunHolds (before after negated : Bool) (atoms : List Atom) (seg : List Char) : Prop :=
  match standalone atoms with
  | some opts => ∃ o ∈ opts, (o.negated = true ↔ ¬Placed before after o.text.toList seg)
  | none => negated = true ↔ ¬∃ w, Spells atoms w ∧ Placed before after w seg

/-- A segment has every run of the sequence where it stands. -/
def Accepts (items : List Item) (seg : String) : Prop :=
  ∀ pre negated atoms post, items = pre ++ .Run negated atoms :: post →
    RunHolds (!pre.isEmpty) (!post.isEmpty) negated atoms seg.toList

/-- Each `!` before stars is moved behind them. -/
inductive Moved : List Char → List Char → Prop
  | nil : Moved [] []
  | keep {c : Char} {rest out : List Char} : ¬(c = '!' ∧ rest.head? = some '*') → Moved rest out →
      Moved (c :: rest) (c :: out)
  | move {stars rest out : List Char} : stars ≠ [] → (∀ c ∈ stars, c = '*') → rest.head? ≠ some '*' →
      Moved rest out → Moved ('!' :: (stars ++ rest)) (stars ++ '!' :: out)

end cgx.select
