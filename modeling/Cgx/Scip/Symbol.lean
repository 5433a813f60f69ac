import Mathlib.Data.List.Basic

namespace cgx.scip

/-- What a resolved symbol is, for its confidence ceiling. -/
inductive SymClass where
  | FreeOrInherent
  | TraitMember
  | VirtualMember
deriving DecidableEq, Inhabited

/-- What a descriptor names, decided by its trailing sigil. -/
inductive DescKind where
  | Namespace
  | Type
  | Method
  | Term
  | Macro
  | Dropped
deriving DecidableEq, Inhabited

structure Descriptor where
  name : List Char
  kind : DescKind
deriving DecidableEq, Inhabited

/-- A symbol in cgx coordinates. The overload key tells apart the overloads that
share a signature-free name. -/
structure MappedSymbol where
  qname : String
  overload_key : String
  package : String
  version : String
deriving DecidableEq, Inhabited

/-- The SCIP kind of a trait. -/
def SCIP_KIND_TRAIT : Int32 := 64

/-- A symbol of one document only: it has no cross-file name. -/
def is_local (symbol : String) : Bool :=
  symbol = "local" ∨ "local ".toList.isPrefixOf symbol.toList

/-- At most `n` pieces between the separators; the last piece keeps the rest. -/
def splitn (sep : Char) : Nat → List Char → List (List Char)
  | 0, _ => []
  | 1, text => [text]
  | n + 2, text =>
    match text.dropWhile (· ≠ sep) with
    | [] => [text]
    | _ :: rest => text.takeWhile (· ≠ sep) :: splitn sep (n + 1) rest

/-! ### Descriptors -/

/-- Where the delimiter opened at the head of `chars` is closed. The depth wraps around. -/
def find_close (opening closing : Char) (chars : List Char) : Option Nat :=
  go 0 0 chars
where
  go (depth : Int32) (offset : Nat) : List Char → Option Nat
    | [] => none
    | c :: rest =>
      if c = opening then go (depth + 1) (offset + 1) rest
      else if c = closing then
        if depth - 1 = 0 then some offset else go (depth - 1) (offset + 1) rest
      else go depth (offset + 1) rest

/-- The characters that end a name. -/
def is_sigil (c : Char) : Bool :=
  c = '/' ∨ c = '#' ∨ c = '.' ∨ c = '!' ∨ c = '('

/-- One step of the descriptor loop: the descriptor at the head of `chars`, if it yields
one, and what is left; `none` where the loop breaks. -/
def next_descriptor (chars : List Char) : Option (Descriptor × List Char) :=
  match chars with
  | '[' :: inner =>
    (find_close '[' ']' chars).map fun close => (⟨inner.take (close - 1), .Dropped⟩, chars.drop (close + 1))
  | '(' :: inner =>
    (find_close '(' ')' chars).map fun close => (⟨inner.take (close - 1), .Dropped⟩, chars.drop (close + 1))
  | _ =>
    let name := chars.takeWhile fun c => !is_sigil c
    match chars.dropWhile fun c => !is_sigil c with
    -- A trailing bare name is a leaf.
    | [] => if name = [] then none else some (⟨name, .Term⟩, [])
    | '/' :: rest => some (⟨name, .Namespace⟩, rest)
    | '#' :: rest => some (⟨name, .Type⟩, rest)
    | '!' :: rest => some (⟨name, .Macro⟩, rest)
    | '(' :: rest =>
      (find_close '(' ')' ('(' :: rest)).map fun close =>
        let after := rest.drop close
        (⟨name, .Method⟩, if after.head? = some '.' then after.tail else after)
    | _ :: rest => some (⟨name, .Term⟩, rest)

/-- The descriptors of at most `fuel` steps. -/
def descriptors_within : Nat → List Char → List Descriptor
  | 0, _ => []
  | fuel + 1, chars =>
    match next_descriptor chars with
    | none => []
    | some (d, rest) => d :: descriptors_within fuel rest

/-- The typed descriptors of a tail. Each step takes a character, so the length of the
tail is fuel enough. -/
def parse_descriptors (tail : List Char) : List Descriptor :=
  descriptors_within tail.length tail

/-- Join names with `::`. -/
def join_names (names : List (List Char)) : String :=
  String.ofList ("::".toList.intercalate names)

/-- The names that a qualified name keeps. -/
def kept_names (descriptors : List Descriptor) : List (List Char) :=
  (descriptors.filter fun d => d.kind ≠ .Dropped).map Descriptor.name

/-- Re-emit a descriptor in wire form. -/
def render_descriptor (d : Descriptor) : List Char :=
  match d.kind with
  | .Namespace => d.name ++ ['/']
  | .Type => d.name ++ ['#']
  | .Method => d.name ++ ['(', ')', '.']
  | .Term => d.name ++ ['.']
  | .Macro => d.name ++ ['!']
  | .Dropped => []

/-! ### The rust-analyzer grammar -/

namespace rust

/-- The package, the version and the descriptors of a symbol. -/
def tokenize (symbol : String) : Option (List Char × List Char × List Descriptor) :=
  match splitn ' ' 5 symbol.toList with
  | _ :: _ :: package :: version :: rest =>
    if package = [] ∨ version = [] then none
    else some (package, version, parse_descriptors (rest.head?.getD []))
  | _ => none

/-- The crate-rooted name of a global symbol. -/
def map_symbol (symbol : String) : Option MappedSymbol :=
  if is_local symbol then none
  else
    (tokenize symbol).bind fun (package, version, descriptors) =>
      match kept_names descriptors with
      | [] => none
      | names =>
        let qname := join_names (package :: names)
        some ⟨qname, qname, String.ofList package, String.ofList version⟩

/-- The place of the last descriptor that satisfies `p`. -/
def rposition (p : Descriptor → Bool) (descriptors : List Descriptor) : Option Nat :=
  (descriptors.zipIdx.reverse.find? fun d => p d.1).map Prod.snd

/-- The symbol of the type around the final method, term or macro of a symbol. -/
def enclosing_type_symbol (symbol : String) : Option String := do
  let (_, _, descriptors) ← tokenize symbol
  let last_named ← rposition (fun d => d.kind = .Method ∨ d.kind = .Term ∨ d.kind = .Macro) descriptors
  let type_idx ← rposition (fun d => d.kind = .Type) (descriptors.take last_named)
  let before := (splitn ' ' 5 symbol.toList).take 4
  if before.length < 4 then none
  else
    some (String.ofList
      (" ".toList.intercalate before ++ [' '] ++
        (descriptors.take (type_idx + 1)).flatMap render_descriptor))

/-- A member of a trait is told by the kinds of its recorded enclosing symbol and of the
type its own descriptors put around it. -/
def classify (symbol : String) (kind_by_symbol : String → Option Int32)
    (enclosing_by_symbol : String → Option String) : SymClass :=
  if is_local symbol then .FreeOrInherent
  else if ((enclosing_by_symbol symbol).bind kind_by_symbol) = some SCIP_KIND_TRAIT then .TraitMember
  else if ((enclosing_type_symbol symbol).bind kind_by_symbol) = some SCIP_KIND_TRAIT then .TraitMember
  else .FreeOrInherent

end rust

/-! ### The scip-clang grammar -/

namespace cxx

/-- The placeholder of an empty package field. -/
def PLACEHOLDER : List Char := ['.']

def norm (field : List Char) : String :=
  if field = PLACEHOLDER then "" else String.ofList field

/-- The package, the version and the descriptor tail of a symbol. -/
def tokenize (symbol : String) : Option (String × String × List Char) :=
  match splitn ' ' 5 symbol.toList with
  | _ :: _ :: package :: version :: rest =>
    let tail := rest.head?.getD []
    if tail = [] then none else some (norm package, norm version, tail)
  | _ => none

/-- The signature-free name of a global symbol; its tail is the overload key. -/
def map_symbol (symbol : String) : Option MappedSymbol :=
  if is_local symbol then none
  else
    (tokenize symbol).bind fun (package, version, tail) =>
      match kept_names (parse_descriptors tail) with
      | [] => none
      | names => some ⟨join_names names, String.ofList tail, package, version⟩

def classify (symbol : String) (overridable : String → Bool) : SymClass :=
  if !is_local symbol ∧ overridable symbol then .VirtualMember else .FreeOrInherent

end cxx

example : (rust.map_symbol "rust-analyzer cargo cgx_core 0.1.0 cut/CutMarkers#iter().").map
    MappedSymbol.qname = some "cgx_core::cut::CutMarkers::iter" := by
  decide +kernel

end cgx.scip
