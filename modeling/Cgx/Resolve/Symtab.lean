import Cgx.Lib.SortBy
import Cgx.Resolve.Facts

open cgx.core cgx.frontend sorting

namespace cgx.resolve

/-- A definition's node and the attributes the link pass needs. -/
structure DefEntry where
  node_id : NodeId
  fqn : String
  kind : SymbolKind
  arity : Option UInt8
  lang : String
  file : String
deriving DecidableEq, Inhabited

/-- A local name bound to an exported name of a module. -/
structure ImportBinding where
  local_name : String
  exported : String
  specifier : String
  scope : ScopeId
  glob : Bool
deriving DecidableEq, Inhabited

/-- The last `::`-delimited segment of an FQN. -/
def short_name (fqn : String) : String :=
  match rsplit_once fqn.toList with
  | some (_, last) => String.ofList last
  | none => fqn

/-- Everything before the last `::` segment. -/
def module_prefix (fqn : String) : Option String :=
  (rsplit_once fqn.toList).map fun parts => String.ofList parts.1

/-- The symbol table. The source keeps the entries in maps by FQN, by short name
and by module; here those maps are the lookups below, over the entries in node
order. A later re-export of a key replaces an earlier one. -/
structure SymbolTable where
  entries : List DefEntry
  reexports : List ((String × String) × (String × String))
deriving DecidableEq, Inhabited

namespace SymbolTable

/-- The re-exports a file declares, under its module's last segment. -/
def record_reexports (module_seg : String) (facts : FileFacts) :
    List ((String × String) × (String × String)) :=
  ((facts.imports.filter ImportFact.re_export).flatMap fun imp =>
    imp.names.map fun n =>
      ((module_seg, n.alias_name.getD n.name), (imp.specifier, n.name))) ++
  facts.exports.filterMap fun exp =>
    exp.source.map fun source =>
      ((module_seg, exp.alias_name.getD exp.name), (source, exp.name))

def entry (n : NodeRecord) : DefEntry where
  node_id := n.id
  fqn := n.fqn
  kind := n.kind
  arity := n.signature.map fun s => UInt8.ofNat (min s.params.length 255)
  lang := n.lang
  file := n.file

def build (nodes : List NodeRecord) (files : List (String × FileFacts)) : SymbolTable where
  entries := nodes.map entry
  reexports := files.flatMap fun file => record_reexports file.1 file.2

/-- Exact FQN lookup; of several definitions the last one is kept. -/
def def_by_fqn (t : SymbolTable) (fqn : String) : Option DefEntry :=
  t.entries.reverse.find? fun d => d.fqn = fqn

/-- All definitions with a given short name, in node order. -/
def defs_by_short (t : SymbolTable) (name : String) : List DefEntry :=
  t.entries.filter fun d => short_name d.fqn = name

def reexport (t : SymbolTable) (key : String × String) : Option (String × String) :=
  (t.reexports.reverse.find? fun row => row.1 = key).map Prod.snd

end SymbolTable

/-- The result of a module-member lookup. -/
inductive ResolveOutcome where
  | Unique (hit : DefEntry)
  | Ambiguous (hits : List DefEntry)
  | None
deriving DecidableEq, Inhabited

def ResolveOutcome.of_hits : List DefEntry → ResolveOutcome
  | [] => .None
  | [hit] => .Unique hit
  | hits => .Ambiguous hits

/-- Drop every leading copy of a two- or three-character `./` or `../`. -/
def trim_start_matches (pat : List Char) : Nat → List Char → List Char
  | 0, cs => cs
  | fuel + 1, cs =>
    if pat.isPrefixOf cs then trim_start_matches pat fuel (cs.drop pat.length) else cs

/-- The last piece between the separators `/` and `.` that is not empty. `piece` is
the one being read, reversed, and `found` the last one found. -/
def last_piece (found piece : List Char) : List Char → List Char
  | [] => if piece = [] then found else piece.reverse
  | c :: cs =>
    if c = '/' ∨ c = '.' then last_piece (if piece = [] then found else piece.reverse) [] cs
    else last_piece found (c :: piece) cs

/-- The last segment of a path-style module specifier. -/
def path_segment (specifier : String) : String :=
  let cs := specifier.toList
  let cs := trim_start_matches ['.', '/'] cs.length cs
  let cs := trim_start_matches ['.', '.', '/'] cs.length cs
  match last_piece [] [] cs with
  | [] => specifier
  | seg => String.ofList seg

/-- The key of a module specifier in the re-export map. -/
def last_segment (specifier : String) : String :=
  match rsplit_once specifier.toList with
  | some (_, last) => String.ofList last
  | none => path_segment specifier

def strip_prefix (kw : String) (s : String) : Option String :=
  if kw.toList.isPrefixOf s.toList then some (String.ofList (s.toList.drop kw.length)) else none

/-- The module prefixes a specifier may stand for, most specific first. -/
def candidate_module_prefixes (specifier : String) : List String :=
  match rsplit_once specifier.toList with
  | some _ =>
    specifier :: ["crate::", "self::", "super::"].filterMap fun kw => strip_prefix kw specifier
  | none => [path_segment specifier]

/-- Keys of two names are looked up in lists of such keys. -/
instance lawful_keys : LawfulBEq (String × String) :=
  inferInstance

namespace SymbolTable

/-- The members called `name` of the module whose FQN is `m`. -/
def members_of (t : SymbolTable) (m name : String) : List DefEntry :=
  t.entries.filter fun d => module_prefix d.fqn = some m ∧ short_name d.fqn = name

/-- The members called `name` of all modules whose last segment is `last`, in node
order. -/
def members_by_suffix (t : SymbolTable) (last name : String) : List DefEntry :=
  t.entries.filter fun d =>
    ( module_prefix d.fqn).map short_name = some last ∧ short_name d.fqn = name

def resolve_in_prefixes (t : SymbolTable) (name : String) : List String → ResolveOutcome
  | [] => .None
  | m :: rest =>
    match ResolveOutcome.of_hits (t.members_of m name) with
    | .None =>
      match ResolveOutcome.of_hits (t.members_by_suffix (short_name m) name) with
      | .None => t.resolve_in_prefixes name rest
      | found => found
    | found => found

/-- One hop: the specifier as a module FQN, then by its last segment. -/
def resolve_member_direct (t : SymbolTable) (specifier name : String) : ResolveOutcome :=
  t.resolve_in_prefixes name (candidate_module_prefixes specifier)

def resolve_member_from (t : SymbolTable) :
    Nat → List (String × String) → String → String → ResolveOutcome
  | 0, _, _, _ => .None
  | fuel + 1, visited, spec, name =>
    match t.resolve_member_direct spec name with
    | .None =>
      let key := (last_segment spec, name)
      if key ∈ visited then .None
      else
        match t.reexport key with
        | some next => t.resolve_member_from fuel (key :: visited) next.1 next.2
        | none => .None
    | found => found

/-- Resolve a member, chasing re-exports until a hop repeats. Every hop but the last
uses up one re-export, which bounds the fuel. -/
def resolve_member (t : SymbolTable) (specifier name : String) : ResolveOutcome :=
  t.resolve_member_from (t.reexports.length + 2) [] specifier name

end SymbolTable

/-- The import bindings of one file, one entry per local name. -/
def collect_import_bindings (imports : List ImportFact) : List ImportBinding :=
  sort_by (compareLex (compareOn ImportBinding.local_name) (compareOn ImportBinding.specifier))
    (imports.flatMap fun imp =>
      if imp.glob then [⟨"", "", imp.specifier, imp.scope, true⟩]
      else imp.names.map fun n =>
        ⟨n.alias_name.getD n.name, n.name, imp.specifier, imp.scope, false⟩)

example : candidate_module_prefixes "crate::direct" = ["crate::direct", "direct"] := by decide

end cgx.resolve
