import Mathlib.Data.Finset.Basic
import Cgx.Lib.Loops
import Cgx.Frontend.Facts
import Cgx.Resolve.Symtab

open cgx.frontend.facts cgx.resolve guarded

namespace cgx.receiver.names

/-! ### Import bindings -/

/-- A canonical import spec, joined by `::`. A relative spec is always in the repository. -/
structure Spec where
  path : String
  relative : Bool
deriving DecidableEq

/-- What an import of a file binds a name to. -/
inductive Target where
  | Module (spec : Spec)
  | Member (spec : Spec) (name : String)
  | ModuleOrMember (spec : Spec) (name : String)
deriving DecidableEq

namespace Target

def spec : Target → Spec
  | .Module s => s
  | .Member s _ => s
  | .ModuleOrMember s _ => s

/-- The member that is imported. -/
def member : Target → Option String
  | .Module _ => none
  | .Member _ n => some n
  | .ModuleOrMember _ n => some n

end Target

/-- The import bindings of a file, by local name, and its glob imports. -/
structure FileScope where
  module_path : Option String
  lang : String
  bindings : List (String × List Target)
  globs : List Spec

/-- What a file binds a name to. -/
def FileScope.bound (fs : FileScope) (name : String) : List Target :=
  (fs.bindings.lookup name).getD []

/-! ### Language rules -/

/-- The names that stand for a class outside of the repository without an import. -/
structure LangRules where
  builtin_types : List String

def PYTHON : LangRules where
  builtin_types := [
    "object", "type", "int", "float", "complex", "bool", "str", "bytes", "bytearray", "memoryview", "list",
    "tuple", "dict", "set", "frozenset", "range", "slice", "property", "staticmethod", "classmethod", "super",
    "enumerate", "zip", "map", "filter", "reversed", "BaseException", "BaseExceptionGroup", "Exception",
    "ExceptionGroup", "ArithmeticError", "AssertionError", "AttributeError", "BufferError", "EOFError",
    "FloatingPointError", "GeneratorExit", "ImportError", "ModuleNotFoundError", "IndexError", "KeyError",
    "KeyboardInterrupt", "LookupError", "MemoryError", "NameError", "NotImplementedError", "OSError",
    "IOError", "EnvironmentError", "OverflowError", "RecursionError", "ReferenceError", "RuntimeError",
    "StopIteration", "StopAsyncIteration", "SyntaxError", "IndentationError", "TabError", "SystemError",
    "SystemExit", "TypeError", "UnboundLocalError", "UnicodeError", "UnicodeEncodeError",
    "UnicodeDecodeError", "UnicodeTranslateError", "ValueError", "ZeroDivisionError", "BlockingIOError",
    "ChildProcessError", "ConnectionError", "BrokenPipeError", "ConnectionAbortedError",
    "ConnectionRefusedError", "ConnectionResetError", "FileExistsError", "FileNotFoundError",
    "InterruptedError", "IsADirectoryError", "NotADirectoryError", "PermissionError", "ProcessLookupError",
    "TimeoutError", "Warning", "UserWarning", "DeprecationWarning", "PendingDeprecationWarning",
    "SyntaxWarning", "RuntimeWarning", "FutureWarning", "ImportWarning", "UnicodeWarning", "BytesWarning",
    "ResourceWarning", "EncodingWarning"]

def GO : LangRules where
  builtin_types := [
    "error", "string", "bool", "byte", "rune", "int", "int8", "int16", "int32", "int64", "uint", "uint8",
    "uint16", "uint32", "uint64", "uintptr", "float32", "float64", "complex64", "complex128", "any",
    "comparable"]

def rules (lang : String) : Option LangRules :=
  if lang = "python" then some PYTHON
  else if lang = "go" then some GO
  else none

/-! ### Resolutions -/

/-- The resolution of a dotted name. -/
inductive Resolved where
  | Class (ids : Finset UInt32)
  | Module (path : String)
  | NonClass
  | External
  | Dynamic
  | NotFound
deriving DecidableEq

/-- The modules an import spec stands for. -/
inductive InRepo where
  | Exact (m : String)
  | Suffix (ms : List String)
  | Missing
  | External
deriving DecidableEq

/-- The union of several bindings of a name: classes merge, any disagreement is `NotFound`. -/
def join (acc : Option Resolved) (r : Resolved) : Option Resolved :=
  some (match acc with
    | none => r
    | some (.Class a) =>
      match r with
      | .Class b => .Class (a ∪ b)
      | _ => .NotFound
    | some prev => if prev = r then prev else .NotFound)

/-- As `join`, ignoring candidates that do not provide the name at all. -/
def join_found (acc : Option Resolved) (r : Resolved) : Option Resolved :=
  if r ≠ .NotFound then join acc r else acc

/-- The classes by name, and the symbol table. -/
structure Defs where
  class_ids : List (String × UInt32)
  table : SymbolTable

/-- The modules of a repository of `n` files: the files of each module, the modules with each
last segment, and the sources of each value bound at the level of a module. -/
structure ModuleIndex (n : Nat) where
  modules : List (String × List (Fin n))
  by_last : List (String × List String)
  files : Fin n → FileScope
  values : List ((String × String) × List ValueSource)

/-- `a` is a prefix of `b`. -/
def starts_with (b a : String) : Bool :=
  a.toList.isPrefixOf b.toList

def ends_with (b a : String) : Bool :=
  a.toList.isSuffixOf b.toList

namespace ModuleIndex

variable {n : Nat} (idx : ModuleIndex n)

def contains_module (m : String) : Bool :=
  (idx.modules.lookup m).isSome

def files_of (m : String) : List (Fin n) :=
  (idx.modules.lookup m).getD []

/-- A spec may name a module below its root, or start above the root of a module. -/
def in_repo (spec : Spec) : InRepo :=
  if idx.contains_module spec.path then .Exact spec.path
  else if spec.relative then .Missing
  else
    let hits := ((idx.by_last.lookup (short_name spec.path)).getD []).filter fun m =>
      ends_with m ("::" ++ spec.path) || ends_with spec.path ("::" ++ m)
    if hits = [] then .External else .Suffix hits

/-! ### Which modules could serve a member -/

/-- `m` has a definition or a submodule of the name. -/
def provides (d : Defs) (m name : String) : Bool :=
  (d.table.def_by_fqn (m ++ "::" ++ name)).isSome || idx.contains_module (m ++ "::" ++ name)

/-- `m` defines or binds the name as a value, has such a submodule, or answers any name. -/
def offers (d : Defs) (m name : String) : Bool :=
  idx.provides d m name || idx.provides d m "__getattr__" || (idx.values.lookup (m, name)).isSome

/-- What `may_serve` looks at behind the definitions of a module: `none` is an import that
serves at once, `some` a module to look through. -/
def attempts (m name : String) (spec : Spec) : List (Option String) :=
  (idx.files_of m).flatMap fun f =>
    let fs := idx.files f
    (((fs.bound name).map Target.spec).filter fun s => s ≠ spec).map (fun _ => none) ++
      (fs.globs.filter fun g => g ≠ spec).map fun g =>
        match idx.in_repo g with
        | .Exact m' => some m'
        | _ => none

/-- The first attempt that serves ends the search. -/
def any_serves (visit : String → List String → Bool × List String) :
    List (Option String) → List String → Bool × List String
  | [], visited => (false, visited)
  | none :: _, visited => (true, visited)
  | some m :: rest, visited =>
    match visit m visited with
    | (true, visited) => (true, visited)
    | (false, visited) => any_serves visit rest visited

/-- Whether a module could provide `name` if it were the target of `spec`, with the modules
visited. -/
def serve_from (d : Defs) (name : String) (spec : Spec) : Nat → String → List String → Bool × List String
  | 0, _, visited => (false, visited)
  | fuel + 1, m, visited =>
    if m ∈ visited then (false, visited)
    else if idx.offers d m name then (true, m :: visited)
    else any_serves (serve_from d name spec fuel) (idx.attempts m name spec) (m :: visited)

/-- A visit opens a module of the index that is not visited, so the search never runs out of
fuel. -/
def may_serve (d : Defs) (m name : String) (spec : Spec) : Bool :=
  (idx.serve_from d name spec (idx.modules.length + 2) m []).1

/-! ### The mutually recursive functions -/

/-- The functions that share the guard, each with its arguments. -/
inductive Call where
  | Target (t : Target) (rest : List String)
  | Spec (spec : Spec) (path : List String)
  | In (m : String) (path : List String)
  | Value (fqn : String) (rest : List String)
deriving DecidableEq

/-- A pair of the guard: a module and a name. -/
abbrev Pair := String × String

abbrev Run := Calls Pair Call Resolved

def resolve_target (t : Target) (rest : List String) : Run Resolved :=
  let member (s : Spec) (name : String) : Run Resolved := call (.Spec s (name :: rest))
  match t with
  | .Module s => call (.Spec s rest)
  | .Member s name => member s name
  | .ModuleOrMember s name => do
    let as_module ← call (.Spec s rest)
    let m ← member s name
    pure (if m = .NotFound then as_module else if m = as_module then m else .NotFound)

def resolve_spec (d : Defs) (spec : Spec) (path : List String) : Run Resolved :=
  match idx.in_repo spec with
  | .Exact m => call (.In m path)
  | .Suffix ms => do
    let acc ← loop join_found (fun m => call (.In m path)) ms none
    pure (acc.getD (match path with
      | [] => .NotFound
      | name :: _ => if ms.any fun m => idx.may_serve d m name spec then .NotFound else .External))
  | .Missing => pure .NotFound
  | .External => pure .External

/-- The definition at `fqn`, then the nested `rest`. `value` resolves a value of a module. -/
def def_at {μ : Type → Type} [Monad μ] (d : Defs) (value : String → List String → μ Resolved) (fqn : String)
    (rest : List String) : μ (Option Resolved) :=
  match d.class_ids.lookup fqn with
  | some c =>
    if rest = [] then pure (some (.Class {c}))
    else
      match d.class_ids.lookup (fqn ++ "::" ++ "::".intercalate rest) with
      | some c => pure (some (.Class {c}))
      | none => pure (some .NonClass)
  | none =>
    match d.table.def_by_fqn fqn with
    | none => pure none
    | some _ => do
      let r ← value fqn rest
      pure (some r)

/-- `path` inside of a module: its definition, its submodule, its explicit imports, then its
glob imports. -/
def resolve_in (d : Defs) (m : String) (path : List String) : Run Resolved :=
  match path with
  | [] => pure (.Module m)
  | name :: rest => do
    let fqn := m ++ "::" ++ name
    match ← def_at d (fun fqn rest => call (.Value fqn rest)) fqn rest with
    | some r => pure r
    | none =>
      if idx.contains_module fqn then call (.In fqn rest)
      else do
        guard_key (m, name) .NotFound
        let files := idx.files_of m
        let targets := files.flatMap fun f => (idx.files f).bound name
        let acc ← loop join (fun t => call (.Target t rest)) targets none
        match acc with
        | some r => pure r
        | none => do
          let globs := files.flatMap fun f => (idx.files f).globs
          let acc ← loop join_found (fun g => call (.Spec g path)) globs none
          pure (acc.getD .NotFound)

/-- What one binding site of a value of `m` resolves to. -/
def resolve_source (m : String) (rest : List String) (src : ValueSource) : Run Resolved :=
  match src with
  | .Var x => call (.In m (x :: rest))
  | .Call callee =>
    if rest = [] then do
      let r ← call (.In m callee)
      pure (if r = .External ∨ r = .Dynamic then .Dynamic else .NonClass)
    else pure .NonClass
  | _ => pure .NonClass

/-- A value of a module: the join over its binding sites. -/
def value_at (fqn : String) (rest : List String) : Run Resolved :=
  match core.rsplit_once fqn.toList with
  | none => pure .NonClass
  | some (m, var) =>
    let key := (String.ofList m, String.ofList var)
    match idx.values.lookup key with
    | none => pure .NonClass
    | some srcs => do
      guard_key (key.1, "=" ++ key.2) .NotFound
      let acc ← loop join (resolve_source key.1 rest) srcs none
      pure (acc.getD .NonClass)

def body (d : Defs) (c : Call) : Prog Pair Call Resolved :=
  Calls.body (match c with
    | .Target t rest => resolve_target t rest
    | .Spec s path => idx.resolve_spec d s path
    | .In m path => idx.resolve_in d m path
    | .Value fqn rest => idx.value_at fqn rest)

/-- A call with a guard of its own. -/
def fresh (scope : Scope) (d : Defs) (fuel : Nat) (c : Call) : Option Resolved :=
  (evaluate scope (idx.body d) fuel c []).map Outcome.value

/-! ### Names of a file -/

/-- A container and those around it, out to the module. Both lengths are of prefixes of one
text. -/
def containers (module_len : Nat) : Nat → List Char → List String
  | 0, _ => []
  | fuel + 1, scope =>
    String.ofList scope ::
      if module_len < scope.length then
        match core.rsplit_once scope with
        | some (parent, _) => containers module_len fuel parent
        | none => []
      else []

/-- The containers whose names are seen from `scope_fqn`. A method does not see the names of
the bodies of the classes around it. -/
def visible (d : Defs) (fs : FileScope) (scope_fqn : String) : List String :=
  match fs.module_path.filter fun m => starts_with scope_fqn m with
  | none => []
  | some m =>
    (containers m.toList.length (scope_fqn.toList.length + 1) scope_fqn.toList).filter fun scope =>
      !(decide (scope ≠ scope_fqn) && (d.class_ids.lookup scope).isSome)

/-- Resolve a dotted name as written in a file, inside of the container `scope_fqn`: the
definitions of the file, innermost container first, its import bindings, its glob imports,
the builtins of its language. `lookup` is a call with a guard of its own. -/
def resolve_name (d : Defs) (lookup : Call → Option Resolved) (file : Fin n) (scope_fqn : String)
    (path : List String) : Option Resolved :=
  let fs := idx.files file
  match path with
  | [] => some .NotFound
  | head :: rest => do
    let lexical ← (visible d fs scope_fqn).findSomeM? fun scope =>
      def_at d (fun fqn rest => lookup (.Value fqn rest)) (scope ++ "::" ++ head) rest
    match lexical, fs.bindings.lookup head with
    | some r, _ => some r
    | none, some targets => do
      let acc ← loop join (fun t => lookup (.Target t rest)) targets none
      some (acc.getD .NotFound)
    | none, none => do
      let acc ← loop join_found (fun g => lookup (.Target (.Module g) path)) fs.globs none
      some (acc.getD (match rules fs.lang with
        | some r => if head ∈ r.builtin_types then .External else .NotFound
        | none => .NotFound))

/-- One guard per lookup, shared by everything the lookup calls. -/
def resolve_name_in_file (d : Defs) (fuel : Nat) (file : Fin n) (scope_fqn : String) (path : List String) :
    Option Resolved :=
  idx.resolve_name d (idx.fresh .Shared d fuel) file scope_fqn path

/-- The reference: the guard holds the pairs that are open on the branch. -/
def resolve_name_by_branch (d : Defs) (fuel : Nat) (file : Fin n) (scope_fqn : String) (path : List String) :
    Option Resolved :=
  idx.resolve_name d (idx.fresh .Branch d fuel) file scope_fqn path

end ModuleIndex

end cgx.receiver.names
