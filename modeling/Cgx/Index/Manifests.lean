import Cgx.Frontend.Ctx
import Cgx.Resolve.Emit
import Cgx.Store.Objects

open cgx.frontend cgx.resolve sorting

namespace cgx.index

/-- One source file: its blob, its path, its bytes. -/
structure SourceFile where
  blob_oid : String
  rel_path : String
  content : List UInt8
deriving DecidableEq

/-! ### Directories -/

/-- The part of a path in front of its last separator. -/
def parent_dir (path : String) : String :=
  String.ofList ((path.toList.reverse.dropWhile (· != '/')).drop 1).reverse

/-- Whether `ancestor` is `descendant` or a directory above it. -/
def is_dir_ancestor (ancestor descendant : String) : Bool :=
  ancestor = "" || ancestor = descendant || (ancestor ++ "/").toList.isPrefixOf descendant.toList

/-- Whether the last segment of a path is `name`. -/
def is_named (path name : String) : Bool :=
  path = name || ("/" ++ name).toList.isSuffixOf path.toList

/-- The entry of the nearest directory above a file. -/
def nearest {α : Type} (by_dir : List (String × α)) (rel_path : String) : Option α :=
  (by_dir.foldl (fun best row =>
    if is_dir_ancestor row.1 (parent_dir rel_path) then
      match best with
      | some held => if row.1.utf8ByteSize ≤ held.1.utf8ByteSize then best else some row
      | none => some row
    else best) none).map Prod.snd

/-! ### Lines of a manifest -/

def is_quote (c : Char) : Bool :=
  c.toNat = 34 || c.toNat = 39

/-- A line without its `#` comment; inside a quoted value `#` stands for itself. -/
def strip_comment (in_str : Option Char) : List Char → List Char
  | [] => []
  | ch :: rest =>
    match in_str with
    | some q => ch :: strip_comment (if ch = q then none else some q) rest
    | none =>
      if is_quote ch then ch :: strip_comment (some ch) rest
      else if ch = '#' then []
      else ch :: strip_comment none rest

/-- The quoted value behind `key =`. -/
def key_value (line : List Char) (key : String) : Option String :=
  if '=' ∉ line then none
  else
    let lhs := line.takeWhile (· != '=')
    let rhs := store.trim ((line.dropWhile (· != '=')).drop 1)
    if store.trim lhs ≠ key.toList then none
    else
      match rhs with
      | first :: rest =>
        if rest ≠ [] ∧ is_quote first ∧ rest.getLast? = some first then some (String.ofList rest.dropLast) else none
      | [] => none

/-- The `name` under `[package]`; `in_package` tells whether the scan is in that table. -/
def package_name_in (in_package : Bool) : List (List Char) → Option String
  | [] => none
  | raw :: rest =>
    match store.trim (strip_comment none raw) with
    | [] => package_name_in in_package rest
    | c :: cs =>
      if c = '[' then package_name_in (c :: cs = "[package]".toList) rest
      else if in_package then (key_value (c :: cs) "name").or (package_name_in in_package rest)
      else package_name_in in_package rest

def parse_package_name (text : String) : Option String :=
  package_name_in false (store.lines text.toList)

/-- The part of a line in front of `//`. -/
def before_slashes : List Char → List Char
  | '/' :: '/' :: _ => []
  | c :: rest => c :: before_slashes rest
  | [] => []

def trim_quotes (s : List Char) : List Char :=
  ((s.dropWhile (·.toNat = 34)).reverse.dropWhile (·.toNat = 34)).reverse

/-- The path a `module` line of a `go.mod` names. -/
def go_module_line (raw : List Char) : Option String :=
  let line := store.trim (before_slashes raw)
  if "module".toList.isPrefixOf line then
    match line.drop 6 with
    | c :: rest =>
      if store.is_whitespace c then
        match trim_quotes (store.trim (c :: rest)) with
        | [] => none
        | path => some (String.ofList path)
      else none
    | [] => none
  else none

def parse_go_module (text : String) : Option String :=
  (store.lines text.toList).findSome? go_module_line

/-- A text, if the bytes are one. -/
def from_utf8 (content : List UInt8) : Option String :=
  String.fromUTF8? ⟨content.toArray⟩

/-! ### PackageMap -/

/-- The crate identifier of a cargo package. -/
def to_crate_ident (name : String) : String :=
  name.map fun c => if c = '-' then '_' else c

/-- The packages by the directory of their manifest. -/
abbrev PackageMap := List (String × String)

def PackageMap.from_sources (sources : List SourceFile) : PackageMap :=
  sources.foldl (fun by_dir src =>
    if is_named src.rel_path "Cargo.toml" then
      match (from_utf8 src.content).bind parse_package_name with
      | some name => upsert (parent_dir src.rel_path) (fun _ => to_crate_ident name) by_dir
      | none => by_dir
    else by_dir) []

def PackageMap.package_for (by_dir : PackageMap) (rel_path : String) : Option String :=
  nearest by_dir rel_path

/-! ### ManifestMap -/

/-- A directory and those above it. -/
def dirs_up : Nat → String → List String
  | 0, dir => [dir]
  | fuel + 1, dir => if dir = "" then [dir] else dir :: dirs_up fuel (parent_dir dir)

/-- Whether an `__init__.py` is in the directory or in one above it. -/
def dir_inside_importable_package (dir : String) (all_paths : List String) : Bool :=
  (dirs_up dir.length dir).any fun cur =>
    all_paths.contains (if cur = "" then "__init__.py" else cur ++ "/__init__.py")

/-- The directory from which Python modules are imported. -/
def python_import_root (dir : String) (all_paths : List String) : String :=
  let src := if dir = "" then "src" else dir ++ "/src"
  if all_paths.any fun p => (src ++ "/").toList.isPrefixOf p.toList then src else dir

/-- The top-level `"name"` of a JSON text, as the JSON parser finds it. -/
abbrev JsonName := List UInt8 → Option String

/-- What one manifest file declares. -/
def resolve (json_name : JsonName) (path : String) (content : List UInt8) (dir : String) (all_paths : List String) :
    Option ManifestInfo :=
  if is_named path "go.mod" then
    ((from_utf8 content).bind parse_go_module).map fun identity => ⟨.GoMod, some identity, dir⟩
  else if is_named path "package.json" then
    (json_name content).map fun identity => ⟨.PackageJson, some identity, dir⟩
  else if is_named path "pyproject.toml" || is_named path "setup.py" then
    if dir_inside_importable_package dir all_paths then none
    else some ⟨.PyProject, none, python_import_root dir all_paths⟩
  else none

/-- The manifests by their directory. -/
abbrev ManifestMap := List (String × ManifestInfo)

def path_order : SourceFile → SourceFile → Ordering :=
  compareOn SourceFile.rel_path

/-- The first manifest of each directory, in the order of the paths. -/
def ManifestMap.from_sources (json_name : JsonName) (sources : List SourceFile) : ManifestMap :=
  (sort_by path_order sources).foldl (fun by_dir src =>
    let dir := parent_dir src.rel_path
    if by_dir.any fun row => row.1 = dir then by_dir
    else
      match resolve json_name src.rel_path src.content dir (sources.map SourceFile.rel_path) with
      | some info => by_dir ++ [(dir, info)]
      | none => by_dir) []

def ManifestMap.manifest_for (by_dir : ManifestMap) (rel_path : String) : Option ManifestInfo :=
  nearest by_dir rel_path

example : PackageMap.package_for [("", "root"), ("crates/a", "a")] "crates/a/src/lib.rs" = some "a" := by decide

end cgx.index
