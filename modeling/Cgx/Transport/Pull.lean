import Cgx.Store.Objects

open cgx.store

namespace cgx.transport

def CGX_REF : String := "refs/cgx/index"

def CGX_REFSPEC : String := "+refs/cgx/*:refs/cgx/*"

/-- `Codec none` carries the decoder's own message. `Panic` stands for an abort of the
program. -/
inductive TransportError where
  | Git (command stderr : String)
  | Io
  | Codec (text : Option String)
  | Integrity (oid got : String)
  | RefAbsent (hint : String)
  | NonUtf8 (text : String)
  | RefContention
  | NothingIndexed
  | Panic
deriving DecidableEq

def ref_absent : TransportError :=
  .RefAbsent ("configure the fetch refspec (`cgx configure-remote`, or `git config --add remote.<remote>.fetch " ++
    CGX_REFSPEC ++ "`) and pull again")

/-! ### Where files are written -/

/-- The names on the way to a file from `.cgx`: behind `..` outside of it, behind `/` from
the root. -/
abbrev Location := List String

def descend (loc : Location) (name : List Char) : Location :=
  if name = [] ∨ name = ['.'] then loc
  else if name = ['.', '.'] then
    match loc.getLast? with
    | none | some ".." => loc ++ [".."]
    | some "/" => loc
    | some _ => loc.dropLast
  else loc ++ [String.ofList name]

/-- The file a path names below a directory. An absolute path replaces the directory. -/
def join (dir : Location) : List Char → Location
  | '/' :: path => (path.splitOn '/').foldl descend ["/"]
  | path => (path.splitOn '/').foldl descend dir

/-- The temporary file beside a file. -/
def tmp (loc : Location) : Location :=
  loc.dropLast ++ [loc.getLastD "" ++ ".tmp"]

/-! ### Git and the file system -/

/-- An entry of a published tree, and what `git cat-file` says of its blob. -/
structure TreeEntry (Bytes : Type) where
  path : String
  cat_file_blob : Except TransportError Bytes

/-- What git answers during a pull. -/
structure Git (Bytes : Type) where
  fetch : Except TransportError Unit
  ls_remote_has : Except TransportError Bool
  rev_parse : Except TransportError (Option String)
  ls_tree_r : Except TransportError (List (TreeEntry Bytes))

/-- What the file system answers: whether a file can be replaced, what is left of the
temporary file if not, and whether a batch can be made durable. -/
structure Host (Bytes : Type) where
  accepts : Location → Bytes → Bool
  leaves : Location → Option Bytes
  durable : Bool

/-- The files around a `.cgx`, and the replacements so far. -/
structure Clone (Bytes : Type) where
  files : Location → Option Bytes
  written : List (Location × Bytes)

variable {Bytes : Type}

/-- Replace a file through its temporary file. -/
def replace (files : Location → Option Bytes) (w : Location × Bytes) : Location → Option Bytes :=
  Function.update (Function.update files (tmp w.1) none) w.1 (some w.2)

def write (host : Host Bytes) (s : Clone Bytes) (w : Location × Bytes) : Clone Bytes × Except TransportError Unit :=
  if host.accepts w.1 w.2 then (⟨replace s.files w, s.written ++ [w]⟩, .ok ())
  else ({ s with files := Function.update s.files (tmp w.1) (host.leaves w.1) }, .error .Io)

/-! ### Pull -/

/-- The path of an object below `objects/`. -/
def object_rest (path : String) : Option (List Char) :=
  let objects := "objects/".toList
  if objects <+: path.toList then some (path.toList.drop objects.length) else none

/-- The oid an object's path spells. -/
def spelled_oid (rest : List Char) : String :=
  String.ofList (rest.filter fun a => a ≠ '/')

/-- What a pull counts and holds back while it writes the objects. -/
structure Progress (Bytes : Type) where
  objects_materialized : Nat
  graph_keys : Nat
  pointers : List (String × Bytes)

structure PullOutcome where
  objects_materialized : Nat
  graph_keys : Nat
deriving DecidableEq

variable (c : Codec Bytes) (host : Host Bytes)

/-- Verify and write the objects; the other entries are kept for later. -/
def write_objects (s : Clone Bytes) (done : Progress Bytes) :
    List (TreeEntry Bytes) → Clone Bytes × Except TransportError (Progress Bytes)
  | [] => (s, .ok done)
  | e :: tree =>
    match e.cat_file_blob with
    | .error err => (s, .error err)
    | .ok bytes =>
      match object_rest e.path with
      | some rest =>
        if c.of_bytes bytes ≠ spelled_oid rest then (s, .error (.Integrity (spelled_oid rest) (c.of_bytes bytes)))
        else
          match write host s (join ["objects"] rest, bytes) with
          | (s, .error err) => (s, .error err)
          | (s, .ok ()) =>
            write_objects s { done with objects_materialized := done.objects_materialized + 1 } tree
      | none =>
        let graph_keys := if "refs/".toList <+: e.path.toList then done.graph_keys + 1 else done.graph_keys
        write_objects s { done with graph_keys, pointers := done.pointers ++ [(e.path, bytes)] } tree

def write_pointers (s : Clone Bytes) : List (String × Bytes) → Clone Bytes × Except TransportError Unit
  | [] => (s, .ok ())
  | (path, bytes) :: rest =>
    match write host s (join [] path.toList, bytes) with
    | (s, .error err) => (s, .error err)
    | (s, .ok ()) => write_pointers s rest

/-- Fetch the index and write its objects, then its pointers. -/
def pull (git : Git Bytes) (files : Location → Option Bytes) : Clone Bytes × Except TransportError PullOutcome :=
  let s : Clone Bytes := ⟨files, []⟩
  match git.fetch with
  | .error err =>
    match git.ls_remote_has with
    | .ok false => (s, .error ref_absent)
    | _ => (s, .error err)
  | .ok () =>
    match git.rev_parse with
    | .error err => (s, .error err)
    | .ok none => (s, .error ref_absent)
    | .ok (some _) =>
      match git.ls_tree_r with
      | .error err => (s, .error err)
      | .ok tree =>
        match write_objects c host s ⟨0, 0, []⟩ tree with
        | (s, .error err) => (s, .error err)
        | (s, .ok done) =>
          if 0 < done.objects_materialized ∧ host.durable = false then (s, .error .Io)
          else
            match write_pointers host s done.pointers with
            | (s, .error err) => (s, .error err)
            | (s, .ok ()) => (s, .ok ⟨done.objects_materialized, done.graph_keys⟩)

end cgx.transport
