import Cgx.Lib.SortedMap
import Cgx.Transport.Pull

open cgx.store

namespace cgx.transport

/-! ### Trees -/

/-- A tree that mirrors the paths below `.cgx`. A blob stands for git's oid of it. -/
inductive TreeNode (Bytes : Type) where
  | mk (blobs : List (String × Bytes)) (dirs : List (String × TreeNode Bytes))

namespace TreeNode

variable {Bytes : Type}

def empty : TreeNode Bytes := .mk [] []

/-- Insert a blob below the directories of its path, which are made if they are missing. -/
def insert : TreeNode Bytes → List String → Bytes → TreeNode Bytes
  | t, [], _ => t
  | .mk blobs dirs, [name], blob => .mk (sorted_map.insert compare name blob blobs) dirs
  | .mk blobs dirs, head :: rest, blob =>
    let child := (sorted_map.get? compare head dirs).getD empty
    .mk blobs (sorted_map.insert compare head (child.insert rest blob) dirs)

/-- The blob at a path. -/
def lookup : TreeNode Bytes → List String → Option Bytes
  | _, [] => none
  | .mk blobs _, [name] => sorted_map.get? compare name blobs
  | .mk _ dirs, head :: rest => (sorted_map.get? compare head dirs).bind fun child => child.lookup rest

end TreeNode

/-- The names on a path. -/
def names (path : String) : List String :=
  (path.toList.splitOn '/').map String.ofList

/-! ### The committable set -/

variable {Bytes : Type}

/-- `String::from_utf8_lossy`: text is read as it is. -/
structure Lossy [Inhabited Bytes] (c : Codec Bytes) where
  from_utf8_lossy : Bytes → String
  from_text : ∀ b text, c.read_text b = some text → from_utf8_lossy b = text
  from_empty : from_utf8_lossy default = ""

/-- What a git command answers. It fails, but it does not abort the program. -/
abbrev Answer (α : Type) := Except { err : TransportError // err ≠ .Panic } α

/-- What git answers during a push: to storing a blob, to assembling the tree, to wrapping it
in a commit, to the attempts to advance the local ref, and to the push itself. -/
structure GitPush (Bytes : Type) where
  hash_object_w : Bytes → Answer Unit
  mktree : Answer Unit
  commit_tree : TreeNode Bytes → Answer String
  rev_parse : Nat → Answer (Option String)
  update_ref_cas : Nat → Answer Unit
  push : Answer Unit

section

variable [Inhabited Bytes] (c : Codec Bytes) (lossy : Lossy c) (files : StoreFiles Bytes)

/-- The objects a ref file keeps: its manifest and those the manifest names. A ref file
without an oid keeps none. -/
def ref_closure (bytes : Bytes) : Except TransportError (List String) :=
  let manifest_oid := line 0 (lossy.from_utf8_lossy bytes)
  if manifest_oid = "" then .ok []
  else
    match object_path manifest_oid with
    | .error _ => .error .Panic
    | .ok (head, rest) =>
      match files (.file .objects head rest) with
      | none => .error .Io
      | some bytes =>
        match c.decode_header bytes with
        | none => .error (.Codec none)
        | some store_format =>
          if store_format ≠ CURRENT_STORE_FORMAT then
            .error (.Codec (some ("manifest store_format " ++ toString store_format.toNat ++ " is not this cgx's (" ++
              toString CURRENT_STORE_FORMAT.toNat ++ ") — run `cgx index` before pushing")))
          else
            match c.decode_manifest bytes with
            | none => .error (.Codec none)
            | some m => .ok (manifest_oid :: m.referenced_oids)

/-- The objects all ref files keep, and the ref files. -/
def read_refs : List String → Except TransportError (List String × List (String × Bytes))
  | [] => .ok ([], [])
  | name :: rest =>
    match files (.ref name) with
    | none => .error .Io
    | some bytes =>
      match ref_closure c lossy files bytes with
      | .error err => .error err
      | .ok oids =>
        match read_refs rest with
        | .error err => .error err
        | .ok (closure, ref_files) => .ok (oids ++ closure, (name, bytes) :: ref_files)

variable (git : GitPush Bytes)

/-- Promote the objects of the closure. -/
def promote (root : TreeNode Bytes) : List String → Except TransportError (TreeNode Bytes)
  | [] => .ok root
  | oid :: rest =>
    match object_path oid with
    | .error _ => .error .Panic
    | .ok (head, tail) =>
      match files (.file .objects head tail) with
      | none => .error .Io
      | some bytes =>
        match git.hash_object_w bytes with
        | .error err => .error err.1
        | .ok () => promote (root.insert (names ("objects/" ++ head ++ "/" ++ tail)) bytes) rest

/-- Add the ref files. -/
def add_refs (root : TreeNode Bytes) : List (String × Bytes) → Except TransportError (TreeNode Bytes)
  | [] => .ok root
  | (name, bytes) :: rest =>
    match git.hash_object_w bytes with
    | .error err => .error err.1
    | .ok () => add_refs (root.insert (names ("refs/" ++ name)) bytes) rest

/-- Add the head pointer, if there is one. -/
def add_head (root : TreeNode Bytes) : Option Bytes → Except TransportError (TreeNode Bytes)
  | none => .ok root
  | some bytes =>
    match git.hash_object_w bytes with
    | .error err => .error err.1
    | .ok () => .ok (root.insert (names "HEAD.json") bytes)

/-- The tree and the count of promoted objects. `refs` are the names in the refs directory,
ascending, if there is one. -/
def build_committable_tree (refs : Option (List String)) (head : Option Bytes) :
    Except TransportError (TreeNode Bytes × Nat) := do
  let (oids, ref_files) ← read_refs c lossy files (refs.getD [])
  let closure := sorting.sort_by compare oids.dedup
  let root ← promote files git .empty closure
  let root ← add_refs git root ref_files
  let root ← add_head git root head
  match git.mktree with
  | .error err => .error err.1
  | .ok () => .ok (root, closure.length)

/-! ### Push -/

/-- Advance the local ref to the commit, from attempt `i` on. -/
def advance_ref (commit_oid : String) (i : Nat) : Nat → Except TransportError Bool
  | 0 => .error .RefContention
  | attempts + 1 =>
    match git.rev_parse i with
    | .error err => .error err.1
    | .ok current =>
      if current = some commit_oid then .ok false
      else
        match git.update_ref_cas i with
        | .ok () => .ok true
        | .error ⟨.Git _ _, _⟩ => advance_ref commit_oid (i + 1) attempts
        | .error err => .error err.1

structure PushOutcome where
  commit_oid : String
  ref_advanced : Bool
  objects_promoted : Nat
deriving DecidableEq

/-- What a push does: whether it moves the local ref, the tree it publishes under the
remote's ref, and what it returns. -/
structure Pushed (Bytes : Type) where
  moved : Bool
  published : Option (TreeNode Bytes)
  result : Except TransportError PushOutcome

def push (refs : Option (List String)) (head : Option Bytes) : Pushed Bytes :=
  match build_committable_tree c lossy files git refs head with
  | .error err => ⟨false, none, .error err⟩
  | .ok (tree, objects_promoted) =>
    if objects_promoted = 0 then ⟨false, none, .error .NothingIndexed⟩
    else
      match git.commit_tree tree with
      | .error err => ⟨false, none, .error err.1⟩
      | .ok commit_oid =>
        match advance_ref git commit_oid 0 8 with
        | .error err => ⟨false, none, .error err⟩
        | .ok ref_advanced =>
          match git.push with
          | .error err => ⟨ref_advanced, none, .error err.1⟩
          | .ok () => ⟨ref_advanced, some tree, .ok ⟨commit_oid, ref_advanced, objects_promoted⟩⟩

end

end cgx.transport
