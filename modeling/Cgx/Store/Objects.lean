import Cgx.Lib.Disk
import Cgx.Store.Shard

open cgx.core sorting disk

namespace cgx.store

/-! ### Where files are -/

/-- The two content areas under the store's root. -/
inductive Area where
  | objects
  | fragments
deriving DecidableEq

/-- The directories of the store: the areas, their fan-out directories, and the refs. -/
inductive Dir where
  | area (a : Area)
  | fan (a : Area) (head : String)
  | refs
deriving DecidableEq

inductive Path where
  | file (a : Area) (head rest : String)
  | ref (name : String)
deriving DecidableEq

instance : Layout Path Dir where
  dir
    | .file a head _ => .fan a head
    | .ref _ => .refs
  up
    | .fan a _ => some (.area a)
    | _ => none

/-- The file written before it is renamed to the given path. -/
def Path.tmp : Path → Path
  | .file a head rest => .file a head (rest ++ ".tmp")
  | .ref name => .ref (name ++ ".tmp")

def Path.is_tmp : Path → Bool
  | .file _ _ rest => (".tmp".toList).isSuffixOf rest.toList
  | .ref name => (".tmp".toList).isSuffixOf name.toList

/-- Split behind the first two bytes, if a character ends there. -/
def split_at_two : List Char → Option (List Char × List Char)
  | a :: b :: rest =>
    if a.utf8Size = 2 then some ([a], b :: rest)
    else if a.utf8Size = 1 ∧ b.utf8Size = 1 then some ([a, b], rest)
    else none
  | [a] => if a.utf8Size = 2 then some ([a], []) else none
  | [] => none

/-- The fan-out directory and the file name of an oid. -/
def object_path (oid : String) : Except StoreError (String × String) :=
  match split_at_two oid.toList with
  | some (head, rest) => .ok (String.ofList head, String.ofList rest)
  | none => .error .Panic

/-! ### The text of a ref -/

/-- The Unicode `White_Space` property. -/
def is_whitespace (c : Char) : Bool :=
  (9 ≤ c.toNat && c.toNat ≤ 13) || c.toNat = 32 || c.toNat = 0x85 || c.toNat = 0xA0 ||
    c.toNat = 0x1680 || (0x2000 ≤ c.toNat && c.toNat ≤ 0x200A) || c.toNat = 0x2028 ||
    c.toNat = 0x2029 || c.toNat = 0x202F || c.toNat = 0x205F || c.toNat = 0x3000

def trim (s : List Char) : List Char :=
  ((s.dropWhile is_whitespace).reverse.dropWhile is_whitespace).reverse

/-- The lines of a text. The carriage return of a line ending is left to `trim`. -/
def lines : List Char → List (List Char)
  | [] => []
  | c :: rest =>
    if c = '\n' then [] :: lines rest
    else
      match lines rest with
      | [] => [[c]]
      | line :: others => (c :: line) :: others

/-- The `n`-th line, trimmed; empty if there is none. -/
def line (n : Nat) (text : String) : String :=
  String.ofList (trim ((lines text.toList)[n]?.getD []))

/-! ### Manifests -/

structure ShardEntry where
  fn_key : String
  oid : String
deriving DecidableEq, Inhabited

/-- The root object of one graph. -/
structure Manifest where
  store_format : UInt32
  graph_key : String
  created_rev : Option String
  shards : List ShardEntry
deriving DecidableEq, Inhabited

def CURRENT_STORE_FORMAT : UInt32 := 2

def Manifest.referenced_oids (m : Manifest) : List String :=
  m.shards.map ShardEntry.oid

def is_hex (c : Char) : Bool :=
  ('0' ≤ c && c ≤ '9') || ('a' ≤ c && c ≤ 'f')

/-- File contents with the codec, the hash and the stable-key function of the store:
encoded values decode, and an oid is the lowercase hex of a digest of 20 bytes. -/
structure Codec (Bytes : Type) where
  len : Bytes → Nat
  of_bytes : Bytes → String
  as_bytes : String → Bytes
  read_text : Bytes → Option String
  encode_shard : Shard → Bytes
  decode_shard : Bytes → Option Shard
  encode_manifest : Manifest → Bytes
  decode_manifest : Bytes → Option Manifest
  decode_header : Bytes → Option UInt32
  stable_key : String → UInt32 → UInt64
  of_bytes_hex : ∀ b, (of_bytes b).toList.length = 40 ∧ ∀ c ∈ (of_bytes b).toList, is_hex c
  read_as_bytes : ∀ s, read_text (as_bytes s) = some s
  decode_encode_shard : ∀ sh, decode_shard (encode_shard sh) = some sh
  decode_encode_manifest : ∀ m, decode_manifest (encode_manifest m) = some m
  decode_header_encode : ∀ m, decode_header (encode_manifest m) = some m.store_format

/-- The files of a store. -/
abbrev StoreFiles (Bytes : Type) := Files Path Bytes

abbrev StoreOp (Bytes : Type) := Op Path Dir Bytes

section

variable {Bytes : Type} [Inhabited Bytes] (c : Codec Bytes)

/-- The ref of a key. -/
def ref_path (key : String) : Path :=
  .ref (c.of_bytes (c.as_bytes key))

/-! ### Reading -/

/-- Read an object and verify it. -/
def read_object (files : StoreFiles Bytes) (oid : String) : Except StoreError Bytes := do
  let (head, rest) ← object_path oid
  match files (.file .objects head rest) with
  | none => .error (.Corrupt oid)
  | some bytes => if c.of_bytes bytes ≠ oid then .error (.Corrupt oid) else .ok bytes

/-- Decode the manifest object `oid`, behind its format gate. -/
def open_manifest (oid : String) (bytes : Bytes) : Except StoreError Manifest :=
  match c.decode_header bytes with
  | none => .error (.Corrupt oid)
  | some store_format =>
    if store_format > CURRENT_STORE_FORMAT then .error (.StoreFormat store_format CURRENT_STORE_FORMAT)
    else if store_format < CURRENT_STORE_FORMAT then .error (.Corrupt oid)
    else
      match c.decode_manifest bytes with
      | none => .error (.Corrupt oid)
      | some m => .ok m

/-- The text of a file. Contents that are not UTF-8 are an I/O error. -/
def read_if_exists (files : StoreFiles Bytes) (path : Path) : Except StoreError (Option String) :=
  match files path with
  | none => .ok none
  | some contents =>
    match c.read_text contents with
    | none => .error .Io
    | some text => .ok (some text)

/-- The manifest a key's ref names, if there is a ref. -/
def resolve_manifest (files : StoreFiles Bytes) (key : String) : Except StoreError (Option Manifest) := do
  match ← read_if_exists c files (ref_path c key) with
  | none => .ok none
  | some text =>
    let bytes ← read_object c files (line 0 text)
    let m ← open_manifest c (line 0 text) bytes
    .ok (some m)

/-- Decode the shard object `oid`, which must have its nodes in order. -/
def open_shard (oid : String) (bytes : Bytes) : Except StoreError (String × Shard) :=
  match c.decode_shard bytes with
  | none => .error (.Corrupt oid)
  | some sh => if sh.is_sorted then .ok (oid, sh) else .error (.Corrupt oid)

def load_shard (files : StoreFiles Bytes) (oid : String) : Except StoreError (String × Shard) := do
  let bytes ← read_object c files oid
  open_shard c oid bytes

/-- Read the graph of a key; a key without a ref reads as the empty graph. -/
def read_graph (files : StoreFiles Bytes) (key : String) : Except StoreError LinkedGraph := do
  match ← resolve_manifest c files key with
  | none => .ok .empty
  | some m =>
    let shards ← m.referenced_oids.mapM (load_shard c files)
    graph_of_shards c.stable_key shards

/-- Whether a graph is stored under the key. -/
def graph_for (files : StoreFiles Bytes) (key : String) : Bool :=
  (files (ref_path c key)).isSome

/-! ### Writing -/

/-- A run that holds the write lock: the files as it sees them, and its steps so far. -/
structure Session (Bytes : Type) where
  files : StoreFiles Bytes
  log : List (StoreOp Bytes)

namespace Session

def start (files : StoreFiles Bytes) : Session Bytes := ⟨files, []⟩

def perform (s : Session Bytes) (op : StoreOp Bytes) : Session Bytes :=
  ⟨s.files.step op, s.log ++ [op]⟩

def perform_all (s : Session Bytes) (ops : List (StoreOp Bytes)) : Session Bytes :=
  ops.foldl perform s

end Session

/-- The steps of an atomic replacement: create, write and flush the temporary file, then
rename it. -/
def write_tmp_then_rename (path : Path) (bytes : Bytes) : List (StoreOp Bytes) :=
  [.mkdir (Layout.dir path), .write path.tmp default, .write path.tmp bytes, .flush path.tmp,
    .rename path.tmp path]

/-- The fan-out directories a batch has written to, ascending. -/
abbrev Batch := List String

def Batch.insert (dirs : Batch) (head : String) : Batch :=
  if head ∈ dirs then dirs else sort_by compare (head :: dirs)

/-- The steps that make a batch durable: flush its directories, then the one above. -/
def Batch.commit (dirs : Batch) : List (StoreOp Bytes) :=
  match dirs with
  | [] => []
  | _ :: _ => dirs.map (fun head => .sync (.fan .objects head)) ++ [.sync (.area .objects)]

/-- The file found at an object's path is that object. -/
def is_intact (existing : Option Bytes) (bytes : Bytes) : Bool :=
  match existing with
  | some existing => c.len existing = c.len bytes && c.of_bytes existing = c.of_bytes bytes
  | none => false

/-- Write an object, unless the file at its path is intact. -/
def write_object (s : Session Bytes) (batch : Batch) (bytes : Bytes) :
    Session Bytes × Except StoreError (Batch × String) :=
  match object_path (c.of_bytes bytes) with
  | .error e => (s, .error e)
  | .ok (head, rest) =>
    let path : Path := .file .objects head rest
    if is_intact c (s.files path) bytes then (s, .ok (batch, c.of_bytes bytes))
    else (s.perform_all (write_tmp_then_rename path bytes), .ok (batch.insert head, c.of_bytes bytes))

/-- Write the shards in key order; returns their manifest entries. -/
def write_shards : Session Bytes → Batch → List (String × Shard) →
    Session Bytes × Except StoreError (Batch × List ShardEntry)
  | s, batch, [] => (s, .ok (batch, []))
  | s, batch, (fn_key, sh) :: rest =>
    match write_object c s batch (c.encode_shard sh) with
    | (s, .error e) => (s, .error e)
    | (s, .ok (batch, oid)) =>
      match write_shards s batch rest with
      | (s, .error e) => (s, .error e)
      | (s, .ok (batch, entries)) => (s, .ok (batch, ⟨fn_key, oid⟩ :: entries))

/-- Replace a file and make the replacement durable. -/
def write_durable (path : Path) (bytes : Bytes) : List (StoreOp Bytes) :=
  write_tmp_then_rename path bytes ++ [.sync (Layout.dir path)]

def ref_text (oid key : String) : String :=
  oid ++ "\n" ++ key ++ "\n"

/-- Store a graph under a key: the shards, the manifest, then the ref. -/
def put_graph (s : Session Bytes) (key : String) (created_rev : Option String) (g : LinkedGraph) :
    Session Bytes × Except StoreError Unit :=
  match check_canonical g with
  | .error e => (s, .error e)
  | .ok _ =>
    match stable_keys c.stable_key (g.nodes.map NodeRecord.fqn) with
    | .error e => (s, .error e)
    | .ok sk =>
      match write_shards c s [] (g.shards sk) with
      | (s, .error e) => (s, .error e)
      | (s, .ok (batch, shards)) =>
        let manifest := ⟨CURRENT_STORE_FORMAT, key, created_rev, shards⟩
        match write_object c s batch (c.encode_manifest manifest) with
        | (s, .error e) => (s, .error e)
        | (s, .ok (batch, oid)) =>
          let s := s.perform_all batch.commit
          (s.perform_all (write_durable (ref_path c key) (c.as_bytes (ref_text oid key))), .ok ())

/-! ### Pruning

Directory listings come in any order; `listing` stands for them. An entry that is no
longer there is skipped. -/

namespace Session

def present (s : Session Bytes) (p : Path) : Bool :=
  (s.files p).isSome

/-- Remove the listed files that `dead` selects. -/
def remove_where (s : Session Bytes) (dead : Path → Bool) (listing : List Path) : Session Bytes :=
  listing.foldl (fun s p => if s.present p && dead p then s.perform (.remove p) else s) s

end Session

def Path.is_ref : Path → Bool
  | .ref _ => true
  | .file .. => false

def Path.in_area (a : Area) : Path → Bool
  | .ref _ => false
  | .file b _ _ => a = b

/-- The oid an object's path stands for; a directory whose name has not two bytes and
a temporary file stand for none. -/
def Path.oid (a : Area) : Path → Option String
  | .ref _ => none
  | .file b head rest =>
    if a = b ∧ head.utf8ByteSize = 2 ∧ ¬ (Path.file b head rest).is_tmp then some (head ++ rest) else none

/-- Remove the temporary files, of the refs first. -/
def sweep_tmp (s : Session Bytes) (listing : List Path) : Session Bytes :=
  let s := s.remove_where (fun p => p.is_ref && p.is_tmp) listing
  let s := s.remove_where (fun p => p.in_area .objects && p.is_tmp) listing
  s.remove_where (fun p => p.in_area .fragments && p.is_tmp) listing

/-- Remove the refs whose key is not kept; returns how many went. -/
def drop_refs (keep : List String) : Session Bytes → List Path → Session Bytes × Except StoreError Nat
  | s, [] => (s, .ok 0)
  | s, p :: rest =>
    match read_if_exists c s.files p with
    | .error e => (s, .error e)
    | .ok none => drop_refs keep s rest
    | .ok (some text) =>
      if line 1 text ∈ keep then drop_refs keep s rest
      else
        let (s, removed) := drop_refs keep (s.perform (.remove p)) rest
        (s, removed.map (· + 1))

/-- What a manifest keeps alive: `none` if it is of a newer format, nothing if it is not
readable. -/
def manifest_oids (files : StoreFiles Bytes) (oid : String) : Except StoreError (Option (List String)) :=
  match read_object c files oid with
  | .error .Panic => .error .Panic
  | .error _ => .ok (some [])
  | .ok bytes =>
    match c.decode_header bytes with
    | none => .ok (some [])
    | some store_format =>
      if store_format > CURRENT_STORE_FORMAT then .ok none
      else if store_format < CURRENT_STORE_FORMAT then .ok (some [])
      else .ok (some (((c.decode_manifest bytes).map Manifest.referenced_oids).getD []))

/-- The oids the refs keep alive, or `none` if a manifest is of a newer format. -/
def live_oids (files : StoreFiles Bytes) : List Path → Except StoreError (Option (List String))
  | [] => .ok (some [])
  | p :: rest =>
    match read_if_exists c files p with
    | .error e => .error e
    | .ok none => live_oids files rest
    | .ok (some text) =>
      match manifest_oids c files (line 0 text) with
      | .error e => .error e
      | .ok none => .ok none
      | .ok (some oids) =>
        match live_oids files rest with
        | .error e => .error e
        | .ok none => .ok none
        | .ok (some live) => .ok (some (line 0 text :: oids ++ live))

/-- Remove every graph whose key is not kept, then every object that no ref keeps alive. -/
def prune_graphs_except (s : Session Bytes) (listing : List Path) (keep : List String) :
    Session Bytes × Except StoreError Nat :=
  let refs := listing.filter Path.is_ref
  let (s, dropped) := drop_refs c keep (sweep_tmp s listing) refs
  match dropped with
  | .error e => (s, .error e)
  | .ok removed =>
    match live_oids c s.files refs with
    | .error e => (s, .error e)
    | .ok none => (s, .ok removed)
    | .ok (some live) =>
      (s.remove_where (fun p => (p.oid .objects).any fun oid => oid ∉ live) listing, .ok removed)

/-- What a prune removed. -/
structure PruneStats where
  fragments_removed : Nat
  graphs_removed : Nat
  compacted : Bool
deriving DecidableEq

/-- Remove the fragments that are not live. -/
def prune (s : Session Bytes) (listing : List Path) (live : List String) (aggressive : Bool) :
    Session Bytes × PruneStats :=
  let dead (p : Path) : Bool := (p.oid .fragments).any fun oid => oid ∉ live
  (s.remove_where dead listing, ⟨listing.countP fun p => s.present p && dead p, 0, aggressive⟩)

end

end cgx.store
