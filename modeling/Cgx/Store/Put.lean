import Cgx.Store.Reads

open cgx.core disk

namespace cgx.store

section

variable {Bytes : Type} {c : Codec Bytes} {U : Set Bytes}
  {key : String} {created_rev : Option String} {g : LinkedGraph} {sk : List UInt64}

/-! ### The files after a put -/

theorem ref_path_ne_blob (key : String) (b : Bytes) : ref_path c key ≠ blob_path c b := by
  intro heq
  cases heq

theorem ref_path_inj (hinj : Set.InjOn c.of_bytes U) {a b : String} (ha : c.as_bytes a ∈ U)
    (hb : c.as_bytes b ∈ U) (h : ref_path c a = ref_path c b) : a = b := by
  rw [ref_path, ref_path, Path.ref.injEq] at h
  have hbytes := hinj ha hb h
  have hread := c.read_as_bytes a
  rw [hbytes, c.read_as_bytes] at hread
  exact (Option.some.inj hread).symm

variable [Inhabited Bytes]

section

variable {files : StoreFiles Bytes} (hcheck : check_canonical g = .ok ())
  (hsk : stable_keys c.stable_key (g.nodes.map NodeRecord.fqn) = .ok sk)

include hcheck hsk

/-- What a put does to each file that is not temporary. -/
theorem files_put_graph {q : Path} (hq : Regular q) :
    (put_graph c (.start files) key created_rev g).1.files q =
      if q = ref_path c key then some (ref_contents c key created_rev g sk)
      else (write_blobs c (.start files, []) (put_objects c key created_rev g sk)).1.files q := by
  rw [put_graph_eq c (.start files) key created_rev hcheck hsk]
  simp only [Session.perform_all_files, run_commit]
  exact run_write_durable _ hq

/-- A put leaves its graph in place. -/
theorem put_graph_in_place (hinj : Set.InjOn c.of_bytes U)
    (hfiles : ∀ b ∈ put_objects c key created_rev g sk, ∀ e, files (blob_path c b) = some e → e ∈ U)
    (hput : ∀ b ∈ put_objects c key created_rev g sk, b ∈ U) :
    InPlace c (put_graph c (.start files) key created_rev g).1.files key created_rev g sk where
  objects b hb := by
    rw [files_put_graph hcheck hsk (regular_blob b), if_neg (ref_path_ne_blob key b).symm]
    exact files_write_blobs_mem hinj hput hfiles hb
  ref := by
    rw [files_put_graph hcheck hsk (regular_ref key), if_pos rfl]

/-- A put writes the objects of its graph and no others. -/
theorem put_graph_written (hinj : Set.InjOn c.of_bytes U)
    (hfiles : ∀ b ∈ put_objects c key created_rev g sk, ∀ e, files (blob_path c b) = some e → e ∈ U)
    (hput : ∀ b ∈ put_objects c key created_rev g sk, b ∈ U) :
    Written c (put_objects c key created_rev g sk) files
      (put_graph c (.start files) key created_rev g).1.files where
  other head rest hreg hother := by
    rw [files_put_graph hcheck hsk hreg, if_neg (by intro heq; cases heq)]
    exact files_write_blobs_other hreg hother _
  keep b hb e he hash := by
    have hU := hfiles b hb e he
    have hpath : blob_path c b = blob_path c e := blob_path_congr hash.symm
    rw [files_put_graph hcheck hsk (regular_blob b), if_neg (ref_path_ne_blob key b).symm]
    rw [hpath] at he ⊢
    exact files_write_blobs_keep hinj hput hU he

end

/-- A put that succeeds is of an accepted graph. -/
theorem put_graph_ok {s : Session Bytes} (h : (put_graph c s key created_rev g).2 = .ok ()) :
    check_canonical g = .ok () ∧
      ∃ sk, stable_keys c.stable_key (g.nodes.map NodeRecord.fqn) = .ok sk := by
  rw [put_graph] at h
  cases hcheck : check_canonical g with
  | error e =>
    rw [hcheck] at h
    cases h
  | ok _ =>
    cases hsk : stable_keys c.stable_key (g.nodes.map NodeRecord.fqn) with
    | error e =>
      rw [hcheck, hsk] at h
      cases h
    | ok sk => exact ⟨rfl, sk, rfl⟩

/-- Over any store contents: a graph in canonical form without a stable-key collision is
stored, and reads back exactly. A read of another key is the same as before, unless it
failed at an object of the new graph whose file was damaged or missing. A put that fails
changes no read. -/
theorem put_graph_then_read (hinj : Set.InjOn c.of_bytes U) (files : StoreFiles Bytes) (key : String)
    (created_rev : Option String) (g : LinkedGraph)
    (hfiles : ∀ head rest b, files (.file .objects head rest) = some b → b ∈ U)
    (hkey : c.as_bytes key ∈ U)
    (hput : ∀ sk, stable_keys c.stable_key (g.nodes.map NodeRecord.fqn) = .ok sk →
      ∀ b ∈ put_objects c key created_rev g sk, b ∈ U) :
    (check_canonical g = .ok () →
      (∃ sk, stable_keys c.stable_key (g.nodes.map NodeRecord.fqn) = .ok sk) →
      (put_graph c (.start files) key created_rev g).2 = .ok ()) ∧
    ((put_graph c (.start files) key created_rev g).2 = .ok () →
      read_graph c (put_graph c (.start files) key created_rev g).1.files key = .ok g ∧
      ∃ sk, stable_keys c.stable_key (g.nodes.map NodeRecord.fqn) = .ok sk ∧
        ∀ other, other ≠ key → c.as_bytes other ∈ U →
          Heals c files (put_objects c key created_rev g sk) (read_graph c files other)
            (read_graph c (put_graph c (.start files) key created_rev g).1.files other)) ∧
    ∀ e, (put_graph c (.start files) key created_rev g).2 = .error e →
      ∀ other, read_graph c (put_graph c (.start files) key created_rev g).1.files other =
        read_graph c files other := by
  refine ⟨?_, ?_, ?_⟩
  · intro hcheck ⟨sk, hsk⟩
    rw [put_graph_eq c (.start files) key created_rev hcheck hsk]
  · intro hok
    obtain ⟨hcheck, sk, hsk⟩ := put_graph_ok hok
    have hobjects : ∀ b ∈ put_objects c key created_rev g sk, ∀ e,
        files (blob_path c b) = some e → e ∈ U := fun b _ e he => hfiles _ _ e he
    refine ⟨(put_graph_in_place hcheck hsk hinj hobjects (hput sk hsk)).read_graph hcheck hsk,
      sk, hsk, ?_⟩
    intro other hne hother
    apply (put_graph_written hcheck hsk hinj hobjects (hput sk hsk)).read_graph
    rw [files_put_graph hcheck hsk (regular_ref other), if_neg]
    · exact files_write_blobs_other (regular_ref other) (fun b _ => ref_path_ne_blob other b) _
    · intro heq
      exact hne (ref_path_inj hinj hother hkey heq)
  · intro e he other
    rw [put_graph_error c he]
    rfl

end

/-! ### A store by example -/

namespace sample

/-- Contents, by what they encode. -/
inductive Content where
  | text (s : String)
  | shard (sh : Shard)
  | manifest (m : Manifest)
deriving DecidableEq

instance : Inhabited Content := ⟨.text ""⟩

def node : NodeRecord where
  id := ⟨0⟩
  kind := .Function
  fqn := "f"
  file := "f.rs"
  line_start := 1
  line_end := 1
  lang := "rust"
  visibility := .Public
  is_abstract := false
  entrypoint_kind := none
  signature := none
  own_effects := ⟨0⟩
  transitive_effects := ⟨0⟩
  unresolved_calls := 0
  external_calls := 0
  narrowing := ⟨0, 0, 0, 0, 0, 0, 0⟩

/-- A graph of one function. -/
def graph : LinkedGraph := ⟨[node], [], []⟩

def shard : Shard := ⟨[.of node], [], []⟩

def shard_oid : String := "4ede35c8fea70938f9286d2037db108afef0e45b"

/-- The manifest of `graph` under a key, and that of the empty graph. -/
def manifest (key : String) : Manifest := ⟨2, key, none, [⟨"f", shard_oid⟩]⟩

def empty_manifest (key : String) : Manifest := ⟨2, key, none, []⟩

/-- The digests of the contents that occur. -/
def digests : List (Content × String) :=
  [(.shard shard, shard_oid),
    (.text "a", "86f7e437faa5a7fce15d1ddcb9eaeaea377667b8"),
    (.text "b", "e9d71f5ee7c92d6dc9e92ffdad17b8bd49418f98"),
    (.text " a", "05186dbc2774b3f2f04c9d4a39f12a360e08bc97"),
    (.manifest (manifest "a"), "29857d4e0945c891a8f233b769a2e45e6273377e"),
    (.manifest (manifest "b"), "8a255b696acd53cdda9cd745c11aecbb92f3c393"),
    (.manifest (manifest " a"), "c501b6fd104c2daf0855fde5ba8f890e3ab7513c"),
    (.manifest (empty_manifest "a"), "20707c0024f6a08963b19a491a78bd294b9acd53")]

def digest (b : Content) : String :=
  ((digests.find? fun d => d.1 = b).map Prod.snd).getD "da39a3ee5e6b4b0d3255bfef95601890afd80709"

theorem digest_hex (b : Content) :
    (digest b).toList.length = 40 ∧ ∀ x ∈ (digest b).toList, is_hex x = true := by
  have hall : digests.all (fun d => d.2.toList.length = 40 ∧ d.2.toList.all is_hex) = true := by decide
  rw [digest, ← List.all_eq_true]
  cases hfind : digests.find? fun d => d.1 = b with
  | none => decide
  | some d => simpa using List.all_eq_true.mp hall d (List.mem_of_find?_eq_some hfind)

def codec : Codec Content where
  len
    | .text s => s.utf8ByteSize
    | .shard _ => 33
    | .manifest m => 4 + m.graph_key.utf8ByteSize + 43 * m.shards.length
  of_bytes := digest
  as_bytes := .text
  read_text
    | .text s => some s
    | _ => none
  encode_shard := .shard
  decode_shard
    | .shard sh => some sh
    | _ => none
  encode_manifest := .manifest
  decode_manifest
    | .manifest m => some m
    | _ => none
  decode_header
    | .manifest m => some m.store_format
    | _ => none
  stable_key fqn ord := if fqn = "f" ∧ ord = 0 then 7148732374036024318 else 0
  of_bytes_hex := digest_hex
  read_as_bytes _ := rfl
  decode_encode_shard _ := rfl
  decode_encode_manifest _ := rfl
  decode_header_encode _ := rfl

/-- The contents that occur; their digests differ. -/
def contents : Set Content := {b | b ∈ digests.map Prod.fst}

theorem injOn_contents : Set.InjOn codec.of_bytes contents := by
  have hall : ∀ a ∈ digests.map Prod.fst, ∀ b ∈ digests.map Prod.fst,
      digest a = digest b → a = b := by decide
  exact fun a ha b hb h => hall a ha b hb h

def no_files : StoreFiles Content := fun _ => none

theorem put_graph_then_read_one :
    read_graph codec (put_graph codec (.start no_files) "a" none graph).1.files "a" = .ok graph := by
  have hput : ∀ sk, stable_keys codec.stable_key (graph.nodes.map NodeRecord.fqn) = .ok sk →
      ∀ b ∈ put_objects codec "a" none graph sk, b ∈ contents := by
    intro sk hsk
    have heq : sk = [7148732374036024318] := by
      have hkeys : stable_keys codec.stable_key (graph.nodes.map NodeRecord.fqn) =
          .ok [7148732374036024318] := by decide
      rw [hkeys] at hsk
      exact (Except.ok.inj hsk).symm
    subst heq
    have hall : ∀ b ∈ put_objects codec "a" none graph [7148732374036024318],
        b ∈ digests.map Prod.fst := by decide
    exact hall
  have hround := put_graph_then_read injOn_contents no_files "a" none graph (by intro head rest b h; cases h)
    (by decide : Content.text "a" ∈ digests.map Prod.fst) hput
  exact (hround.2.1 (hround.1 (by decide) ⟨[7148732374036024318], by decide⟩)).1

/-- A store with `graph` under `b`, whose one shard was lost. -/
def damaged : StoreFiles Content :=
  (put_graph codec (.start no_files) "b" none graph).1.files.step
    (.remove (blob_path codec (.shard shard)) : StoreOp Content)

/-- A put under one key can heal the damaged graph of another. -/
theorem put_heals_another_key :
    Set.InjOn codec.of_bytes contents ∧
    (put_graph codec (.start damaged) "a" none graph).2 = .ok () ∧
    read_graph codec damaged "b" = .error (.Corrupt shard_oid) ∧
    read_graph codec (put_graph codec (.start damaged) "a" none graph).1.files "b" = .ok graph :=
  ⟨injOn_contents, by decide, by decide, by decide⟩

end sample

end cgx.store
