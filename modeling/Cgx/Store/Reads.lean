import Cgx.Store.Rebuild
import Cgx.Store.Writes

open cgx.core disk results

namespace cgx.store

variable {Bytes : Type} {c : Codec Bytes} {files : StoreFiles Bytes}

/-! ### Reading objects -/

/-- An object that reads is the file at its path. -/
theorem read_object_ok_iff {oid : String} {b : Bytes} :
    read_object c files oid = .ok b ↔ c.of_bytes b = oid ∧ files (blob_path c b) = some b := by
  rw [read_object, bind_ok_iff]
  constructor
  · rintro ⟨⟨head, rest⟩, hpath, hread⟩
    cases hfile : files (.file .objects head rest) with
    | none => simp [hfile] at hread
    | some bytes =>
      simp only [hfile] at hread
      split at hread
      · cases hread
      · rename_i hash
        cases hread
        rw [not_not] at hash
        refine ⟨hash, ?_⟩
        rw [← hash, object_path_of_bytes] at hpath
        cases hpath
        exact hfile
  · rintro ⟨hash, hfile⟩
    subst hash
    refine ⟨_, object_path_of_bytes c b, ?_⟩
    have hfile : files (.file .objects (String.ofList ((c.of_bytes b).toList.take 2))
        (String.ofList ((c.of_bytes b).toList.drop 2))) = some b := hfile
    simp [hfile]

theorem read_object_of_path {oid head rest : String} (hpath : object_path oid = .ok (head, rest))
    (hfile : ∀ b, files (.file .objects head rest) = some b → c.of_bytes b ≠ oid) :
    read_object c files oid = .error (.Corrupt oid) := by
  simp only [read_object, hpath, except_bind_ok]
  cases h : files (.file .objects head rest) with
  | none => rfl
  | some b => simp only [ne_eq, hfile b h, not_false_eq_true, if_true]

/-- Files that agree on an object's path read it alike. -/
theorem read_object_congr {files' : StoreFiles Bytes} {oid : String}
    (h : ∀ head rest, object_path oid = .ok (head, rest) →
      files' (.file .objects head rest) = files (.file .objects head rest)) :
    read_object c files' oid = read_object c files oid := by
  rw [read_object, read_object]
  cases hpath : object_path oid with
  | error e => rfl
  | ok path => simp only [except_bind_ok, h path.1 path.2 hpath]

/-! ### A stored graph reads back -/

/-- The objects and the ref of a graph are in place. -/
structure InPlace (c : Codec Bytes) (files : StoreFiles Bytes) (key : String) (created_rev : Option String)
    (g : LinkedGraph) (sk : List UInt64) : Prop where
  objects : ∀ b ∈ put_objects c key created_rev g sk, files (blob_path c b) = some b
  ref : files (ref_path c key) = some (ref_contents c key created_rev g sk)

section

variable {key : String} {created_rev : Option String} {g : LinkedGraph} {sk : List UInt64}

theorem manifest_mem_put_objects :
    c.encode_manifest (manifest_of c key created_rev g sk) ∈ put_objects c key created_rev g sk :=
  List.mem_append_right _ (List.mem_singleton.mpr rfl)

theorem shard_mem_put_objects {sh : String × Shard} (h : sh ∈ g.shards sk) :
    c.encode_shard sh.2 ∈ put_objects c key created_rev g sk :=
  List.mem_append_left _ (List.mem_map_of_mem h)

theorem open_manifest_manifest_of (oid : String) :
    open_manifest c oid (c.encode_manifest (manifest_of c key created_rev g sk)) =
      .ok (manifest_of c key created_rev g sk) := by
  rw [open_manifest, c.decode_header_encode]
  simp [manifest_of, c.decode_encode_manifest]

theorem read_ref (h : files (ref_path c key) = some (ref_contents c key created_rev g sk)) :
    read_if_exists c files (ref_path c key) =
      .ok (some (ref_text (c.of_bytes (c.encode_manifest (manifest_of c key created_rev g sk))) key)) := by
  simp only [read_if_exists, h, ref_contents, c.read_as_bytes]

theorem InPlace.resolve_manifest (h : InPlace c files key created_rev g sk) :
    resolve_manifest c files key = .ok (some (manifest_of c key created_rev g sk)) := by
  have hread : read_object c files (c.of_bytes (c.encode_manifest (manifest_of c key created_rev g sk))) =
      .ok (c.encode_manifest (manifest_of c key created_rev g sk)) :=
    read_object_ok_iff.mpr ⟨rfl, h.objects _ manifest_mem_put_objects⟩
  rw [store.resolve_manifest, read_ref h.ref, except_bind_ok]
  simp only [line_zero_ref_text, hread, except_bind_ok, open_manifest_manifest_of]

theorem open_shard_shard (hcanon : Canonical g) {sh : String × Shard} (hsh : sh ∈ g.shards sk)
    (oid : String) : open_shard c oid (c.encode_shard sh.2) = .ok (oid, sh.2) := by
  obtain ⟨key, _, rfl⟩ := List.mem_map.mp hsh
  rw [open_shard, c.decode_encode_shard]
  simp only [shard_is_sorted hcanon key, if_true]

theorem InPlace.load_shards (h : InPlace c files key created_rev g sk) (hcanon : Canonical g) :
    (manifest_of c key created_rev g sk).referenced_oids.mapM (load_shard c files) =
      .ok ((g.shards sk).map fun sh => (c.of_bytes (c.encode_shard sh.2), sh.2)) := by
  rw [Manifest.referenced_oids, manifest_of, List.map_map]
  apply mapM_map_ok
  intro sh hsh
  have hread : read_object c files (c.of_bytes (c.encode_shard sh.2)) = .ok (c.encode_shard sh.2) :=
    read_object_ok_iff.mpr ⟨rfl, h.objects _ (shard_mem_put_objects hsh)⟩
  rw [load_shard]
  simp only [Function.comp_apply, hread, except_bind_ok, open_shard_shard hcanon hsh]

theorem shardsOf_named (name : Shard → String) :
    ShardsOf g sk ((g.shards sk).map fun sh => (name sh.2, sh.2)) := by
  rw [ShardsOf, LinkedGraph.shards, List.map_map, List.map_map]
  rfl

/-- A graph whose files are in place reads as it was written. -/
theorem InPlace.read_graph (h : InPlace c files key created_rev g sk)
    (hcheck : check_canonical g = .ok ())
    (hsk : stable_keys c.stable_key (g.nodes.map NodeRecord.fqn) = .ok sk) :
    read_graph c files key = .ok g := by
  have hcanon := canonical_of_check hcheck
  rw [store.read_graph, h.resolve_manifest, except_bind_ok]
  simp only [h.load_shards hcanon, except_bind_ok]
  exact graph_of_shards_ok hcanon hsk (shardsOf_named fun sh => c.of_bytes (c.encode_shard sh))

end

/-! ### What a write does to other reads -/

/-- The read `y` after a write of `bs` against the read `x` before it: it is the same,
unless `x` failed at one of the objects written, whose file was damaged or missing. -/
def Heals {α : Type} (c : Codec Bytes) (files : StoreFiles Bytes) (bs : List Bytes)
    (x y : Except StoreError α) : Prop :=
  y = x ∨ ∃ b ∈ bs, x = .error (.Corrupt (c.of_bytes b)) ∧ is_intact c (files (blob_path c b)) b = false

namespace Heals

variable {α β : Type} {bs : List Bytes}

theorem bind {x y : Except StoreError α} {f f' : α → Except StoreError β} (h : Heals c files bs x y)
    (hf : ∀ a, Heals c files bs (f a) (f' a)) : Heals c files bs (x >>= f) (y >>= f') := by
  cases h with
  | inl heq =>
    subst heq
    cases y with
    | error e => exact .inl rfl
    | ok a => exact hf a
  | inr hcorrupt =>
    obtain ⟨b, hb, rfl, hintact⟩ := hcorrupt
    exact .inr ⟨b, hb, rfl, hintact⟩

theorem mapM {f f' : α → Except StoreError β} (hf : ∀ a, Heals c files bs (f a) (f' a)) (l : List α) :
    Heals c files bs (l.mapM f) (l.mapM f') := by
  induction l with
  | nil => exact .inl rfl
  | cons a rest ih =>
    rw [List.mapM_cons, List.mapM_cons]
    exact (hf a).bind fun b => ih.bind fun _ => .inl rfl

end Heals

/-- After a write of `bs`: the files of other objects are unchanged, and so is the file
of an object that reads. -/
structure Written (c : Codec Bytes) (bs : List Bytes) (files files' : StoreFiles Bytes) : Prop where
  other : ∀ head rest, Regular (.file .objects head rest) →
    (∀ b ∈ bs, Path.file .objects head rest ≠ blob_path c b) →
      files' (.file .objects head rest) = files (.file .objects head rest)
  keep : ∀ b ∈ bs, ∀ e, files (blob_path c b) = some e → c.of_bytes e = c.of_bytes b →
    files' (blob_path c b) = some e

/-- An oid that is not of the form of a digest never reads. -/
theorem read_object_irregular {oid head rest : String} (hpath : object_path oid = .ok (head, rest))
    (hreg : ¬ Regular (.file .objects head rest)) (files : StoreFiles Bytes) :
    read_object c files oid = .error (.Corrupt oid) := by
  apply read_object_of_path hpath
  intro b _ hash
  rw [← hash, object_path_of_bytes] at hpath
  cases hpath
  exact hreg (regular_blob b)

namespace Written

variable {bs : List Bytes} {files' : StoreFiles Bytes}

theorem read_object (h : Written c bs files files') (oid : String) :
    Heals c files bs (read_object c files oid) (read_object c files' oid) := by
  cases hpath : object_path oid with
  | error e =>
    apply Or.inl
    apply read_object_congr
    intro head rest hok
    rw [hpath] at hok
    cases hok
  | ok path =>
    obtain ⟨head, rest⟩ := path
    by_cases hreg : Regular (.file .objects head rest)
    · by_cases hmem : ∃ b ∈ bs, Path.file .objects head rest = blob_path c b
      · obtain ⟨b, hb, heq⟩ := hmem
        have hoid := oid_of_object_path hpath heq
        by_cases hread : ∃ e, files (blob_path c b) = some e ∧ c.of_bytes e = oid
        · -- The object reads before the write, so its file is kept.
          obtain ⟨e, he, hash⟩ := hread
          have hkeep := h.keep b hb e he (hash.trans hoid)
          have hpath' : blob_path c e = blob_path c b := blob_path_congr (hash.trans hoid)
          exact .inl (by rw [read_object_ok_iff.mpr ⟨hash, by rw [hpath', hkeep]⟩,
            read_object_ok_iff.mpr ⟨hash, by rw [hpath', he]⟩])
        · have hcorrupt : store.read_object c files oid = .error (.Corrupt oid) := by
            apply read_object_of_path hpath
            intro e he hash
            exact hread ⟨e, heq ▸ he, hash⟩
          refine .inr ⟨b, hb, by rw [hcorrupt, hoid], ?_⟩
          by_contra hintact
          obtain ⟨e, he, hash⟩ := of_bytes_of_is_intact (by simpa using hintact)
          exact hread ⟨e, he, hash.trans hoid.symm⟩
      · apply Or.inl
        apply read_object_congr
        intro head' rest' hok
        rw [hpath] at hok
        cases hok
        exact h.other _ _ hreg fun b hb heq => hmem ⟨b, hb, heq⟩
    · exact .inl (by rw [read_object_irregular hpath hreg, read_object_irregular hpath hreg])

/-- The read of a key whose ref the write left alone. -/
theorem read_graph (h : Written c bs files files') {key : String}
    (href : files' (ref_path c key) = files (ref_path c key)) :
    Heals c files bs (read_graph c files key) (read_graph c files' key) := by
  have htext : read_if_exists c files' (ref_path c key) = read_if_exists c files (ref_path c key) := by
    rw [read_if_exists, read_if_exists, href]
  apply Heals.bind
  · rw [resolve_manifest, resolve_manifest, htext]
    apply Heals.bind (.inl rfl)
    intro text
    cases text with
    | none => exact .inl rfl
    | some text => exact (h.read_object _).bind fun _ => .inl rfl
  · intro manifest
    cases manifest with
    | none => exact .inl rfl
    | some m =>
      apply Heals.bind
      · apply Heals.mapM
        intro oid
        exact (h.read_object oid).bind fun _ => .inl rfl
      · exact fun _ => .inl rfl

end Written

end cgx.store
