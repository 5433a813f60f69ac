import Cgx.Store.Text

open cgx.core disk Function

namespace cgx.store

variable {Bytes : Type}

/-! ### Sessions -/

namespace Session

@[simp] theorem perform_all_files (s : Session Bytes) (ops : List (StoreOp Bytes)) :
    (s.perform_all ops).files = s.files.run ops := by
  induction ops generalizing s with
  | nil => rfl
  | cons op rest ih => exact ih (s.perform op)

@[simp] theorem perform_all_log (s : Session Bytes) (ops : List (StoreOp Bytes)) :
    (s.perform_all ops).log = s.log ++ ops := by
  induction ops generalizing s with
  | nil => exact (List.append_nil _).symm
  | cons op rest ih =>
    have hrest := ih (s.perform op)
    rw [perform, List.append_assoc] at hrest
    exact hrest

end Session

/-- A path that is not that of a temporary file. -/
def Regular (q : Path) : Prop :=
  ∀ p : Path, q ≠ p.tmp

variable {c : Codec Bytes}

theorem regular_blob (b : Bytes) : Regular (blob_path c b) :=
  blob_path_ne_tmp b

theorem regular_ref (key : String) : Regular (ref_path c key) :=
  ref_path_ne_tmp key

/-- Flushes change nothing that programs see. -/
theorem run_commit (files : StoreFiles Bytes) (batch : Batch) : files.run batch.commit = files := by
  funext q
  apply Files.run_of_not_changes
  intro op hop
  cases batch with
  | nil => cases hop
  | cons head rest =>
    rw [Batch.commit] at hop
    cases List.mem_append.mp hop with
    | inl hfan =>
      obtain ⟨_, _, rfl⟩ := List.mem_map.mp hfan
      exact List.not_mem_nil
    | inr hroot =>
      rw [List.mem_singleton.mp hroot]
      exact List.not_mem_nil

theorem is_intact_self (b : Bytes) : is_intact c (some b) b = true := by
  simp [is_intact]

theorem of_bytes_of_is_intact {existing : Option Bytes} {b : Bytes}
    (h : is_intact c existing b = true) : ∃ e, existing = some e ∧ c.of_bytes e = c.of_bytes b := by
  cases existing with
  | none => cases h
  | some e =>
    simp only [is_intact, Bool.and_eq_true, decide_eq_true_eq] at h
    exact ⟨e, rfl, h.2⟩

variable [Inhabited Bytes]

/-- An atomic replacement changes the file at its path only. -/
theorem run_write_tmp_then_rename {files : StoreFiles Bytes} {path q : Path} (b : Bytes)
    (hq : Regular q) :
    files.run (write_tmp_then_rename path b) q = if q = path then some b else files q := by
  simp only [write_tmp_then_rename, Files.run_cons, Files.run_nil, Files.step, update_self]
  rw [update_of_ne (hq path)]
  by_cases heq : q = path
  · subst heq
    rw [update_self, if_pos rfl]
  · rw [update_of_ne heq, update_of_ne (hq path), update_of_ne (hq path), if_neg heq]

theorem run_write_durable {files : StoreFiles Bytes} {path q : Path} (b : Bytes) (hq : Regular q) :
    files.run (write_durable path b) q = if q = path then some b else files q := by
  rw [write_durable, Files.run_append]
  exact run_write_tmp_then_rename b hq

/-! ### Objects -/

variable (c)

/-- The fan-out directory of an object. -/
def blob_head (b : Bytes) : String :=
  String.ofList ((c.of_bytes b).toList.take 2)

/-- What writing an object does to the session and the batch. -/
def write_blob (s : Session Bytes × Batch) (b : Bytes) : Session Bytes × Batch :=
  if is_intact c (s.1.files (blob_path c b)) b then s
  else (s.1.perform_all (write_tmp_then_rename (blob_path c b) b), s.2.insert (blob_head c b))

/-- The same for a list of objects. -/
def write_blobs (s : Session Bytes × Batch) (bs : List Bytes) : Session Bytes × Batch :=
  bs.foldl (write_blob c) s

@[simp] theorem write_blobs_nil (s : Session Bytes × Batch) : write_blobs c s [] = s := rfl

@[simp] theorem write_blobs_cons (s : Session Bytes × Batch) (b : Bytes) (bs : List Bytes) :
    write_blobs c s (b :: bs) = write_blobs c (write_blob c s b) bs := rfl

theorem write_object_eq (s : Session Bytes) (batch : Batch) (b : Bytes) :
    write_object c s batch b =
      ((write_blob c (s, batch) b).1, .ok ((write_blob c (s, batch) b).2, c.of_bytes b)) := by
  rw [write_object, object_path_of_bytes]
  simp only [write_blob]
  split
  · rename_i hintact
    have hintact : is_intact c (s.files (blob_path c b)) b = true := hintact
    rw [if_pos hintact]
  · rename_i hintact
    have hintact : ¬ is_intact c (s.files (blob_path c b)) b = true := hintact
    rw [if_neg hintact]
    rfl

theorem write_shards_eq (s : Session Bytes) (batch : Batch) (shards : List (String × Shard)) :
    write_shards c s batch shards =
      ((write_blobs c (s, batch) (shards.map fun sh => c.encode_shard sh.2)).1,
        .ok ((write_blobs c (s, batch) (shards.map fun sh => c.encode_shard sh.2)).2,
          shards.map fun sh => ⟨sh.1, c.of_bytes (c.encode_shard sh.2)⟩)) := by
  induction shards generalizing s batch with
  | nil => rfl
  | cons sh rest ih =>
    obtain ⟨fn_key, sh⟩ := sh
    simp only [write_shards, write_object_eq, ih]
    rfl

/-- The manifest a graph is stored under. -/
def manifest_of (key : String) (created_rev : Option String) (g : LinkedGraph) (sk : List UInt64) :
    Manifest :=
  ⟨CURRENT_STORE_FORMAT, key, created_rev,
    (g.shards sk).map fun sh => ⟨sh.1, c.of_bytes (c.encode_shard sh.2)⟩⟩

/-- The objects of a stored graph. -/
def put_objects (key : String) (created_rev : Option String) (g : LinkedGraph) (sk : List UInt64) :
    List Bytes :=
  (g.shards sk).map (fun sh => c.encode_shard sh.2) ++ [c.encode_manifest (manifest_of c key created_rev g sk)]

/-- The contents of the ref of a stored graph. -/
def ref_contents (key : String) (created_rev : Option String) (g : LinkedGraph) (sk : List UInt64) : Bytes :=
  c.as_bytes (ref_text (c.of_bytes (c.encode_manifest (manifest_of c key created_rev g sk))) key)

/-- Storing an accepted graph: its objects, one flush, its ref. -/
theorem put_graph_eq {g : LinkedGraph} {sk : List UInt64} (s : Session Bytes) (key : String)
    (created_rev : Option String) (hcheck : check_canonical g = .ok ())
    (hsk : stable_keys c.stable_key (g.nodes.map NodeRecord.fqn) = .ok sk) :
    put_graph c s key created_rev g =
      (((write_blobs c (s, []) (put_objects c key created_rev g sk)).1.perform_all
        (write_blobs c (s, []) (put_objects c key created_rev g sk)).2.commit).perform_all
          (write_durable (ref_path c key) (ref_contents c key created_rev g sk)), .ok ()) := by
  have hblobs : write_blobs c (s, []) (put_objects c key created_rev g sk) =
      write_blob c (write_blobs c (s, []) ((g.shards sk).map fun sh => c.encode_shard sh.2))
        (c.encode_manifest (manifest_of c key created_rev g sk)) := by
    rw [put_objects, write_blobs, List.foldl_append]
    rfl
  rw [put_graph, hcheck, hsk, hblobs]
  simp only [write_shards_eq, write_object_eq]
  rfl

theorem put_graph_error {g : LinkedGraph} {s : Session Bytes} {key : String}
    {created_rev : Option String} {e : StoreError} (h : (put_graph c s key created_rev g).2 = .error e) :
    (put_graph c s key created_rev g).1 = s := by
  cases hcheck : check_canonical g with
  | error e => rw [put_graph, hcheck]
  | ok _ =>
    cases hsk : stable_keys c.stable_key (g.nodes.map NodeRecord.fqn) with
    | error e => rw [put_graph, hcheck, hsk]
    | ok sk =>
      rw [put_graph_eq c s key created_rev hcheck hsk] at h
      cases h

variable {c}

/-! ### The files after a write -/

/-- An object is written where it belongs, and nowhere else. -/
theorem files_write_blob (s : Session Bytes × Batch) (b : Bytes) {q : Path} (hq : Regular q) :
    (write_blob c s b).1.files q =
      if q = blob_path c b ∧ is_intact c (s.1.files (blob_path c b)) b = false then some b
      else s.1.files q := by
  rw [write_blob]
  split
  · rename_i hintact
    rw [if_neg (by simp [hintact])]
  · rename_i hintact
    rw [Session.perform_all_files, run_write_tmp_then_rename b hq]
    simp [hintact]

theorem files_write_blobs_other {bs : List Bytes} {q : Path} (hq : Regular q)
    (hother : ∀ b ∈ bs, q ≠ blob_path c b) (s : Session Bytes × Batch) :
    (write_blobs c s bs).1.files q = s.1.files q := by
  induction bs generalizing s with
  | nil => rfl
  | cons b rest ih =>
    rw [write_blobs_cons, ih fun b' hb' => hother b' (List.mem_cons_of_mem b hb'),
      files_write_blob s b hq, if_neg]
    intro h
    exact hother b List.mem_cons_self h.1

section

variable {U : Set Bytes} (hinj : Set.InjOn c.of_bytes U)

include hinj

/-- An object that is in place stays there. -/
theorem files_write_blobs_keep {bs : List Bytes} (hbs : ∀ b ∈ bs, b ∈ U) {e : Bytes} (he : e ∈ U)
    {s : Session Bytes × Batch} (hs : s.1.files (blob_path c e) = some e) :
    (write_blobs c s bs).1.files (blob_path c e) = some e := by
  induction bs generalizing s with
  | nil => exact hs
  | cons b rest ih =>
    rw [write_blobs_cons]
    apply ih fun b' hb' => hbs b' (List.mem_cons_of_mem b hb')
    rw [files_write_blob s b (regular_blob e), if_neg]
    · exact hs
    · rintro ⟨hpath, hintact⟩
      have heq : e = b := hinj he (hbs b List.mem_cons_self) (blob_path_inj hpath)
      rw [← heq, hs, is_intact_self] at hintact
      cases hintact

/-- Every object written is in place. -/
theorem files_write_blobs_mem {bs : List Bytes} (hbs : ∀ b ∈ bs, b ∈ U) {s : Session Bytes × Batch}
    (hs : ∀ b ∈ bs, ∀ e, s.1.files (blob_path c b) = some e → e ∈ U) {b : Bytes} (hb : b ∈ bs) :
    (write_blobs c s bs).1.files (blob_path c b) = some b := by
  induction bs generalizing s with
  | nil => cases hb
  | cons b' rest ih =>
    have hhead : (write_blob c s b').1.files (blob_path c b') = some b' := by
      rw [files_write_blob s b' (regular_blob b')]
      cases hintact : is_intact c (s.1.files (blob_path c b')) b' with
      | false => simp
      | true =>
        obtain ⟨e, he, hash⟩ := of_bytes_of_is_intact hintact
        have hmem := hs b' List.mem_cons_self e he
        simp [he, hinj hmem (hbs b' List.mem_cons_self) hash]
    have hrest : ∀ b ∈ rest, b ∈ U := fun b hb => hbs b (List.mem_cons_of_mem b' hb)
    rw [write_blobs_cons]
    cases List.mem_cons.mp hb with
    | inl heq =>
      subst heq
      exact files_write_blobs_keep hinj hrest (hbs b List.mem_cons_self) hhead
    | inr hmem =>
      apply ih hrest _ hmem
      intro b'' hb'' e he
      rw [files_write_blob s b' (regular_blob b'')] at he
      split at he
      · cases he
        exact hbs b' List.mem_cons_self
      · exact hs b'' (List.mem_cons_of_mem b' hb'') e he

end

end cgx.store
