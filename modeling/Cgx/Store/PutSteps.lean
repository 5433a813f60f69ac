import Cgx.Store.Invariant

open cgx.core disk

namespace cgx.store

variable {Bytes : Type} [Inhabited Bytes] {c : Codec Bytes} {U : Set Bytes} {puts : List PutCall}
  {d : StoreDisk Bytes} {through : Bool}

omit [Inhabited Bytes] in
/-- Durable objects survive steps that remove nothing. -/
theorem durable_advance_all (hinj : Set.InjOn c.of_bytes U) {ops : List (StoreOp Bytes)}
    (h : AllowedAll c U puts through d ops) {o : Bytes} (ho : o ∈ U)
    (hdur : Disk.Durable d (blob_path c o) o) (hremove : ∀ op ∈ ops, op ≠ .remove (blob_path c o)) :
    Disk.Durable (advance_all through d ops) (blob_path c o) o := by
  induction ops generalizing d with
  | nil => exact hdur
  | cons op rest ih =>
    have hstep := durable_step hinj h.1 ho hdur (hremove op List.mem_cons_self)
    exact ih h.2 (hstep.advance (grounded _)) fun op' hop' => hremove op' (List.mem_cons_of_mem op hop')

omit [Inhabited Bytes] in
theorem made_advance_all {ops : List (StoreOp Bytes)} {e : Dir} (h : d.made e = true) :
    (advance_all through d ops).made e = true := by
  induction ops generalizing d with
  | nil => exact h
  | cons op rest ih => exact ih (Disk.made_advance h through)

theorem not_regular_tmp (p : Path) : ¬ Regular p.tmp :=
  fun h => h p rfl

/-! ### Atomic replacements -/

/-- The steps before the rename. -/
def write_tmp (path : Path) (b : Bytes) : List (StoreOp Bytes) :=
  [.mkdir (Layout.dir path), .write path.tmp default, .write path.tmp b, .flush path.tmp]

theorem write_tmp_then_rename_eq (path : Path) (b : Bytes) :
    write_tmp_then_rename path b = write_tmp path b ++ [.rename path.tmp path] := rfl

theorem allowed_write_tmp (path : Path) (b : Bytes) :
    AllowedAll c U puts through d (write_tmp path b) :=
  ⟨trivial, not_regular_tmp path, not_regular_tmp path, not_regular_tmp path, trivial⟩

/-- The temporary file is whole before it is renamed. -/
theorem now_write_tmp (d : StoreDisk Bytes) (path : Path) (b : Bytes) :
    (advance_all through d (write_tmp path b)).now path.tmp = some ⟨b, true⟩ := by
  have hsplit : write_tmp path b =
      [.mkdir (Layout.dir path), .write path.tmp default, .write path.tmp b] ++ [.flush path.tmp] := rfl
  rw [hsplit, advance_all_append]
  apply Disk.now_flush
  rw [files_advance_all]
  simp [Files.step]

/-- A replacement is allowed when its target is an object in its place, or a backed ref. -/
theorem allowed_write_tmp_then_rename {path : Path} {b : Bytes}
    (h : (b ∈ U ∧ path = blob_path c b) ∨
      ∃ put ∈ puts, Backed c (advance_all through d (write_tmp path b)) put path b) :
    AllowedAll c U puts through d (write_tmp_then_rename path b) := by
  rw [write_tmp_then_rename_eq, allowedAll_append]
  refine ⟨allowed_write_tmp path b, ⟨not_regular_tmp path, ?_⟩, trivial⟩
  intro x hx
  rw [now_write_tmp] at hx
  cases hx
  exact ⟨rfl, h⟩

theorem write_tmp_removes_nothing {path p : Path} {b : Bytes} {op : StoreOp Bytes}
    (h : op ∈ write_tmp_then_rename path b) : op ≠ .remove p := by
  intro heq
  subst heq
  simp [write_tmp_then_rename] at h

/-! ### Writing the objects -/

/-- Part of the way through the objects `bs`: what programs see of them is durable, or
will be once the batch is flushed. -/
structure Writing (c : Codec Bytes) (U : Set Bytes) (puts : List PutCall) (through : Bool)
    (d : StoreDisk Bytes) (bs : List Bytes) (s : Session Bytes × Batch) : Prop where
  allowed : AllowedAll c U puts through d s.1.log
  files : s.1.files = d.files.run s.1.log
  covered : ∀ b ∈ bs, is_intact c (s.1.files (blob_path c b)) b = true →
    Disk.Durable (advance_all through d s.1.log) (blob_path c b) b ∨ blob_head c b ∈ s.2
  made : ∀ head ∈ s.2, (advance_all through d s.1.log).made (.fan .objects head) = true

theorem mem_insert_self (batch : Batch) (head : String) : head ∈ batch.insert head := by
  rw [Batch.insert]
  split
  · assumption
  · exact sorting.mem_sort_by.mpr List.mem_cons_self

theorem mem_insert_of_mem {batch : Batch} {head head' : String} (h : head' ∈ batch) :
    head' ∈ batch.insert head := by
  rw [Batch.insert]
  split
  · exact h
  · exact sorting.mem_sort_by.mpr (List.mem_cons_of_mem head h)

theorem mem_insert {batch : Batch} {head head' : String} (h : head' ∈ batch.insert head) :
    head' = head ∨ head' ∈ batch := by
  rw [Batch.insert] at h
  split at h
  · exact .inr h
  · exact List.mem_cons.mp (sorting.mem_sort_by.mp h)

omit [Inhabited Bytes] in
theorem blob_head_congr {a b : Bytes} (h : blob_path c a = blob_path c b) :
    blob_head c a = blob_head c b := by
  rw [blob_head, blob_head, blob_path_inj h]

omit [Inhabited Bytes] in
theorem dir_blob_path (b : Bytes) : Layout.dir (blob_path c b) = Dir.fan .objects (blob_head c b) := rfl

theorem Writing.write_blob (hinj : Set.InjOn c.of_bytes U) {bs : List Bytes} (hbs : ∀ b ∈ bs, b ∈ U)
    {s : Session Bytes × Batch} (h : Writing c U puts through d bs s) {b : Bytes} (hb : b ∈ bs) :
    Writing c U puts through d bs (write_blob c s b) := by
  rw [store.write_blob]
  split
  · exact h
  · have hops : AllowedAll c U puts through (advance_all through d s.1.log)
        (write_tmp_then_rename (blob_path c b) b) :=
      allowed_write_tmp_then_rename (.inl ⟨hbs b hb, rfl⟩)
    refine ⟨?_, ?_, ?_, ?_⟩
    · rw [Session.perform_all_log, allowedAll_append]
      exact ⟨h.allowed, hops⟩
    · rw [Session.perform_all_files, Session.perform_all_log, Files.run_append, h.files]
    · intro b' hb' hintact
      simp only [Session.perform_all_files, run_write_tmp_then_rename b (regular_blob b')] at hintact
      rw [Session.perform_all_log, advance_all_append]
      split at hintact
      · rename_i hpath
        exact .inr (by rw [blob_head_congr hpath]; exact mem_insert_self ..)
      · cases h.covered b' hb' hintact with
        | inl hdur =>
          exact .inl (durable_advance_all hinj hops (hbs b' hb') hdur fun op hop =>
            write_tmp_removes_nothing hop)
        | inr hmem => exact .inr (mem_insert_of_mem hmem)
    · intro head hhead
      rw [Session.perform_all_log, advance_all_append]
      cases mem_insert hhead with
      | inl heq =>
        subst heq
        -- The first step of the replacement makes the directory.
        have hmkdir := Disk.made_mkdir (advance_all through d s.1.log)
          (Layout.dir (blob_path c b)) through
        rw [write_tmp_then_rename, advance_all, List.foldl_cons]
        exact made_advance_all hmkdir
      | inr hmem => exact made_advance_all (h.made head hmem)

theorem Writing.write_blobs (hinj : Set.InjOn c.of_bytes U) {bs : List Bytes} (hbs : ∀ b ∈ bs, b ∈ U)
    {todo : List Bytes} (htodo : ∀ b ∈ todo, b ∈ bs) {s : Session Bytes × Batch}
    (h : Writing c U puts through d bs s) : Writing c U puts through d bs (write_blobs c s todo) := by
  induction todo generalizing s with
  | nil => exact h
  | cons b rest ih =>
    rw [write_blobs_cons]
    exact ih (fun b' hb' => htodo b' (List.mem_cons_of_mem b hb'))
      (h.write_blob hinj hbs (htodo b List.mem_cons_self))

/-! ### The flush -/

/-- All that writing objects does is to replace files. -/
theorem mem_write_blobs_log (s : Session Bytes × Batch) (bs : List Bytes) {op : StoreOp Bytes}
    (hop : op ∈ (write_blobs c s bs).1.log) :
    op ∈ s.1.log ∨ ∃ b ∈ bs, op ∈ write_tmp_then_rename (blob_path c b) b := by
  induction bs generalizing s with
  | nil => exact .inl hop
  | cons b rest ih =>
    cases ih _ hop with
    | inr hlater =>
      obtain ⟨b', hb', hwrite⟩ := hlater
      exact .inr ⟨b', List.mem_cons_of_mem b hb', hwrite⟩
    | inl hfirst =>
      rw [write_blob] at hfirst
      split at hfirst
      · exact .inl hfirst
      · rw [Session.perform_all_log, List.mem_append] at hfirst
        exact hfirst.imp_right fun hwrite => ⟨b, List.mem_cons_self, hwrite⟩

omit [Inhabited Bytes] in
theorem commit_cons (head : String) (rest : List String) :
    (Batch.commit (head :: rest) : List (StoreOp Bytes)) =
      ((head :: rest).map (Dir.fan .objects) ++ [Dir.area .objects]).map .sync := by
  rw [Batch.commit, List.map_append, List.map_map]
  rfl

omit [Inhabited Bytes] in
theorem commit_syncs {batch : Batch} {op : StoreOp Bytes} (h : op ∈ batch.commit) : ∃ e, op = .sync e := by
  cases batch with
  | nil => cases h
  | cons head rest =>
    rw [commit_cons] at h
    obtain ⟨e, _, rfl⟩ := List.mem_map.mp h
    exact ⟨e, rfl⟩

omit [Inhabited Bytes] in
theorem allowed_commit (batch : Batch) : AllowedAll c U puts through d (batch.commit) := by
  have hsync : ∀ (es : List Dir) (d : StoreDisk Bytes),
      AllowedAll c U puts through d (es.map .sync) := by
    intro es
    induction es with
    | nil => exact fun _ => trivial
    | cons e rest ih => exact fun d => ⟨trivial, ih _⟩
  cases batch with
  | nil => trivial
  | cons head rest =>
    rw [commit_cons]
    exact hsync _ d

omit [Inhabited Bytes] in
theorem advance_all_not_through (d : StoreDisk Bytes) (ops : List (StoreOp Bytes)) :
    advance_all false d ops = d.run ops := rfl

omit [Inhabited Bytes] in
/-- A flush makes an object of the batch durable. -/
theorem durable_commit {batch : Batch} {o : Bytes} (hnow : d.now (blob_path c o) = some ⟨o, true⟩)
    (hhead : blob_head c o ∈ batch) (hmade : d.made (.fan .objects (blob_head c o)) = true)
    (hroot : ∀ w ∈ d.makes (.area .objects), w = true) :
    Disk.Durable (advance_all through d batch.commit) (blob_path c o) o := by
  cases batch with
  | nil => cases hhead
  | cons head rest =>
    cases through with
    | true =>
      have hfile : d.files (blob_path c o) = some o := by rw [Disk.files, hnow]; rfl
      have hcommit := congrFun (run_commit d.files (head :: rest)) (blob_path c o)
      rw [Batch.commit, Files.run_append, Files.run_cons, Files.run_nil] at hcommit
      rw [Batch.commit, advance_all_append]
      apply Disk.durable_settled _ (grounded _)
      rw [Disk.files_step, files_advance_all, hcommit, hfile]
    | false =>
      rw [advance_all_not_through, commit_cons]
      have hfan : Layout.dir (blob_path c o) ∈
          (head :: rest).map (Dir.fan .objects) ++ [Dir.area .objects] :=
        List.mem_append_left _ (List.mem_map_of_mem hhead)
      have hup : ∃ e ∈ (head :: rest).map (Dir.fan .objects) ++ [Dir.area .objects],
          Layout.up Path (Dir.fan .objects (blob_head c o)) = some e :=
        ⟨.area .objects, by simp, rfl⟩
      refine ⟨?_, .sub ?_ (rfl : Layout.up Path (Dir.fan .objects (blob_head c o)) = _)
        (.root (Disk.makes_run hroot) rfl)⟩
      · intro v hv
        rw [Disk.versions_run_sync d hfan, List.mem_singleton] at hv
        rw [hv, hnow]
      · intro w hw
        rw [dir_blob_path, Disk.makes_run_sync d hup, List.mem_singleton] at hw
        rw [hw, hmade]

/-! ### The whole put -/

/-- What a put may skip is durable. -/
def SkipsDurable (c : Codec Bytes) (d : StoreDisk Bytes) (put : PutCall) : Prop :=
  ∀ b ∈ put.objects c, is_intact c (d.files (blob_path c b)) b = true →
    Disk.Durable d (blob_path c b) b

/-- The steps of a put. -/
def put_log (c : Codec Bytes) (files : StoreFiles Bytes) (put : PutCall) : List (StoreOp Bytes) :=
  (put_graph c (.start files) put.key put.created_rev put.g).1.log

/-- Only prunes remove files. -/
theorem put_log_removes_nothing (files : StoreFiles Bytes) (put : PutCall) (p : Path) :
    .remove p ∉ put_log c files put := by
  intro hremove
  cases hres : (put_graph c (.start files) put.key put.created_rev put.g).2 with
  | error e =>
    rw [put_log, put_graph_error c hres] at hremove
    cases hremove
  | ok _ =>
    obtain ⟨hcheck, sk, hsk⟩ := put_graph_ok hres
    rw [put_log, put_graph_eq c _ _ _ hcheck hsk, Session.perform_all_log, Session.perform_all_log,
      List.mem_append, List.mem_append, write_durable, List.mem_append] at hremove
    obtain (hblobs | hcommit) | hrename | hsync := hremove
    · obtain hstart | ⟨b, _, hwrite⟩ := mem_write_blobs_log _ _ hblobs
      · cases hstart
      · exact write_tmp_removes_nothing hwrite rfl
    · obtain ⟨e, heq⟩ := commit_syncs hcommit
      cases heq
    · exact write_tmp_removes_nothing hrename rfl
    · cases List.mem_singleton.mp hsync

/-- Every step of a put is allowed, if what it skips is durable. -/
theorem allowed_put (hinj : Set.InjOn c.of_bytes U) (hknown : Known c U puts) (hinv : Inv c U puts d)
    {put : PutCall} (hput : put ∈ puts) (hskip : SkipsDurable c d put) :
    AllowedAll c U puts through d (put_log c d.files put) := by
  by_cases hok : put.Accepted c
  · obtain ⟨hcheck, hsk⟩ := hok
    have hU := (hknown put hput).2
    have hstart : Writing c U puts through d (put.objects c) (.start d.files, []) :=
      ⟨trivial, rfl, fun b hb hintact => .inl (hskip b hb hintact), by simp⟩
    have hwriting := hstart.write_blobs hinj hU (fun b hb => hb)
    have hplace : ∀ b ∈ put.objects c,
        (write_blobs c (.start d.files, []) (put.objects c)).1.files (blob_path c b) = some b := by
      intro b hb
      apply files_write_blobs_mem hinj hU _ hb
      intro b' hb' e he
      obtain ⟨x, hx, rfl⟩ := Option.map_eq_some_iff.mp he
      have hmem : some x ∈ d.versions (blob_path c b') := hx ▸ Disk.mem_versions_now d _
      exact (hinv.objects _ _ x (regular_blob b') hmem).2.1
    rw [put_log, put_graph_eq c (.start d.files) put.key put.created_rev hcheck hsk]
    change AllowedAll c U puts through d
      (((write_blobs c (.start d.files, []) (put.objects c)).1.perform_all
        (write_blobs c (.start d.files, []) (put.objects c)).2.commit).perform_all
          (write_durable (ref_path c put.key) (put.ref c))).log
    generalize write_blobs c (.start d.files, []) (put.objects c) = s at hwriting hplace
    have hinv' := inv_advance_all hinj hknown hinv hwriting.allowed
    -- After the flush, no object can be lost.
    have hdur : ∀ b ∈ put.objects c, Disk.Durable
        (advance_all through (advance_all through d s.1.log) s.2.commit) (blob_path c b) b := by
      intro b hb
      have hfile := hplace b hb
      cases hwriting.covered b hb (by rw [hfile, is_intact_self]) with
      | inl hdur =>
        have hcommit : AllowedAll c U puts through (advance_all through d s.1.log) s.2.commit :=
          allowed_commit s.2
        refine durable_advance_all hinj hcommit (hU b hb) hdur ?_
        rintro op hop rfl
        obtain ⟨e, heq⟩ := commit_syncs hop
        cases heq
      | inr hhead =>
        apply durable_commit _ hhead (hwriting.made _ hhead) (hinv'.roots _ rfl)
        rw [hwriting.files, ← files_advance_all through] at hfile
        obtain ⟨x, hx, hdata⟩ := Option.map_eq_some_iff.mp hfile
        have hmem : some x ∈ (advance_all through d s.1.log).versions (blob_path c b) :=
          hx ▸ Disk.mem_versions_now _ _
        have hflushed := (hinv'.objects _ _ x (regular_blob b) hmem).1
        rw [hx, ← hdata, ← hflushed]
    rw [Session.perform_all_log, Session.perform_all_log, allowedAll_append, allowedAll_append,
      write_durable, allowedAll_append, advance_all_append]
    refine ⟨⟨hwriting.allowed, allowed_commit s.2⟩, ?_, trivial, trivial⟩
    apply allowed_write_tmp_then_rename
    refine .inr ⟨put, hput, ⟨hcheck, hsk⟩, rfl, rfl, ?_⟩
    intro o ho
    have htmp : AllowedAll c U puts through
        (advance_all through (advance_all through d s.1.log) s.2.commit)
          (write_tmp (ref_path c put.key) (put.ref c)) := allowed_write_tmp _ _
    exact durable_advance_all hinj htmp (hU o ho) (hdur o ho) fun op hop =>
      write_tmp_removes_nothing (List.mem_append_left _ hop)
  · have hlog : put_log c d.files put = [] := by
      rw [put_log]
      cases hres : (put_graph c (.start d.files) put.key put.created_rev put.g).2 with
      | error e => rw [put_graph_error c hres]; rfl
      | ok _ =>
        obtain ⟨hcheck, sk, hsk⟩ := put_graph_ok hres
        exact absurd (put.accepted_of_ok c hcheck hsk) hok
    rw [hlog]
    trivial

end cgx.store
