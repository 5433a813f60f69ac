import Cgx.Store.System

open cgx.core disk

namespace cgx.store

variable {Bytes : Type} {c : Codec Bytes} {U : Set Bytes} {puts : List PutCall}
  {files : StoreFiles Bytes}

/-! ### What programs see of an invariant store -/

/-- A ref that is seen was written by a put, whose objects are all in place. -/
theorem seen_ref (hinv : Inv c U puts (Disk.settled files)) {name : String} (hreg : Regular (.ref name))
    {b : Bytes} (h : files (.ref name) = some b) :
    ∃ put ∈ puts, put.Accepted c ∧ Path.ref name = ref_path c put.key ∧ b = put.ref c ∧
      InPlace c files put.key put.created_rev put.g (put.sk c) := by
  obtain ⟨_, put, hput, hback⟩ := hinv.refs name ⟨b, true⟩ hreg
    (Disk.mem_versions_settled.mpr (by rw [h, Option.map_some]))
  have hplace : InPlace c files put.key put.created_rev put.g (put.sk c) := by
    refine ⟨fun o ho => ?_, ?_⟩
    · have hfile := hback.in_place ho
      rwa [Disk.files_settled] at hfile
    · have hcontents : b = put.ref c := hback.contents
      rw [← hback.path, h, hcontents]
      rfl
  exact ⟨put, hput, hback.accepted, hback.path, hback.contents, hplace⟩

theorem seen_ref_of_key (hinj : Set.InjOn c.of_bytes U) (hknown : Known c U puts)
    (hinv : Inv c U puts (Disk.settled files)) {key : String} (hkey : c.as_bytes key ∈ U) {b : Bytes}
    (h : files (ref_path c key) = some b) :
    ∃ put ∈ puts, put.Accepted c ∧ put.key = key ∧ b = put.ref c ∧
      InPlace c files put.key put.created_rev put.g (put.sk c) := by
  obtain ⟨put, hput, haccepted, hpath, hrest⟩ := seen_ref hinv (regular_ref key) h
  exact ⟨put, hput, haccepted, (ref_path_inj hinj hkey (hknown put hput).1 hpath).symm, hrest⟩

/-- What is seen at an object's path is the object. -/
theorem seen_object (hinj : Set.InjOn c.of_bytes U) (hinv : Inv c U puts (Disk.settled files)) {o : Bytes}
    (ho : o ∈ U) {b : Bytes} (h : files (blob_path c o) = some b) : b = o := by
  obtain ⟨_, hb, hpath⟩ := hinv.objects _ _ ⟨b, true⟩ (regular_blob o)
    (Disk.mem_versions_settled.mpr (by
      change some _ = Option.map _ (files (blob_path c o))
      rw [h, Option.map_some]))
  exact (hinj ho hb (blob_path_inj hpath)).symm

/-- A key without a ref reads as the empty graph. -/
theorem read_graph_absent {key : String} (h : files (ref_path c key) = none) :
    read_graph c files key = .ok .empty := by
  have hread : read_if_exists c files (ref_path c key) = .ok none := by
    rw [read_if_exists, h]
  rw [read_graph, resolve_manifest, hread]
  rfl

/-! ### The files after a prune -/

theorem sweep_tmp_files (s : Session Bytes) {listing : List Path} (hlist : Lists s.files listing) (q : Path) :
    (sweep_tmp s listing).files q = if q.is_tmp = true then none else s.files q := by
  rw [sweep_tmp]
  simp only [Session.remove_where_files]
  by_cases hq : q ∈ listing
  · cases htmp : q.is_tmp with
    | false => simp
    | true =>
      cases q with
      | ref name => simp [hq, Path.is_ref]
      | file a head rest => cases a <;> simp [hq, Path.in_area]
  · have hnone : s.files q = none := by
      by_contra hsome
      exact hq (hlist q (Option.isSome_iff_ne_none.mpr hsome))
    simp [hq, hnone]

/-- The ref `p` is dropped. -/
def Dropped (c : Codec Bytes) (keep : List String) (files : StoreFiles Bytes) (p : Path) : Prop :=
  ∃ text, read_if_exists c files p = .ok (some text) ∧ line 1 text ∉ keep

theorem read_if_exists_congr {files' : StoreFiles Bytes} {p : Path} (h : files' p = files p) :
    read_if_exists c files' p = read_if_exists c files p := by
  rw [read_if_exists, read_if_exists, h]

open Classical in
/-- Readable refs are dropped when their key is not kept. -/
theorem drop_refs_files {keep : List String} {refs : List Path} (s : Session Bytes)
    (hread : ∀ p ∈ refs, ∃ text, read_if_exists c s.files p = .ok text) :
    (∃ removed, (drop_refs c keep s refs).2 = .ok removed) ∧
      ∀ q, (drop_refs c keep s refs).1.files q =
        if q ∈ refs ∧ Dropped c keep s.files q then none else s.files q := by
  induction refs generalizing s with
  | nil => exact ⟨⟨0, rfl⟩, by simp [drop_refs]⟩
  | cons p rest ih =>
    obtain ⟨text, htext⟩ := hread p List.mem_cons_self
    -- A ref that stays: the rest decides.
    have hstay : ¬ Dropped c keep s.files p →
        (∃ removed, (drop_refs c keep s rest).2 = .ok removed) ∧
          ∀ q, (drop_refs c keep s rest).1.files q =
            if q ∈ p :: rest ∧ Dropped c keep s.files q then none else s.files q := by
      intro hkept
      obtain ⟨hok, hfiles⟩ := ih s fun q hq => hread q (List.mem_cons_of_mem p hq)
      refine ⟨hok, fun q => ?_⟩
      rw [hfiles]
      by_cases hq : q = p
      · subst hq
        simp [hkept]
      · simp [hq]
    rw [drop_refs, htext]
    cases text with
    | none =>
      apply hstay
      rintro ⟨text, hsome, _⟩
      rw [htext] at hsome
      cases hsome
    | some text =>
      simp only
      split
      · rename_i hkeep
        apply hstay
        rintro ⟨text', hsome, hnot⟩
        rw [htext] at hsome
        cases hsome
        exact hnot hkeep
      · rename_i hkeep
        have hfresh : ∀ q, q ≠ p → (s.perform (.remove p)).files q = s.files q := by
          intro q hq
          simp [Session.perform, Files.step, hq]
        have hgone : (s.perform (.remove p)).files p = none := by
          simp [Session.perform, Files.step]
        obtain ⟨⟨removed, hok⟩, hfiles⟩ := ih (s.perform (.remove p)) (by
          intro q hq
          by_cases hqp : q = p
          · subst hqp
            exact ⟨none, by rw [read_if_exists, hgone]⟩
          · rw [read_if_exists_congr (hfresh q hqp)]
            exact hread q (List.mem_cons_of_mem p hq))
        refine ⟨⟨removed + 1, by simp only [hok]; rfl⟩, fun q => ?_⟩
        rw [hfiles]
        by_cases hq : q = p
        · subst hq
          have hdropped : Dropped c keep s.files q := ⟨text, htext, hkeep⟩
          simp [hdropped, hgone]
        · have hsame : Dropped c keep (s.perform (.remove p)).files q ↔ Dropped c keep s.files q := by
            rw [Dropped, Dropped, read_if_exists_congr (hfresh q hq)]
          simp only [hsame, List.mem_cons, hq, false_or, hfresh q hq]

theorem live_oids_ok {refs : List Path}
    (hread : ∀ p ∈ refs, ∃ text, read_if_exists c files p = .ok text ∧
      ∀ t, text = some t → ∃ oids, manifest_oids c files (line 0 t) = .ok (some oids)) :
    ∃ live, live_oids c files refs = .ok (some live) ∧
      ∀ oid ∈ live, ∃ p ∈ refs, ∃ text oids, read_if_exists c files p = .ok (some text) ∧
        manifest_oids c files (line 0 text) = .ok (some oids) ∧ (oid = line 0 text ∨ oid ∈ oids) := by
  induction refs with
  | nil => exact ⟨[], rfl, by simp⟩
  | cons p rest ih =>
    obtain ⟨live, hlive, hall⟩ := ih fun q hq => hread q (List.mem_cons_of_mem p hq)
    have hrest : ∀ oid ∈ live, ∃ q ∈ p :: rest, ∃ text oids, read_if_exists c files q = .ok (some text) ∧
        manifest_oids c files (line 0 text) = .ok (some oids) ∧ (oid = line 0 text ∨ oid ∈ oids) := by
      intro oid hoid
      obtain ⟨q, hq, hnamed⟩ := hall oid hoid
      exact ⟨q, List.mem_cons_of_mem p hq, hnamed⟩
    obtain ⟨text, htext, hmanifest⟩ := hread p List.mem_cons_self
    cases text with
    | none => exact ⟨live, by simp only [live_oids, htext, hlive], hrest⟩
    | some text =>
      obtain ⟨oids, hoids⟩ := hmanifest text rfl
      refine ⟨line 0 text :: oids ++ live, by simp only [live_oids, htext, hoids, hlive], ?_⟩
      intro oid hoid
      rw [List.mem_append, List.mem_cons] at hoid
      obtain (hline | hmem) | hlater := hoid
      · exact ⟨p, List.mem_cons_self, text, oids, htext, hoids, .inl hline⟩
      · exact ⟨p, List.mem_cons_self, text, oids, htext, hoids, .inr hmem⟩
      · exact hrest oid hlater

/-! ### A prune of an invariant store -/

theorem read_ref_text {p : Path} {put : PutCall} (h : files p = some (put.ref c)) :
    read_if_exists c files p = .ok (some (ref_text (c.of_bytes (put.manifest c)) put.key)) := by
  rw [read_if_exists, h]
  simp only [read_text_ref]

/-- The files a prune leaves: the refs whose line in the ref is kept, in place with their
objects, and no other object. -/
structure Pruned (c : Codec Bytes) (puts : List PutCall) (keep : List String)
    (files files' : StoreFiles Bytes) : Prop where
  kept : ∀ put : PutCall, InPlace c files put.key put.created_rev put.g (put.sk c) →
    key_line put.key ∈ keep → InPlace c files' put.key put.created_rev put.g (put.sk c)
  dropped : ∀ put : PutCall, files (ref_path c put.key) = some (put.ref c) →
    key_line put.key ∉ keep → files' (ref_path c put.key) = none
  absent : ∀ p, files p = none → files' p = none
  swept : ∀ head rest b, files' (.file .objects head rest) = some b → ∃ put ∈ puts,
    InPlace c files put.key put.created_rev put.g (put.sk c) ∧ key_line put.key ∈ keep ∧
      ∃ o ∈ put.objects c, Path.file .objects head rest = blob_path c o

theorem object_of_oid {put : PutCall} {oid : String}
    (h : oid ∈ (manifest_of c put.key put.created_rev put.g (put.sk c)).referenced_oids) :
    ∃ o ∈ put.objects c, c.of_bytes o = oid := by
  rw [Manifest.referenced_oids, manifest_of, List.map_map] at h
  obtain ⟨sh, hsh, rfl⟩ := List.mem_map.mp h
  exact ⟨c.encode_shard sh.2, shard_mem_put_objects hsh, rfl⟩

theorem pruned (hinv : Inv c U puts (Disk.settled files)) {listing : List Path}
    (hlist : Lists files listing) (keep : List String) :
    (∃ removed, (prune_graphs_except c (.start files) listing keep).2 = .ok removed) ∧
      Pruned c puts keep files (prune_graphs_except c (.start files) listing keep).1.files := by
  have hsweep : ∀ q, (sweep_tmp (.start files) listing).files q =
      if q.is_tmp = true then none else files q :=
    sweep_tmp_files (.start files) hlist
  generalize hs : sweep_tmp (.start files) listing = s at hsweep
  -- Every ref that is left was written by a put.
  have hrefs : ∀ name, s.files (.ref name) = none ∨ ∃ put ∈ puts, Path.ref name = ref_path c put.key ∧
      s.files (.ref name) = some (put.ref c) ∧ files (.ref name) = some (put.ref c) ∧
        InPlace c files put.key put.created_rev put.g (put.sk c) := by
    intro name
    cases hfile : s.files (.ref name) with
    | none => exact .inl rfl
    | some b =>
      rw [hsweep] at hfile
      split at hfile
      · cases hfile
      · rename_i htmp
        obtain ⟨put, hput, _, hpath, hcontents, hplace⟩ :=
          seen_ref hinv (regular_iff.mpr (by simpa using htmp)) hfile
        subst hcontents
        exact .inr ⟨put, hput, hpath, rfl, hfile, hplace⟩
  have hread : ∀ p ∈ listing.filter Path.is_ref, ∃ text, read_if_exists c s.files p = .ok text := by
    intro p hp
    cases p with
    | file a head rest => cases (List.mem_filter.mp hp).2
    | ref name =>
      cases hrefs name with
      | inl hnone => exact ⟨none, by rw [read_if_exists, hnone]⟩
      | inr hsome =>
        obtain ⟨put, _, _, hfile, _⟩ := hsome
        exact ⟨_, read_ref_text hfile⟩
  obtain ⟨⟨removed, hremoved⟩, hdrop⟩ :
      (∃ removed, (drop_refs c keep s (listing.filter Path.is_ref)).2 = .ok removed) ∧ _ :=
    drop_refs_files s hread
  generalize hs' : drop_refs c keep s (listing.filter Path.is_ref) = r at hremoved hdrop
  have hobject : ∀ o, files (blob_path c o) = some o → r.1.files (blob_path c o) = some o := by
    intro o ho
    have hreg := regular_iff.mp (regular_blob (c := c) o)
    rw [hdrop, if_neg, hsweep, hreg, ho]
    · rfl
    · intro h
      cases (List.mem_filter.mp h.1).2
  have hmanifest : ∀ put : PutCall, InPlace c files put.key put.created_rev put.g (put.sk c) →
      manifest_oids c r.1.files (c.of_bytes (put.manifest c)) =
        .ok (some (manifest_of c put.key put.created_rev put.g (put.sk c)).referenced_oids) :=
    fun put hplace => manifest_oids_in_place (hobject _ (hplace.objects _ manifest_mem_objects))
  have hleft : ∀ name, r.1.files (.ref name) = none ∨ r.1.files (.ref name) = s.files (.ref name) := by
    intro name
    rw [hdrop]
    split
    · exact .inl rfl
    · exact .inr rfl
  have hnames : ∀ p ∈ listing.filter Path.is_ref, ∃ text, read_if_exists c r.1.files p = .ok text ∧
      ∀ t, text = some t → ∃ oids, manifest_oids c r.1.files (line 0 t) = .ok (some oids) := by
    intro p hp
    cases p with
    | file a head rest => cases (List.mem_filter.mp hp).2
    | ref name =>
      cases hleft name with
      | inl hnone => exact ⟨none, by rw [read_if_exists, hnone], by simp⟩
      | inr hsame =>
        cases hrefs name with
        | inl hnone => exact ⟨none, by rw [read_if_exists, hsame, hnone], by simp⟩
        | inr hsome =>
          obtain ⟨put, _, _, hfile, _, hplace⟩ := hsome
          refine ⟨_, read_ref_text (hsame.trans hfile), ?_⟩
          intro t ht
          cases ht
          rw [line_zero_ref_text]
          exact ⟨_, hmanifest put hplace⟩
  obtain ⟨live, hlive, hnamed⟩ := live_oids_ok hnames
  have hlines : ∀ put : PutCall, line 1 (ref_text (c.of_bytes (put.manifest c)) put.key) =
      key_line put.key := fun put => line_one_ref_text _ _
  have hseen : ∀ {p : Path}, files p ≠ none → p ∈ listing :=
    fun h => hlist _ (Option.isSome_iff_ne_none.mpr h)
  have hresult : prune_graphs_except c (.start files) listing keep =
      (r.1.remove_where (fun p => (p.oid .objects).any fun oid => oid ∉ live) listing, .ok removed) := by
    simp only [prune_graphs_except, hs, hs', hremoved, hlive]
  have hfinal := r.1.remove_where_files (fun p => (p.oid .objects).any fun oid => oid ∉ live) listing
  rw [hresult]
  refine ⟨⟨removed, rfl⟩, ?_, ?_, ?_, ?_⟩
  · intro put hplace hkeep
    have href : r.1.files (ref_path c put.key) = some (put.ref c) := by
      have hsref : s.files (ref_path c put.key) = some (put.ref c) := by
        rw [hsweep, regular_iff.mp (regular_ref put.key), hplace.ref]
        rfl
      rw [hdrop, if_neg]
      · exact hsref
      · rintro ⟨_, text, htext, hnot⟩
        rw [read_ref_text hsref] at htext
        cases htext
        rw [hlines] at hnot
        exact hnot hkeep
    have hlisted : ref_path c put.key ∈ listing.filter Path.is_ref :=
      List.mem_filter.mpr ⟨hseen (by rw [hplace.ref]; simp), rfl⟩
    obtain ⟨hline, oids, hoids, hall⟩ := live_oids_spec hlive hlisted (read_ref_text href)
    rw [line_zero_ref_text] at hline hoids
    rw [hmanifest put hplace] at hoids
    cases hoids
    refine ⟨?_, ?_⟩
    · intro o ho
      have hlive_o : c.of_bytes o ∈ live := by
        cases oid_of_object ho with
        | inl heq => exact heq ▸ hline
        | inr hmem => exact hall _ hmem
      rw [hfinal, oid_blob_path, if_neg]
      · exact hobject o (hplace.objects o ho)
      · simp [hlive_o]
    · rw [hfinal, if_neg]
      · exact href
      · intro h
        cases h.2
  · intro put href hkeep
    have hsref : s.files (ref_path c put.key) = some (put.ref c) := by
      rw [hsweep, regular_iff.mp (regular_ref put.key), href]
      rfl
    have hdropped : r.1.files (ref_path c put.key) = none := by
      rw [hdrop, if_pos]
      refine ⟨List.mem_filter.mpr ⟨hseen (by rw [href]; simp), rfl⟩, _, read_ref_text hsref, ?_⟩
      rwa [hlines]
    rw [hfinal, hdropped]
    split <;> rfl
  · intro p hp
    have hsp : s.files p = none := by
      rw [hsweep, hp]
      split <;> rfl
    have hrp : r.1.files p = none := by
      rw [hdrop, hsp]
      split <;> rfl
    rw [hfinal, hrp]
    split <;> rfl
  · intro head rest b hb
    rw [hfinal] at hb
    split at hb
    · cases hb
    · rename_i halive
      rw [hdrop, if_neg (by intro h; cases (List.mem_filter.mp h.1).2), hsweep] at hb
      split at hb
      · cases hb
      · rename_i htmp
        have hreg : Regular (.file .objects head rest) := regular_iff.mpr (by simpa using htmp)
        have hpath := (hinv.objects head rest ⟨b, true⟩ hreg
          (Disk.mem_versions_settled.mpr (by rw [hb, Option.map_some]))).2.2
        have hoid : c.of_bytes b ∈ live := by
          by_contra hnot
          apply halive
          refine ⟨hseen (by rw [hb]; simp), ?_⟩
          rw [hpath, oid_blob_path]
          simp [hnot]
        obtain ⟨p, hp, text, oids, htext, hoids, hname⟩ := hnamed _ hoid
        cases p with
        | file a head rest => cases (List.mem_filter.mp hp).2
        | ref name =>
          cases hleft name with
          | inl hnone =>
            rw [read_if_exists, hnone] at htext
            cases htext
          | inr hsame =>
            cases hrefs name with
            | inl hnone =>
              rw [read_if_exists, hsame, hnone] at htext
              cases htext
            | inr hsome =>
              obtain ⟨put, hput, hpath', hfile, _, hplace⟩ := hsome
              rw [read_ref_text (hsame.trans hfile)] at htext
              cases htext
              rw [line_zero_ref_text] at hoids hname
              rw [hmanifest put hplace] at hoids
              cases hoids
              have hkeep : key_line put.key ∈ keep := by
                by_contra hnot
                have hgone : r.1.files (.ref name) = none := by
                  rw [hdrop, if_pos]
                  refine ⟨hp, _, read_ref_text hfile, ?_⟩
                  rwa [hlines]
                rw [hsame, hfile] at hgone
                cases hgone
              refine ⟨put, hput, hplace, hkeep, ?_⟩
              cases hname with
              | inl heq => exact ⟨_, manifest_mem_objects, hpath.trans (blob_path_congr heq)⟩
              | inr hmem =>
                obtain ⟨o, ho, heq⟩ := object_of_oid hmem
                exact ⟨o, ho, hpath.trans (blob_path_congr heq.symm)⟩

end cgx.store
