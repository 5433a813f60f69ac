import Cgx.Store.PutSteps

open cgx.core disk

namespace cgx.store

variable {Bytes : Type} {c : Codec Bytes} {U : Set Bytes} {puts : List PutCall}
  {d : StoreDisk Bytes} {through : Bool}

/-! ### What the functions of a prune do -/

theorem tmp_of_is_tmp {p : Path} (h : p.is_tmp = true) : ∃ q : Path, p = q.tmp := by
  have hsplit : ∀ name : String, (".tmp".toList).isSuffixOf name.toList = true →
      ∃ base : String, name = base ++ ".tmp" := by
    intro name hname
    obtain ⟨base, hbase⟩ := List.isSuffixOf_iff_suffix.mp hname
    refine ⟨String.ofList base, ?_⟩
    apply String.toList_inj.mp
    rw [String.toList_append, String.toList_ofList, hbase]
  cases p with
  | ref name =>
    obtain ⟨base, rfl⟩ := hsplit name h
    exact ⟨.ref base, rfl⟩
  | file a head rest =>
    obtain ⟨base, rfl⟩ := hsplit rest h
    exact ⟨.file a head base, rfl⟩

theorem is_tmp_tmp (p : Path) : p.tmp.is_tmp = true := by
  cases p with
  | ref name =>
    exact List.isSuffixOf_iff_suffix.mpr ⟨name.toList, (String.toList_append ..).symm⟩
  | file a head rest =>
    exact List.isSuffixOf_iff_suffix.mpr ⟨rest.toList, (String.toList_append ..).symm⟩

theorem regular_iff {p : Path} : Regular p ↔ p.is_tmp = false := by
  constructor
  · intro hreg
    by_contra h
    obtain ⟨q, hq⟩ := tmp_of_is_tmp (by simpa using h)
    exact hreg q hq
  · intro h q hq
    rw [hq, is_tmp_tmp] at h
    cases h

namespace Session

theorem perform_all_append (s : Session Bytes) (a b : List (StoreOp Bytes)) :
    s.perform_all (a ++ b) = (s.perform_all a).perform_all b :=
  List.foldl_append

/-- What a selective removal takes away. -/
theorem remove_where_steps (s : Session Bytes) (dead : Path → Bool) (listing : List Path) :
    ∃ ps : List Path, s.remove_where dead listing = s.perform_all (ps.map .remove) ∧
      ∀ p ∈ ps, p ∈ listing ∧ dead p = true := by
  induction listing generalizing s with
  | nil => exact ⟨[], rfl, by simp⟩
  | cons p rest ih =>
    rw [remove_where, List.foldl_cons]
    split
    · rename_i hp
      obtain ⟨ps, hps, hall⟩ := ih (s.perform (.remove p))
      refine ⟨p :: ps, hps, ?_⟩
      intro q hq
      cases List.mem_cons.mp hq with
      | inl heq =>
        subst heq
        exact ⟨List.mem_cons_self, (Bool.and_eq_true_iff.mp hp).2⟩
      | inr hmem => exact ⟨List.mem_cons_of_mem p (hall q hmem).1, (hall q hmem).2⟩
    · obtain ⟨ps, hps, hall⟩ := ih s
      exact ⟨ps, hps, fun q hq => ⟨List.mem_cons_of_mem p (hall q hq).1, (hall q hq).2⟩⟩

/-- What is left by a selective removal. -/
theorem remove_where_files (s : Session Bytes) (dead : Path → Bool) (listing : List Path) (q : Path) :
    (s.remove_where dead listing).files q =
      if q ∈ listing ∧ dead q = true then none else s.files q := by
  induction listing generalizing s with
  | nil => simp [remove_where]
  | cons p rest ih =>
    rw [remove_where, List.foldl_cons]
    have hrest := fun s : Session Bytes => ih s
    simp only [remove_where] at hrest
    split
    · rename_i hp
      rw [hrest]
      by_cases hq : q = p
      · subst hq
        have hdead := (Bool.and_eq_true_iff.mp hp).2
        simp [perform, Files.step, hdead]
      · simp [perform, Files.step, hq]
    · rename_i hp
      rw [hrest]
      by_cases hq : q = p
      · subst hq
        cases hdead : dead q with
        | false => simp
        | true =>
          have hnone : s.files q = none := by simpa [present, hdead] using hp
          simp [hnone]
      · simp [hq]

end Session

theorem sweep_tmp_steps (s : Session Bytes) (listing : List Path) :
    ∃ ps : List Path, sweep_tmp s listing = s.perform_all (ps.map .remove) ∧
      ∀ p ∈ ps, p.is_tmp = true := by
  obtain ⟨refs, hrefs, hrefs_tmp⟩ := s.remove_where_steps (fun p => p.is_ref && p.is_tmp) listing
  obtain ⟨objects, hobjects, hobjects_tmp⟩ := (s.perform_all (refs.map .remove)).remove_where_steps
    (fun p => p.in_area .objects && p.is_tmp) listing
  obtain ⟨fragments, hfragments, hfragments_tmp⟩ :=
    ((s.perform_all (refs.map .remove)).perform_all (objects.map .remove)).remove_where_steps
      (fun p => p.in_area .fragments && p.is_tmp) listing
  refine ⟨refs ++ objects ++ fragments, ?_, ?_⟩
  · rw [sweep_tmp]
    simp only [hrefs, hobjects, hfragments, List.map_append, Session.perform_all_append]
  · intro p hp
    rw [List.mem_append, List.mem_append] at hp
    obtain (href | hobject) | hfragment := hp
    · exact (Bool.and_eq_true_iff.mp (hrefs_tmp p href).2).2
    · exact (Bool.and_eq_true_iff.mp (hobjects_tmp p hobject).2).2
    · exact (Bool.and_eq_true_iff.mp (hfragments_tmp p hfragment).2).2

theorem drop_refs_steps (keep : List String) (s : Session Bytes) (refs : List Path) :
    ∃ ps : List Path, (drop_refs c keep s refs).1 = s.perform_all (ps.map .remove) ∧
      ∀ p ∈ ps, p ∈ refs := by
  induction refs generalizing s with
  | nil => exact ⟨[], rfl, by simp⟩
  | cons p rest ih =>
    have hkeep : ∃ ps : List Path, (drop_refs c keep s rest).1 = s.perform_all (ps.map .remove) ∧
        ∀ q ∈ ps, q ∈ p :: rest := by
      obtain ⟨ps, hps, hall⟩ := ih s
      exact ⟨ps, hps, fun q hq => List.mem_cons_of_mem p (hall q hq)⟩
    rw [drop_refs]
    cases read_if_exists c s.files p with
    | error e => exact ⟨[], rfl, by simp⟩
    | ok text =>
      cases text with
      | none => exact hkeep
      | some text =>
        simp only
        split
        · exact hkeep
        · obtain ⟨ps, hps, hall⟩ := ih (s.perform (.remove p))
          refine ⟨p :: ps, hps, ?_⟩
          intro q hq
          cases List.mem_cons.mp hq with
          | inl heq => exact heq ▸ List.mem_cons_self
          | inr hmem => exact List.mem_cons_of_mem p (hall q hmem)

/-- All that a prune does: it removes temporary files and refs, and then, if every manifest
it looks at lets it, objects that are not live. -/
theorem prune_graphs_except_steps (s : Session Bytes) (listing : List Path) (keep : List String) :
    ∃ ps qs : List Path,
      (prune_graphs_except c s listing keep).1 =
        (s.perform_all (ps.map .remove)).perform_all (qs.map .remove) ∧
      (∀ p ∈ ps, p.is_tmp = true ∨ p.is_ref = true) ∧
      (qs = [] ∨ ∃ live,
        live_oids c (s.perform_all (ps.map .remove)).files (listing.filter Path.is_ref) = .ok (some live) ∧
          ∀ q ∈ qs, ∃ oid, q.oid .objects = some oid ∧ oid ∉ live) := by
  obtain ⟨tmps, htmps, htmp⟩ := sweep_tmp_steps s listing
  obtain ⟨refs, hrefs, href⟩ := drop_refs_steps (c := c) keep (sweep_tmp s listing)
    (listing.filter Path.is_ref)
  have hall : ∀ p ∈ tmps ++ refs, p.is_tmp = true ∨ p.is_ref = true := by
    intro p hp
    cases List.mem_append.mp hp with
    | inl hmem => exact .inl (htmp p hmem)
    | inr hmem => exact .inr (List.mem_filter.mp (href p hmem)).2
  have hdrop : (drop_refs c keep (sweep_tmp s listing) (listing.filter Path.is_ref)).1 =
      s.perform_all ((tmps ++ refs).map .remove) := by
    rw [hrefs, htmps, List.map_append, Session.perform_all_append]
  rw [prune_graphs_except]
  cases hres : drop_refs c keep (sweep_tmp s listing) (listing.filter Path.is_ref) with
  | mk s' dropped =>
    rw [hres] at hdrop
    simp only at hdrop
    subst hdrop
    cases dropped with
    | error e => exact ⟨tmps ++ refs, [], rfl, hall, .inl rfl⟩
    | ok removed =>
      simp only
      cases hlive : live_oids c (s.perform_all ((tmps ++ refs).map .remove)).files
          (listing.filter Path.is_ref) with
      | error e => exact ⟨tmps ++ refs, [], rfl, hall, .inl rfl⟩
      | ok live =>
        cases live with
        | none => exact ⟨tmps ++ refs, [], rfl, hall, .inl rfl⟩
        | some live =>
          obtain ⟨qs, hqs, hdead⟩ := (s.perform_all ((tmps ++ refs).map .remove)).remove_where_steps
            (fun p => (p.oid .objects).any fun oid => oid ∉ live) listing
          refine ⟨tmps ++ refs, qs, hqs, hall, .inr ⟨live, hlive, ?_⟩⟩
          intro q hq
          obtain ⟨oid, hoid, hnot⟩ := (Option.any_eq_true _ _).mp (hdead q hq).2
          exact ⟨oid, hoid, by simpa using hnot⟩

/-! ### Which removals are allowed -/

/-- No ref that a power loss may leave needs a path that `dead` selects. -/
def Unneeded (c : Codec Bytes) (puts : List PutCall) (d : StoreDisk Bytes) (dead : Path → Prop) : Prop :=
  ∀ name x, Regular (.ref name) → some x ∈ d.versions (.ref name) →
    ∃ put ∈ puts, Backed c d put (.ref name) x.data ∧ ∀ o ∈ put.objects c, ¬ dead (blob_path c o)

theorem Unneeded.allowed {dead : Path → Prop} (h : Unneeded c puts d dead) {p : Path} (hp : dead p) :
    Allowed c U puts d (.remove p) := by
  intro name x hreg hx
  obtain ⟨put, hput, hback, havoid⟩ := h name x hreg hx
  refine ⟨put, hput, hback, ?_⟩
  intro o ho heq
  exact havoid o ho (heq ▸ hp)

/-- Paths that no object has are unneeded. -/
theorem unneeded_of_inv (hinv : Inv c U puts d) {dead : Path → Prop}
    (hdead : ∀ o, ¬ dead (blob_path c o)) : Unneeded c puts d dead := by
  intro name x hreg hx
  obtain ⟨_, put, hput, hback⟩ := hinv.refs name x hreg hx
  exact ⟨put, hput, hback, fun o _ => hdead o⟩

/-- Removing what is not needed needs nothing more. -/
theorem Unneeded.advance (hinj : Set.InjOn c.of_bytes U) (hknown : Known c U puts) {dead : Path → Prop} (h : Unneeded c puts d dead) {p : Path} (hp : dead p) :
    Unneeded c puts (d.advance through (.remove p)) dead := by
  have hallowed : Allowed c U puts d (.remove p) := h.allowed hp
  have hstep : Unneeded c puts (d.step (.remove p)) dead := by
    intro name x hreg hx
    cases version_of_step hallowed hreg hx with
    | inr hrename =>
      obtain ⟨_, heq, _⟩ := hrename
      cases heq
    | inl hold =>
      obtain ⟨put, hput, hback, havoid⟩ := h name x hreg hold
      refine ⟨put, hput, hback.mono ?_, havoid⟩
      intro o ho hdur
      apply durable_step hinj hallowed ((hknown put hput).2 o ho) hdur
      intro heq
      cases heq
      exact havoid o ho hp
  cases through with
  | false => exact hstep
  | true =>
    intro name x hreg hx
    have hx := Disk.mem_versions_settled.mp hx
    obtain ⟨b, hb, hxb⟩ := Option.map_eq_some_iff.mp hx.symm
    obtain ⟨y, hy, rfl⟩ := Option.map_eq_some_iff.mp hb
    have hmem : some y ∈ (d.step (.remove p)).versions (.ref name) := hy ▸ Disk.mem_versions_now _ _
    obtain ⟨put, hput, hback, havoid⟩ := hstep name y hreg hmem
    refine ⟨put, hput, ?_, havoid⟩
    rw [← hxb]
    exact hback.mono fun o _ hdur => Disk.durable_settled hdur.files (grounded _)

/-- A run of removals of what is not needed is allowed, and leaves it so. -/
theorem allowed_removals (hinj : Set.InjOn c.of_bytes U) (hknown : Known c U puts)
    (hinv : Inv c U puts d) {dead : Path → Prop} (h : Unneeded c puts d dead) {ps : List Path}
    (hps : ∀ p ∈ ps, dead p) :
    AllowedAll c U puts through d (ps.map .remove) ∧
      Unneeded c puts (advance_all through d (ps.map .remove)) dead := by
  induction ps generalizing d with
  | nil => exact ⟨trivial, h⟩
  | cons p rest ih =>
    have hp := hps p List.mem_cons_self
    have hallowed : Allowed c U puts d (.remove p) := h.allowed hp
    obtain ⟨hrest, hlast⟩ := ih (inv_advance hinj hknown hinv hallowed)
      (h.advance hinj hknown hp) fun q hq => hps q (List.mem_cons_of_mem p hq)
    exact ⟨⟨hallowed, hrest⟩, hlast⟩

theorem ne_blob_of_tmp_or_ref {p : Path} (h : p.is_tmp = true ∨ p.is_ref = true) (o : Bytes) :
    p ≠ blob_path c o := by
  intro heq
  subst heq
  cases h with
  | inl htmp =>
    have hreg := regular_iff.mp (regular_blob (c := c) o)
    rw [hreg] at htmp
    cases htmp
  | inr href => cases href

theorem oid_blob_path (o : Bytes) : (blob_path c o).oid .objects = some (c.of_bytes o) := by
  obtain ⟨hlen, hhex⟩ := c.of_bytes_hex o
  have hreg := regular_iff.mp (regular_blob (c := c) o)
  have hbytes : (String.ofList ((c.of_bytes o).toList.take 2)).utf8ByteSize = 2 := by
    generalize (c.of_bytes o).toList = l at hlen hhex
    match l, hlen, hhex with
    | x :: y :: rest, _, hhex =>
      have hx := is_hex_utf8Size (hhex x (by simp))
      have hy := is_hex_utf8Size (hhex y (by simp))
      have htwo : String.ofList ((x :: y :: rest).take 2) = String.singleton x ++ String.singleton y := by
        apply String.toList_inj.mp
        simp
      rw [htwo, String.utf8ByteSize_append, String.utf8ByteSize_singleton, String.utf8ByteSize_singleton,
        hx, hy]
  rw [blob_path] at hreg ⊢
  rw [Path.oid, if_pos ⟨rfl, hbytes, by simp [hreg]⟩, ← String.ofList_append, List.take_append_drop,
    String.ofList_toList]

/-! ### What a put's objects are called -/

variable {put : PutCall}

theorem Backed.in_place {q : Path} {b : Bytes} (h : Backed c d put q b) {o : Bytes}
    (ho : o ∈ put.objects c) : d.files (blob_path c o) = some o :=
  (h.objects o ho).files

theorem manifest_mem_objects : put.manifest c ∈ put.objects c :=
  manifest_mem_put_objects

/-- The ref of a call names its manifest. -/
theorem read_text_ref : c.read_text (put.ref c) = some (ref_text (c.of_bytes (put.manifest c)) put.key) :=
  c.read_as_bytes _

/-- A manifest in place names the other objects. -/
theorem manifest_oids_in_place {files : StoreFiles Bytes}
    (h : files (blob_path c (put.manifest c)) = some (put.manifest c)) :
    manifest_oids c files (c.of_bytes (put.manifest c)) =
      .ok (some (manifest_of c put.key put.created_rev put.g (put.sk c)).referenced_oids) := by
  have hread : read_object c files (c.of_bytes (put.manifest c)) = .ok (put.manifest c) :=
    read_object_ok_iff.mpr ⟨rfl, h⟩
  rw [manifest_oids, hread]
  simp only [PutCall.manifest, c.decode_header_encode, c.decode_encode_manifest]
  rfl

theorem oid_of_object {o : Bytes} (ho : o ∈ put.objects c) :
    c.of_bytes o = c.of_bytes (put.manifest c) ∨
      c.of_bytes o ∈ (manifest_of c put.key put.created_rev put.g (put.sk c)).referenced_oids := by
  cases List.mem_append.mp ho with
  | inr hmanifest =>
    rw [List.mem_singleton.mp hmanifest]
    exact .inl rfl
  | inl hshard =>
    obtain ⟨sh, hsh, rfl⟩ := List.mem_map.mp hshard
    apply Or.inr
    rw [Manifest.referenced_oids, manifest_of, List.map_map]
    exact List.mem_map_of_mem (f := fun sh : String × Shard => c.of_bytes (c.encode_shard sh.2)) hsh

/-! ### The steps of a prune are allowed -/

/-- Everything there is, is listed. -/
def Lists (files : StoreFiles Bytes) (listing : List Path) : Prop :=
  ∀ p, (files p).isSome → p ∈ listing

def prune_graphs_log (c : Codec Bytes) (files : StoreFiles Bytes) (listing : List Path)
    (keep : List String) : List (StoreOp Bytes) :=
  (prune_graphs_except c (.start files) listing keep).1.log

def prune_log (files : StoreFiles Bytes) (listing : List Path) (live : List String) (aggressive : Bool) :
    List (StoreOp Bytes) :=
  (prune (.start files) listing live aggressive).1.log

/-- A prune of fragments touches neither refs nor objects. -/
theorem allowed_prune (hinj : Set.InjOn c.of_bytes U) (hknown : Known c U puts) (hinv : Inv c U puts d)
    (listing : List Path) (live : List String) (aggressive : Bool) :
    AllowedAll c U puts through d (prune_log d.files listing live aggressive) := by
  obtain ⟨ps, hps, hdead⟩ := (Session.start d.files).remove_where_steps
    (fun p => (p.oid .fragments).any fun oid => oid ∉ live) listing
  have hlog : prune_log d.files listing live aggressive = ps.map .remove := by
    rw [prune_log, prune]
    simp only [hps]
    rw [Session.perform_all_log]
    exact List.nil_append _
  have hunneeded : Unneeded c puts d fun p => ∃ oid, p.oid .fragments = some oid := by
    apply unneeded_of_inv hinv
    rintro o ⟨oid, hoid⟩
    simp [blob_path, Path.oid] at hoid
  rw [hlog]
  refine (allowed_removals hinj hknown hinv hunneeded ?_).1
  intro p hp
  obtain ⟨oid, hoid, _⟩ := (Option.any_eq_true _ _).mp (hdead p hp).2
  exact ⟨oid, hoid⟩

/-- No object that the prune sweeps is named by a ref that a power loss may leave. -/
def SweepsUnnamed (c : Codec Bytes) (d : StoreDisk Bytes) (listing : List Path) (keep : List String) : Prop :=
  ∀ p oid, .remove p ∈ prune_graphs_log c d.files listing keep → p.oid .objects = some oid →
    ∀ name x text, Regular (.ref name) → some x ∈ d.versions (.ref name) →
      c.read_text x.data = some text →
        oid ≠ line 0 text ∧ ∀ oids, manifest_oids c d.files (line 0 text) = .ok (some oids) → oid ∉ oids

theorem allowed_prune_graphs (hinj : Set.InjOn c.of_bytes U) (hknown : Known c U puts)
    (hinv : Inv c U puts d) {listing : List Path} {keep : List String}
    (hsweep : SweepsUnnamed c d listing keep) :
    AllowedAll c U puts through d (prune_graphs_log c d.files listing keep) := by
  obtain ⟨ps, qs, hsteps, hps, hqs⟩ := prune_graphs_except_steps (c := c) (.start d.files) listing keep
  have hlog : prune_graphs_log c d.files listing keep = (ps ++ qs).map .remove := by
    rw [prune_graphs_log, hsteps, Session.perform_all_log, Session.perform_all_log, List.map_append]
    rfl
  have hunneeded : Unneeded c puts d fun p => (p.is_tmp = true ∨ p.is_ref = true) ∨ p ∈ qs := by
    intro name x hreg hx
    obtain ⟨_, put, hput, hback⟩ := hinv.refs name x hreg hx
    refine ⟨put, hput, hback, ?_⟩
    intro o ho hdead
    cases hdead with
    | inl hother => exact ne_blob_of_tmp_or_ref hother o rfl
    | inr hmem =>
      have hremove : .remove (blob_path c o) ∈ prune_graphs_log c d.files listing keep := by
        rw [hlog]
        exact List.mem_map_of_mem (List.mem_append_right _ hmem)
      obtain ⟨hmanifest, hshards⟩ := hsweep _ _ hremove (oid_blob_path o) name x _ hreg hx
        (by rw [hback.contents]; exact read_text_ref)
      rw [line_zero_ref_text] at hmanifest hshards
      cases oid_of_object ho with
      | inl heq => exact hmanifest heq
      | inr hmem => exact hshards _ (manifest_oids_in_place (hback.in_place manifest_mem_objects)) hmem
  rw [hlog]
  refine (allowed_removals hinj hknown hinv hunneeded ?_).1
  intro p hp
  cases List.mem_append.mp hp with
  | inl hmem => exact .inl (hps p hmem)
  | inr hmem => exact .inr hmem

/-! ### Without power loss -/

theorem live_oids_spec {files : StoreFiles Bytes} {refs : List Path} {live : List String}
    (h : live_oids c files refs = .ok (some live)) {p : Path} (hp : p ∈ refs) {text : String}
    (htext : read_if_exists c files p = .ok (some text)) :
    line 0 text ∈ live ∧
      ∃ oids, manifest_oids c files (line 0 text) = .ok (some oids) ∧ ∀ oid ∈ oids, oid ∈ live := by
  induction refs generalizing live with
  | nil => cases hp
  | cons q rest ih =>
    rw [live_oids] at h
    split at h
    · cases h
    · rename_i hnone
      cases List.mem_cons.mp hp with
      | inl heq =>
        subst heq
        rw [hnone] at htext
        cases htext
      | inr hmem => exact ih h hmem
    · rename_i text' hsome
      split at h
      · cases h
      · cases h
      · rename_i oids hoids
        split at h
        · cases h
        · cases h
        · rename_i live' hlive
          simp only [Except.ok.injEq, Option.some.injEq] at h
          subst h
          cases List.mem_cons.mp hp with
          | inl heq =>
            subst heq
            rw [hsome] at htext
            cases htext
            refine ⟨List.mem_cons_self, oids, hoids, ?_⟩
            intro oid hoid
            exact List.mem_cons_of_mem _ (List.mem_append_left _ hoid)
          | inr hmem =>
            obtain ⟨hline, oids', hoids', hall⟩ := ih hlive hmem
            refine ⟨List.mem_cons_of_mem _ (List.mem_append_right _ hline), oids', hoids', ?_⟩
            intro oid hoid
            exact List.mem_cons_of_mem _ (List.mem_append_right _ (hall oid hoid))

theorem advance_all_settled (files : StoreFiles Bytes) (ops : List (StoreOp Bytes)) :
    advance_all true (Disk.settled files) ops = Disk.settled (files.run ops) := by
  induction ops generalizing files with
  | nil => rfl
  | cons op rest ih =>
    rw [Files.run_cons, ← ih, advance_all, List.foldl_cons, Disk.advance_through, Disk.files_step,
      Disk.files_settled]
    rfl

/-- Without power loss, a prune with a full listing sweeps only what no ref needs. -/
theorem allowed_prune_graphs_settled (hinj : Set.InjOn c.of_bytes U) (hknown : Known c U puts)
    {files : StoreFiles Bytes} (hinv : Inv c U puts (Disk.settled files)) {listing : List Path}
    (hlist : Lists files listing) (keep : List String) :
    AllowedAll c U puts true (Disk.settled files) (prune_graphs_log c files listing keep) := by
  obtain ⟨ps, qs, hsteps, hps, hqs⟩ := prune_graphs_except_steps (c := c) (.start files) listing keep
  have hlog : prune_graphs_log c files listing keep = ps.map .remove ++ qs.map .remove := by
    rw [prune_graphs_log, hsteps, Session.perform_all_log, Session.perform_all_log]
    rfl
  have hunneeded : Unneeded c puts (Disk.settled files) fun p => p.is_tmp = true ∨ p.is_ref = true :=
    unneeded_of_inv hinv fun o h => ne_blob_of_tmp_or_ref h o rfl
  have hfirst : AllowedAll c U puts true (Disk.settled files) (ps.map .remove) ∧ _ :=
    allowed_removals hinj hknown hinv hunneeded hps
  have hinv' := inv_advance_all hinj hknown hinv hfirst.1
  rw [hlog, allowedAll_append]
  refine ⟨hfirst.1, ?_⟩
  cases hqs with
  | inl hnil =>
    subst hnil
    trivial
  | inr hlive =>
    obtain ⟨live, hlive, hdead⟩ := hlive
    rw [Session.perform_all_files] at hlive
    rw [advance_all_settled] at hinv' ⊢
    generalize hrun : files.run (ps.map .remove) = files' at hlive hinv'
    have hlive : live_oids c files' (listing.filter Path.is_ref) = .ok (some live) := by
      rw [← hrun]
      exact hlive
    have hunneeded : Unneeded c puts (Disk.settled files')
        fun p => ∃ oid, p.oid .objects = some oid ∧ oid ∉ live := by
      intro name x hreg hx
      obtain ⟨_, put, hput, hback⟩ := hinv'.refs name x hreg hx
      refine ⟨put, hput, hback, ?_⟩
      rintro o ho ⟨oid, hoid, hnot⟩
      rw [oid_blob_path, Option.some.injEq] at hoid
      subst hoid
      have hx := Disk.mem_versions_settled.mp hx
      obtain ⟨b, hb, hxb⟩ := Option.map_eq_some_iff.mp hx.symm
      subst hxb
      have htext : read_if_exists c files' (.ref name) =
          .ok (some (ref_text (c.of_bytes (put.manifest c)) put.key)) := by
        have hcontents : b = put.ref c := hback.contents
        rw [read_if_exists, hb, hcontents]
        simp only [read_text_ref]
      have hlisted : Path.ref name ∈ listing.filter Path.is_ref := by
        refine List.mem_filter.mpr ⟨hlist _ ?_, rfl⟩
        have hstays : ∀ (ps : List Path) (files : StoreFiles Bytes),
            (files.run (ps.map .remove : List (StoreOp Bytes)) (.ref name)).isSome →
              (files (.ref name)).isSome := by
          intro ps
          induction ps with
          | nil => exact fun _ h => h
          | cons p rest ih =>
            intro files h
            have hstep := ih _ h
            by_cases hp : Path.ref name = p
            · simp [Files.step, hp] at hstep
            · simpa [Files.step, hp] using hstep
        apply hstays ps
        rw [hrun, hb]
        rfl
      obtain ⟨hline, oids, hoids, hall⟩ := live_oids_spec hlive hlisted htext
      rw [line_zero_ref_text] at hline hoids
      have hplace := hback.in_place (manifest_mem_objects (c := c))
      rw [Disk.files_settled] at hplace
      rw [manifest_oids_in_place hplace] at hoids
      cases hoids
      cases oid_of_object ho with
      | inl heq => exact hnot (heq ▸ hline)
      | inr hmem => exact hnot (hall _ hmem)
    exact (allowed_removals hinj hknown hinv' hunneeded hdead).1

end cgx.store
