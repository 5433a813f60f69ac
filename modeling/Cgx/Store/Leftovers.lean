import Cgx.Store.Reader

open cgx.core disk

namespace cgx.store

variable {Bytes : Type} [Inhabited Bytes] {c : Codec Bytes} {puts : List PutCall}

/-! ### What killed runs leave among the refs -/

/-- The temporary file of a ref: just created, or with what the ref is to hold. -/
def Leftover (c : Codec Bytes) (puts : List PutCall) (p : Path) (b : Bytes) : Prop :=
  ∃ put ∈ puts, p = (ref_path c put.key).tmp ∧ (b = default ∨ put.Accepted c ∧ b = put.ref c)

/-- The temporary files among the refs are those of the calls. -/
def Leftovers (c : Codec Bytes) (puts : List PutCall) (files : StoreFiles Bytes) : Prop :=
  ∀ name b, ¬ Regular (.ref name) → files (.ref name) = some b → Leftover c puts (.ref name) b

/-- A step that leaves no others. -/
def Tidy (c : Codec Bytes) (puts : List PutCall) : StoreOp Bytes → Prop
  | .write p b => p.is_ref = true → Leftover c puts p b
  | .rename _ q => Regular q
  | _ => True

theorem Leftover.cons {p : Path} {b : Bytes} (h : Leftover c puts p b) (put : PutCall) :
    Leftover c (put :: puts) p b := by
  obtain ⟨put', hput', hrest⟩ := h
  exact ⟨put', List.mem_cons_of_mem put hput', hrest⟩

theorem Leftovers.step {files : StoreFiles Bytes} (h : Leftovers c puts files) {op : StoreOp Bytes}
    (hop : Tidy c puts op) : Leftovers c puts (files.step op) := by
  intro name b hname hfile
  cases op with
  | mkdir | flush | sync => exact h name b hname hfile
  | remove p =>
    by_cases heq : Path.ref name = p
    · rw [Files.step, heq, Function.update_self] at hfile
      cases hfile
    · rw [Files.step, Function.update_of_ne heq] at hfile
      exact h name b hname hfile
  | write p b' =>
    by_cases heq : Path.ref name = p
    · subst heq
      rw [Files.step, Function.update_self] at hfile
      cases hfile
      exact hop rfl
    · rw [Files.step, Function.update_of_ne heq] at hfile
      exact h name b hname hfile
  | rename p q =>
    have hq : Path.ref name ≠ q := by
      rintro rfl
      exact hname hop
    rw [Files.step] at hfile
    cases hp : files p with
    | none =>
      rw [hp] at hfile
      exact h name b hname hfile
    | some b' =>
      simp only [hp] at hfile
      by_cases heq : Path.ref name = p
      · rw [heq, Function.update_self] at hfile
        cases hfile
      · rw [Function.update_of_ne heq, Function.update_of_ne hq] at hfile
        exact h name b hname hfile

/-! ### The steps of the runs -/

theorem tidy_write_tmp_then_rename {path : Path} {b : Bytes} (hreg : Regular path)
    (h : path.is_ref = true → ∃ put ∈ puts, path = ref_path c put.key ∧ put.Accepted c ∧ b = put.ref c)
    {op : StoreOp Bytes} (hop : op ∈ write_tmp_then_rename path b) : Tidy c puts op := by
  have htmp : path.tmp.is_ref = path.is_ref := by cases path <;> rfl
  simp only [write_tmp_then_rename, List.mem_cons, List.not_mem_nil, or_false] at hop
  rcases hop with rfl | rfl | rfl | rfl | rfl
  · trivial
  · intro href
    obtain ⟨put, hput, hpath, _⟩ := h (htmp ▸ href)
    exact ⟨put, hput, by rw [hpath], .inl rfl⟩
  · intro href
    obtain ⟨put, hput, hpath, hcontents⟩ := h (htmp ▸ href)
    exact ⟨put, hput, by rw [hpath], .inr hcontents⟩
  · trivial
  · exact hreg

theorem tidy_put (files : StoreFiles Bytes) {put : PutCall} (hput : put ∈ puts) {op : StoreOp Bytes}
    (hop : op ∈ put_log c files put) : Tidy c puts op := by
  cases hres : (put_graph c (.start files) put.key put.created_rev put.g).2 with
  | error e =>
    rw [put_log, put_graph_error c hres] at hop
    cases hop
  | ok _ =>
    obtain ⟨hcheck, sk, hsk⟩ := put_graph_ok hres
    have haccepted := put.accepted_of_ok c hcheck hsk
    rw [put_log, put_graph_eq c _ _ _ hcheck haccepted.2, Session.perform_all_log, Session.perform_all_log,
      List.mem_append, List.mem_append, write_durable, List.mem_append] at hop
    obtain (hblobs | hcommit) | hrename | hsync := hop
    · obtain hstart | ⟨b, _, hwrite⟩ := mem_write_blobs_log _ _ hblobs
      · cases hstart
      · exact tidy_write_tmp_then_rename (regular_blob b) (fun href => by cases href) hwrite
    · obtain ⟨e, rfl⟩ := commit_syncs hcommit
      trivial
    · exact tidy_write_tmp_then_rename (regular_ref put.key) (fun _ => ⟨put, hput, rfl, haccepted, rfl⟩) hrename
    · rw [List.mem_singleton.mp hsync]
      trivial

omit [Inhabited Bytes] in
theorem tidy_removals {s : Session Bytes} {files : StoreFiles Bytes} {ps : List Path}
    (h : s = (Session.start files).perform_all (ps.map .remove)) {op : StoreOp Bytes} (hop : op ∈ s.log) :
    ∃ p, op = .remove p := by
  rw [h, Session.perform_all_log, Session.start, List.nil_append] at hop
  obtain ⟨p, _, rfl⟩ := List.mem_map.mp hop
  exact ⟨p, rfl⟩

namespace System

theorem Step.tidy {s s' : System Bytes} {e : Event Bytes} (hstep : Step c s e s') (hrunning : Running s e)
    (h : Leftovers c s.puts s.disk.files ∧ ∀ op ∈ s.todo, Tidy c s.puts op) :
    Leftovers c s'.puts s'.disk.files ∧ ∀ op ∈ s'.todo, Tidy c s'.puts op := by
  obtain ⟨hfiles, htodo⟩ := h
  cases hstep with
  | put_graph put hfree =>
    refine ⟨fun name b hname hfile => (hfiles name b hname hfile).cons put, ?_⟩
    intro op hop
    exact tidy_put s.disk.files List.mem_cons_self hop
  | prune_graphs_except listing keep hfree hlist =>
    refine ⟨hfiles, ?_⟩
    intro op hop
    obtain ⟨ps, qs, hsteps, _⟩ := prune_graphs_except_steps (c := c) (.start s.disk.files) listing keep
    rw [← Session.perform_all_append, ← List.map_append] at hsteps
    obtain ⟨p, rfl⟩ := tidy_removals hsteps hop
    trivial
  | prune listing live aggressive hfree =>
    refine ⟨hfiles, ?_⟩
    intro op hop
    obtain ⟨ps, hsteps, _⟩ := (Session.start s.disk.files).remove_where_steps
      (fun p => (p.oid .fragments).any fun oid => oid ∉ live) listing
    obtain ⟨p, rfl⟩ := tidy_removals hsteps hop
    trivial
  | @op op rest hop =>
    rw [hop] at htodo
    refine ⟨?_, fun op' hop' => htodo op' (List.mem_cons_of_mem op hop')⟩
    simp only [Disk.files_step]
    exact hfiles.step (htodo op List.mem_cons_self)
  | kill => exact ⟨hfiles, fun _ hop => by cases hop⟩
  | power_loss left hrec => cases hrunning

/-- Between any two steps, the temporary files among the refs are those of the calls. -/
theorem Reached.leftovers {s : System Bytes} (hrun : Reached c Running s) : Leftovers c s.puts s.disk.files := by
  have hall : Leftovers c s.puts s.disk.files ∧ ∀ op ∈ s.todo, Tidy c s.puts op := by
    induction hrun with
    | opened =>
      refine ⟨?_, fun _ hop => by cases hop⟩
      intro name b _ hfile
      cases hfile
    | step _ hrunning hstep ih => exact hstep.tidy hrunning ih
  exact hall.1

end System

end cgx.store
