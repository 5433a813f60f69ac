import Cgx.Index.Local

open cgx.core cgx.store disk

namespace cgx.index

variable {Bytes : Type} {c : Codec Bytes} {U : Set Bytes} {puts : List PutCall} {files : StoreFiles Bytes}

/-- A ref that is there stays there over a step that does not remove it. -/
theorem ref_stays {op : StoreOp Bytes} (hop : Allowed c U puts (Disk.settled files) op) {key : String}
    (hkeep : ref_path c key ∉ op.removes) (h : graph_for c files key = true) :
    graph_for c (files.step op) key = true := by
  obtain ⟨b, hb⟩ := graph_for_iff.mp h
  have hreg := regular_ref (c := c) key
  apply graph_for_iff.mpr
  by_cases hmem : ref_path c key ∈ op.changes
  · cases op with
    | mkdir | sync => cases hmem
    | write p b' =>
      rw [Op.changes, List.mem_singleton] at hmem
      exact absurd (hmem ▸ hreg) hop
    | flush p =>
      rw [Op.changes, List.mem_singleton] at hmem
      exact absurd (hmem ▸ hreg) hop
    | remove p => exact absurd hmem hkeep
    | rename p q =>
      have hne : ref_path c key ≠ p := by
        intro heq
        exact hop.1 (heq ▸ hreg)
      have hq : ref_path c key = q := by simpa [Op.changes, hne] using hmem
      subst hq
      rw [Files.step]
      cases files p with
      | none => exact ⟨b, hb⟩
      | some b' => exact ⟨b', by simp [hne]⟩
  · exact ⟨b, by rw [Files.step_of_not_changes hmem, hb]⟩

/-- What a load has established: between its test and its read the ref is there, and it
answers with a stored graph. -/
def LoaderInv (c : Codec Bytes) (U : Set Bytes) (puts : List PutCall) (files : StoreFiles Bytes)
    (gone : List Path) (seen : Option Bytes) : Loader → Prop
  | .test _ key => c.as_bytes key ∈ U
  | .read _ key reader => c.as_bytes key ∈ U ∧ ReaderInv c puts files gone key seen reader ∧
      (reader = .ref key ∧ graph_for c files key = true ∨ seen ≠ none ∧ ∀ k, reader ≠ .ref k)
  | .done (.ok (key, g)) => ∃ put ∈ puts, put.Accepted c ∧ put.key = key ∧ put.g = g
  | _ => True

theorem LoaderInv.answer {gone : List Path} {seen : Option Bytes} {key : String}
    {rebuild_if_corrupt : Bool} {result : Except StoreError LinkedGraph}
    (h : ∀ g, result = .ok g → ∃ put ∈ puts, put.Accepted c ∧ put.key = key ∧ put.g = g) :
    LoaderInv c U puts files gone seen (.answer rebuild_if_corrupt key result) := by
  cases result with
  | ok g => exact h g rfl
  | error e =>
    cases e with
    | Corrupt oid => cases rebuild_if_corrupt <;> trivial
    | _ => trivial

theorem step_ne_ref (r : Reader) (k : String) : r.step c files ≠ .ref k := by
  cases r with
  | ref k' =>
    rw [Reader.step]
    split <;> simp
  | manifest text =>
    rw [Reader.step]
    split <;> simp
  | shards oids loaded =>
    cases oids with
    | nil => simp [Reader.step]
    | cons oid rest =>
      rw [Reader.step]
      split <;> simp
  | done result => simp [Reader.step]

/-- One access of a load. -/
theorem LoaderInv.step (hinj : Set.InjOn c.of_bytes U) (hknown : Known c U puts)
    (hinv : Inv c U puts (Disk.settled files)) {pointer : Pointer}
    (hpointer : ∀ key, pointer = .graph_key key → c.as_bytes key ∈ U) {gone : List Path}
    {seen : Option Bytes} {loader : Loader} (h : LoaderInv c U puts files gone seen loader) :
    LoaderInv c U puts files gone (loader.sees c files seen) (loader.step c files pointer) := by
  cases loader with
  | pointer rebuild =>
    cases pointer with
    | missing | corrupt => trivial
    | graph_key key => exact hpointer key rfl
  | test rebuild key =>
    rw [Loader.step]
    split
    · rename_i hfor
      exact ⟨h, rfl, .inl ⟨rfl, hfor⟩⟩
    · exact .answer fun g hg => by cases hg
  | read rebuild key reader =>
    obtain ⟨hkey, hreader, hseen⟩ := h
    have hnext := hreader.step hinj hknown hinv hkey
    have hsees : reader.sees c files seen ≠ none := by
      cases hseen with
      | inl htested =>
        obtain ⟨rfl, hfor⟩ := htested
        obtain ⟨b, hb⟩ := graph_for_iff.mp hfor
        rw [Reader.sees, hb]
        exact Option.some_ne_none b
      | inr hread =>
        cases reader with
        | ref k => exact absurd rfl (hread.2 k)
        | manifest | shards | done => exact hread.1
    cases reader with
    | done result =>
      apply LoaderInv.answer
      intro g hg
      subst hg
      cases hreader with
      | inl hempty => exact absurd hempty.1 hsees
      | inr hput =>
        obtain ⟨put, hfollows, hresult⟩ := hput
        cases hresult with
        | inl hok =>
          cases hok
          exact ⟨put, hfollows.mem, hfollows.accepted, hfollows.key_eq, rfl⟩
        | inr hcorrupt =>
          obtain ⟨_, _, herror, _⟩ := hcorrupt
          cases herror
    | ref | manifest | shards => exact ⟨hkey, hnext, .inr ⟨hsees, step_ne_ref _⟩⟩
  | rebuild | await run => trivial
  | done result => exact h

section

variable [Inhabited Bytes]

/-- The files after a step of a writer. -/
theorem files_of_step {s s' : System Bytes} {e : Event Bytes} (hstep : System.Step c s e s')
    (hrunning : Running s e) :
    s'.disk.files = s.disk.files ∧ s.removes e = [] ∨
      ∃ op rest, s.todo = op :: rest ∧ s'.disk.files = s.disk.files.step op ∧ s.removes e = op.removes := by
  cases hstep with
  | put_graph | prune_graphs_except | prune | kill => exact .inl ⟨rfl, rfl⟩
  | op hop =>
    refine .inr ⟨_, _, hop, Disk.files_step _ _, ?_⟩
    rw [System.removes, hop]
    rfl
  | power_loss left hrec => cases hrunning

/-- A step of a writer that leaves the tested ref alone leaves a load on its way. -/
theorem LoaderInv.writer (hinj : Set.InjOn c.of_bytes U) {s s' : System Bytes} {e : Event Bytes}
    (hstep : System.Step c s e s') (hrunning : Running s e) (hknown : Known c U s'.puts)
    (hsound : store.Sound c U s) {gone : List Path} {seen : Option Bytes} {loader : Loader}
    (hkeep : ∀ rebuild key k, loader = .read rebuild key (.ref k) → ref_path c key ∉ s.removes e)
    (h : LoaderInv c U s.puts s.disk.files gone seen loader) :
    LoaderInv c U s'.puts s'.disk.files (gone ++ s.removes e) seen loader := by
  cases loader with
  | pointer | rebuild | await => trivial
  | test rebuild key => exact h
  | read rebuild key reader =>
    obtain ⟨hkey, hreader, hseen⟩ := h
    refine ⟨hkey, hreader.writer hinj hstep hrunning hknown hsound, ?_⟩
    cases hseen with
    | inr hread => exact .inr hread
    | inl htested =>
      obtain ⟨rfl, hfor⟩ := htested
      refine .inl ⟨rfl, ?_⟩
      have hkept := hkeep rebuild key key rfl
      cases files_of_step hstep hrunning with
      | inl hsame =>
        rw [hsame.1]
        exact hfor
      | inr hop =>
        obtain ⟨op, rest, htodo, hfiles, hremoves⟩ := hop
        have hallowed := hsound.todo
        rw [htodo] at hallowed
        rw [hremoves] at hkept
        rw [hfiles]
        exact ref_stays hallowed.1 hkept hfor
  | done result =>
    cases result with
    | error e => trivial
    | ok answer =>
      obtain ⟨put, hput, hrest⟩ := h
      refine ⟨put, ?_, hrest⟩
      cases hstep with
      | put_graph put' => exact List.mem_cons_of_mem put' hput
      | prune_graphs_except | prune | op | kill => exact hput
      | power_loss left hrec => cases hrunning

namespace Local

/-- What holds of a `.cgx/` while a load is on its way: a run that has put its graph can
only point at a known key. -/
structure Sound (c : Codec Bytes) (U : Set Bytes) (x : Local Bytes) : Prop where
  store : store.Sound c U x.sys
  pointer : ∀ key, x.pointer = .graph_key key → c.as_bytes key ∈ U
  runs : ∀ r ∈ x.runs, r.phase = .put ∨ r.phase = .failed ∨ r.put ∈ x.sys.puts
  loader : LoaderInv c U x.sys.puts x.sys.disk.files x.gone x.seen x.loader

omit [Inhabited Bytes] in
theorem mem_set_phase {x : Local Bytes} {run : Nat} {phase : Phase} {r : IndexRun}
    (h : r ∈ x.set_phase run phase) :
    r ∈ x.runs ∨ ∃ r', x.runs[run]? = some r' ∧ r = { r' with phase := phase } := by
  obtain ⟨i, hi⟩ := List.mem_iff_getElem?.mp h
  rw [set_phase, List.getElem?_modify] at hi
  obtain ⟨r', hr', rfl⟩ := Option.map_eq_some_iff.mp hi
  by_cases hrun : run = i
  · subst hrun
    exact .inr ⟨r', hr', by rw [if_pos rfl]⟩
  · rw [if_neg hrun]
    exact .inl (List.mem_of_getElem? hr')

theorem puts_of_step {s s' : System Bytes} {e : Event Bytes} (hstep : System.Step c s e s')
    {put : PutCall} (h : put ∈ s.puts) : put ∈ s'.puts := by
  cases hstep with
  | put_graph put' => exact List.mem_cons_of_mem put' h
  | prune_graphs_except | prune | op | kill | power_loss => exact h

/-- The puts and the files change only with the store. -/
theorem Step.known {x y : Local Bytes} {a : Act} (hstep : Step c x a y) (h : Known c U y.sys.puts) :
    Known c U x.sys.puts := by
  cases hstep with
  | put_graph _ _ hsys | prune_graphs_except _ _ hsys | op hsys | kill_holder _ hsys => exact hsys.known h
  | index_repo | release | write_pointer | kill | load | rebuild | rebuilt | rebuild_failed => exact h

/-- A step of a writer, with what it does to the runs. -/
theorem Sound.writer (hinj : Set.InjOn c.of_bytes U) {x : Local Bytes} {s : System Bytes}
    {e : Event Bytes} {lock : Option Nat} {runs : List IndexRun} {gone : List Path}
    (h : Sound c U x) (hsys : System.Step c x.sys e s) (hrunning : Running x.sys e)
    (hknown : Known c U s.puts) (hgone : gone = x.gone ++ x.sys.removes e)
    (hkeep : ∀ rebuild key k, x.loader = .read rebuild key (.ref k) → ref_path c key ∉ x.sys.removes e)
    (hruns : ∀ r ∈ runs, r ∈ x.runs ∨ r.phase = .failed ∨ r.put ∈ s.puts) :
    Sound c U { x with sys := s, lock := lock, runs := runs, gone := gone } := by
  refine ⟨hsys.sound hinj hrunning hknown h.store, h.pointer, ?_, ?_⟩
  · intro r hr
    cases hruns r hr with
    | inr hrest => exact .inr hrest
    | inl hold =>
      obtain hput | hfailed | hmem := h.runs r hold
      · exact .inl hput
      · exact .inr (.inl hfailed)
      · exact .inr (.inr (puts_of_step hsys hmem))
  · rw [hgone]
    exact h.loader.writer hinj hsys hrunning hknown h.store hkeep

/-- The same for a step that changes no file. -/
theorem Sound.writer_idle (hinj : Set.InjOn c.of_bytes U) {x : Local Bytes} {s : System Bytes}
    {e : Event Bytes} {lock : Option Nat} {runs : List IndexRun} (h : Sound c U x)
    (hsys : System.Step c x.sys e s) (hrunning : Running x.sys e) (hknown : Known c U s.puts)
    (hidle : x.sys.removes e = [])
    (hruns : ∀ r ∈ runs, r ∈ x.runs ∨ r.phase = .failed ∨ r.put ∈ s.puts) :
    Sound c U { x with sys := s, lock := lock, runs := runs } := by
  apply h.writer hinj hsys hrunning hknown _ _ hruns
  · rw [hidle, List.append_nil]
  · intro rebuild key k _
    rw [hidle]
    exact List.not_mem_nil

omit [Inhabited Bytes] in
/-- A run that moves on from a phase behind its put. -/
theorem Sound.of_set_phase {x : Local Bytes} {run : Nat} {phase : Phase}
    (h : ∀ r ∈ x.runs, r.phase = .put ∨ r.phase = .failed ∨ r.put ∈ x.sys.puts)
    (hrun : ∀ r, x.runs[run]? = some r → phase = .failed ∨ r.put ∈ x.sys.puts) {r : IndexRun}
    (hr : r ∈ x.set_phase run phase) : r.phase = .put ∨ r.phase = .failed ∨ r.put ∈ x.sys.puts := by
  cases mem_set_phase hr with
  | inl hold => exact h r hold
  | inr hnew =>
    obtain ⟨r', hr', rfl⟩ := hnew
    exact .inr (hrun r' hr')

theorem Step.sound (hinj : Set.InjOn c.of_bytes U) {x y : Local Bytes} {a : Act}
    (hstep : Step c x a y) (hkeeps : x.KeepsTestedRef c a) (hknown : Known c U y.sys.puts)
    (h : Sound c U x) : Sound c U y := by
  cases hstep with
  | index_repo put =>
    refine ⟨h.store, h.pointer, ?_, h.loader⟩
    intro r hr
    cases List.mem_append.mp hr with
    | inl hold => exact h.runs r hold
    | inr hnew => exact .inl (by rw [List.mem_singleton.mp hnew])
  | put_graph hrun hlock hsys =>
    apply h.writer_idle hinj hsys rfl hknown rfl
    intro r hr
    cases mem_set_phase hr with
    | inl hold => exact .inl hold
    | inr hnew =>
      obtain ⟨r', hr', rfl⟩ := hnew
      rw [hrun] at hr'
      cases hr'
      cases hsys
      exact .inr (.inr List.mem_cons_self)
  | prune_graphs_except hrun hlock hsys =>
    apply h.writer_idle hinj hsys rfl hknown rfl
    intro r hr
    cases mem_set_phase hr with
    | inl hold => exact .inl hold
    | inr hnew =>
      obtain ⟨r', hr', rfl⟩ := hnew
      rw [hrun] at hr'
      cases hr'
      have hput := (h.runs _ (List.mem_of_getElem? hrun)).resolve_left (by simp)
      exact .inr (.inr (puts_of_step hsys (hput.resolve_left (by simp))))
  | op hsys => exact h.writer hinj hsys rfl hknown rfl hkeeps fun r hr => .inl hr
  | @release run r hlock hfree hrun =>
    refine ⟨h.store, h.pointer, ?_, h.loader⟩
    intro r' hr'
    apply Sound.of_set_phase h.runs _ hr'
    intro r'' hr''
    rw [hrun] at hr''
    cases hr''
    obtain hput | hfailed | hmem := h.runs r (List.mem_of_getElem? hrun)
    · exact .inl (by rw [hput]; rfl)
    · exact .inl (by rw [hfailed]; rfl)
    · exact .inr hmem
  | @write_pointer run put hrun =>
    have hput : put ∈ x.sys.puts := by
      have hphase := (h.runs _ (List.mem_of_getElem? hrun)).resolve_left (by simp)
      exact hphase.resolve_left (by simp)
    refine ⟨h.store, ?_, ?_, h.loader⟩
    · intro key heq
      cases heq
      exact (hknown put hput).1
    · intro r hr
      apply Sound.of_set_phase h.runs _ hr
      intro r' hr'
      rw [hrun] at hr'
      cases hr'
      exact .inr hput
  | kill_holder hlock hsys =>
    apply h.writer_idle hinj hsys rfl hknown rfl
    intro r hr
    cases mem_set_phase hr with
    | inl hold => exact .inl hold
    | inr hnew =>
      obtain ⟨r', _, rfl⟩ := hnew
      exact .inr (.inl rfl)
  | kill hlock =>
    exact ⟨h.store, h.pointer, fun r hr => Sound.of_set_phase h.runs (fun _ _ => .inl rfl) hr, h.loader⟩
  | load => exact ⟨h.store, h.pointer, h.runs, h.loader.step hinj hknown h.store.inv h.pointer⟩
  | rebuild put hloader =>
    refine ⟨h.store, h.pointer, ?_, trivial⟩
    intro r hr
    cases List.mem_append.mp hr with
    | inl hold => exact h.runs r hold
    | inr hnew => exact .inl (by rw [List.mem_singleton.mp hnew])
  | rebuilt hloader hrun => exact ⟨h.store, h.pointer, h.runs, trivial⟩
  | rebuild_failed hloader hrun => exact ⟨h.store, h.pointer, h.runs, trivial⟩

theorem Run.sound (hinj : Set.InjOn c.of_bytes U) {x y : Local Bytes}
    (hrun : Run c (KeepsTestedRef c) x y) (hknown : Known c U y.sys.puts)
    (h : Known c U x.sys.puts → Sound c U x) : Sound c U y := by
  induction hrun with
  | start => exact h hknown
  | step _ hkeeps hstep ih => exact hstep.sound hinj hkeeps hknown (ih (hstep.known hknown))

/-- From any state of the store and any pointer: as long as no step removes the ref of the
load's key between its test and its read, a graph that the load returns was stored under
the key it returns. -/
theorem load_current_stored {s : System Bytes} (hreached : System.Reached c Running s)
    (pointer : Pointer) (rebuild_if_corrupt : Bool) {x : Local Bytes}
    (hrun : Run c (KeepsTestedRef c) (start s pointer rebuild_if_corrupt) x)
    (hinj : Set.InjOn c.of_bytes U) (hknown : Known c U x.sys.puts)
    (hpointer : ∀ key, pointer = .graph_key key → c.as_bytes key ∈ U) {key : String} {g : LinkedGraph}
    (hdone : x.loader = .done (.ok (key, g))) :
    ∃ put ∈ x.sys.puts, put.Accepted c ∧ put.key = key ∧ put.g = g := by
  have hsound := hrun.sound hinj hknown fun hknown =>
    ⟨hreached.sound hinj hknown, hpointer, by simp [start], trivial⟩
  have hloader := hsound.loader
  rw [hdone] at hloader
  exact hloader

/-- The lock holder can finish. -/
theorem Run.finish {ok : Local Bytes → Act → Prop} (hok : ∀ x, ok x .op) {x y : Local Bytes}
    (h : Run c ok x y) :
    Run c ok x
      { y with
        sys := { y.sys with disk := y.sys.disk.run y.sys.todo, todo := [] }
        gone := y.gone ++ y.sys.todo.flatMap Op.removes } := by
  obtain ⟨⟨d, todo, puts⟩, lock, pointer, runs, loader, seen, gone⟩ := y
  induction todo generalizing d gone with
  | nil =>
    rw [List.flatMap_nil, List.append_nil]
    exact h
  | cons op rest ih =>
    have hnext := ih _ _ (h.step (hok _) (.op (.op rfl)))
    rw [List.flatMap_cons, ← List.append_assoc]
    exact hnext

/-- Before a load goes on, an index run can put its graph and prune. -/
theorem Run.index_prunes {x y : Local Bytes} (h : Run c (fun _ _ => True) x y) (hlock : y.lock = none)
    (hfree : y.sys.todo = []) (hruns : y.runs = []) (put : PutCall)
    (hput : (store.put_graph c (.start y.sys.disk.files) put.key put.created_rev put.g).2.isOk = true)
    (listing : List Path)
    (hlist : Lists (y.sys.disk.run (put_log c y.sys.disk.files put)).files listing) :
    ∃ z, Run c (fun _ _ => True) x z ∧ z.loader = y.loader ∧ z.seen = y.seen ∧
      z.sys.puts = put :: y.sys.puts ∧
      z.sys.disk = (y.sys.disk.run (put_log c y.sys.disk.files put)).run
        (prune_graphs_log c (y.sys.disk.run (put_log c y.sys.disk.files put)).files listing [put.key]) := by
  obtain ⟨⟨d, todo, puts⟩, lock, pointer, runs, loader, seen, gone⟩ := y
  cases hlock
  cases hfree
  cases hruns
  have hindex := h.step (a := .index_repo put) trivial (.index_repo put)
  have hbegin := hindex.step (a := .put_graph 0) trivial (.put_graph rfl rfl (.put_graph put rfl))
  have hrelease := (hbegin.finish fun _ => trivial).step (a := .release) trivial (.release rfl rfl rfl)
  have hphase : some (⟨put, (Phase.putting
      (store.put_graph c (.start d.files) put.key put.created_rev put.g).2.isOk).release⟩ : IndexRun) =
        some ⟨put, .prune⟩ := by
    rw [hput]
    rfl
  have hprune := hrelease.step (a := .prune_graphs_except 0 listing) trivial
    (.prune_graphs_except hphase rfl
      (.prune_graphs_except listing [put.key] rfl hlist))
  exact ⟨_, hprune.finish fun _ => trivial, rfl, rfl, rfl, rfl⟩

end Local

end

namespace sample

open cgx.store.sample

/-- A load that is not disturbed. -/
def load_through (key : String) : Nat → Local Content
  | 0 => .start (stored_under key) (.graph_key key) false
  | n + 1 =>
    { load_through key n with
      loader := (load_through key n).loader.step codec (load_through key n).sys.disk.files
        (load_through key n).pointer
      seen := (load_through key n).loader.sees codec (load_through key n).sys.disk.files
        (load_through key n).seen }

theorem load_through_run (key : String) (n : Nat) :
    Local.Run codec (Local.KeepsTestedRef codec) (load_through key 0) (load_through key n) := by
  induction n with
  | zero => exact .start
  | succ n ih => exact ih.step (a := .load) trivial .load

theorem load_current_stored_one :
    ∃ put ∈ [put_under "a"], put.Accepted codec ∧ put.key = "a" ∧ put.g = graph := by
  have hkey : Content.text "a" ∈ contents := (by decide : Content.text "a" ∈ digests.map Prod.fst)
  exact Local.load_current_stored (stored_under_reached "a") (.graph_key "a") false
    (load_through_run "a" 7) injOn_contents (known_under hkey (by decide))
    (fun key heq => by cases heq; exact hkey) rfl

/-- The store after an index run put its graph under `b`. -/
def put_b_disk : StoreDisk Content :=
  (stored_under "a").disk.run (put_log codec (stored_under "a").disk.files (put_under "b"))

def listing_b : List Path :=
  listing_of "a" ++ (put_log codec (stored_under "a").disk.files (put_under "b")).flatMap Op.changes

theorem lists_b : Lists put_b_disk.files listing_b := by
  intro p hp
  by_contra hnot
  rw [listing_b, List.mem_append, not_or] at hnot
  have hsame : put_b_disk.files p = (stored_under "a").disk.files p := by
    rw [put_b_disk, Disk.files_run, Files.run_of_not_changes]
    intro op hop hmem
    exact hnot.2 (List.mem_flatMap.mpr ⟨op, hop, hmem⟩)
  rw [hsame] at hp
  exact hnot.1 (lists_listing_of "a" p hp)

/-- The load has tested for the ref of `a`, and read nothing yet. -/
def tested : Local Content :=
  ⟨stored_under "a", none, .graph_key "a", [], .read false "a" (.ref "a"), none, []⟩

theorem tested_run (ok : Local Content → Act → Prop) (hok : ∀ x, ok x .load) :
    Local.Run codec ok (.start (stored_under "a") (.graph_key "a") false) tested := by
  have htest : graph_for codec (stored_under "a").disk.files "a" = true := by decide
  have hloader : (Loader.test false "a").step codec (stored_under "a").disk.files (.graph_key "a") =
      .read false "a" (.ref "a") := by rw [Loader.step, if_pos htest]
  have hstart : Local.Run codec ok (.start (stored_under "a") (.graph_key "a") false) _ := .start
  have hload := (hstart.step (hok _) .load).step (hok _) .load
  change Local.Run codec ok _ ⟨stored_under "a", none, .graph_key "a", [],
    (Loader.test false "a").step codec (stored_under "a").disk.files (.graph_key "a"), none, []⟩ at hload
  rw [hloader] at hload
  exact hload

/-- An index run of another tree that prunes between a load's test and its read makes the
load return the empty graph, which was never stored under the key. -/
theorem pruned_graph_is_served_empty :
    System.Reached codec Running (stored_under "a") ∧
    ∃ x, Local.Run codec (fun _ _ => True) (.start (stored_under "a") (.graph_key "a") false) x ∧
      x.loader = .done (.ok ("a", .empty)) ∧ ∀ put ∈ x.sys.puts, put.key = "a" → put.g ≠ .empty := by
  have hput : (put_graph codec (.start (stored_under "a").disk.files) "b" none graph).2.isOk = true := by
    decide
  obtain ⟨z, hrun, hloader, hseen, hputs, hdisk⟩ :=
    (tested_run (fun _ _ => True) fun _ => trivial).index_prunes rfl rfl rfl (put_under "b") hput
      listing_b lists_b
  have hgone : (put_b_disk.run (prune_graphs_log codec put_b_disk.files listing_b ["b"])).files
      (ref_path codec "a") = none := by decide +kernel
  have hfile : z.sys.disk.files (ref_path codec "a") = none := by
    rw [hdisk]
    exact hgone
  have hread : read_if_exists codec z.sys.disk.files (ref_path codec "a") = .ok none := by
    rw [read_if_exists, hfile]
  have hnext : z.loader.step codec z.sys.disk.files z.pointer = .read false "a" (.done (.ok .empty)) := by
    rw [hloader, tested, Loader.step, Reader.step, hread]
    intro result heq
    cases heq
  have hload := hrun.step (a := .load) trivial .load
  rw [hnext] at hload
  have hanswer := hload.step (a := .load) trivial .load
  refine ⟨stored_under_reached "a", _, hanswer, rfl, ?_⟩
  intro put hput' hkey
  change put ∈ z.sys.puts at hput'
  rw [hputs, List.mem_cons] at hput'
  cases hput' with
  | inl heq =>
    subst heq
    exact absurd hkey (by decide)
  | inr hold =>
    rw [List.mem_singleton.mp hold]
    decide

end sample

end cgx.index
