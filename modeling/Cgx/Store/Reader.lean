import Cgx.Store.Collect

open cgx.core disk results

namespace cgx.store

variable {Bytes : Type}

/-! ### Runs without power loss -/

def Event.is_power_loss : Event Bytes → Bool
  | .power_loss _ => true
  | _ => false

/-- The machine keeps running. -/
def Running (_ : System Bytes) (e : Event Bytes) : Prop :=
  e.is_power_loss = false

theorem running_op (s : System Bytes) : Running s .op := rfl

section

variable [Inhabited Bytes] {c : Codec Bytes} {U : Set Bytes}

/-- What holds of the files that are seen, and of the lock holder's next steps. -/
structure Sound (c : Codec Bytes) (U : Set Bytes) (s : System Bytes) : Prop where
  inv : Inv c U s.puts (Disk.settled s.disk.files)
  todo : AllowedAll c U s.puts true (Disk.settled s.disk.files) s.todo

omit [Inhabited Bytes] in
theorem skips_durable_settled (hinj : Set.InjOn c.of_bytes U) {puts : List PutCall}
    {files : StoreFiles Bytes} (hinv : Inv c U puts (Disk.settled files)) {put : PutCall}
    (hput : ∀ o ∈ put.objects c, o ∈ U) : SkipsDurable c (Disk.settled files) put := by
  intro b hb hintact
  rw [Disk.files_settled] at hintact
  obtain ⟨e, he, _⟩ := of_bytes_of_is_intact hintact
  have heq : e = b := seen_object hinj hinv (hput b hb) he
  rw [heq] at he
  exact Disk.durable_settled he (grounded _)

theorem System.Step.sound (hinj : Set.InjOn c.of_bytes U) {s s' : System Bytes} {e : Event Bytes}
    (hstep : System.Step c s e s') (hrunning : Running s e) (hknown : Known c U s'.puts)
    (h : Sound c U s) : Sound c U s' := by
  obtain ⟨hinv, htodo⟩ := h
  cases hstep with
  | put_graph put hfree =>
    refine ⟨hinv.cons put, ?_⟩
    have hskip := skips_durable_settled hinj hinv (hknown put List.mem_cons_self).2
    have hallowed : AllowedAll c U (put :: s.puts) true _ _ :=
      allowed_put hinj hknown (hinv.cons put) List.mem_cons_self hskip
    rwa [Disk.files_settled] at hallowed
  | prune_graphs_except listing keep hfree hlist =>
    exact ⟨hinv, allowed_prune_graphs_settled hinj hknown hinv hlist keep⟩
  | prune listing live aggressive hfree =>
    refine ⟨hinv, ?_⟩
    have hallowed : AllowedAll c U s.puts true _ _ :=
      allowed_prune hinj hknown hinv listing live aggressive
    rwa [Disk.files_settled] at hallowed
  | @op op rest hop =>
    rw [hop] at htodo
    have hsettled : (Disk.settled (s.disk.step op).files : StoreDisk Bytes) =
        (Disk.settled s.disk.files).advance true op := by
      rw [Disk.advance_through, Disk.files_step, Disk.files_step, Disk.files_settled]
    refine ⟨?_, ?_⟩
    · rw [hsettled]
      exact inv_advance hinj hknown hinv htodo.1
    · rw [hsettled]
      exact htodo.2
  | kill => exact ⟨hinv, trivial⟩
  | power_loss left hrec => cases hrunning

theorem System.Reached.sound (hinj : Set.InjOn c.of_bytes U) {s : System Bytes}
    (hrun : System.Reached c Running s) (hknown : Known c U s.puts) : Sound c U s := by
  induction hrun with
  | opened =>
    refine ⟨?_, trivial⟩
    exact inv_settled (System.inv_opened U)
  | step _ hrunning hstep ih => exact hstep.sound hinj hrunning hknown (ih (hstep.known hknown))

end

/-! ### A reader, step by step -/

/-- A call of `read_graph` between two of its file accesses. -/
inductive Reader where
  | ref (key : String)
  | manifest (text : String)
  | shards (oids : List String) (loaded : List (String × Shard))
  | done (result : Except StoreError LinkedGraph)

section

variable (c : Codec Bytes)

/-- The next access. -/
def Reader.step (files : StoreFiles Bytes) : Reader → Reader
  | .ref key =>
    match read_if_exists c files (ref_path c key) with
    | .error e => .done (.error e)
    | .ok none => .done (.ok .empty)
    | .ok (some text) => .manifest text
  | .manifest text =>
    match (do let bytes ← read_object c files (line 0 text); open_manifest c (line 0 text) bytes) with
    | .error e => .done (.error e)
    | .ok m => .shards m.referenced_oids []
  | .shards [] loaded => .done (graph_of_shards c.stable_key loaded)
  | .shards (oid :: rest) loaded =>
    match load_shard c files oid with
    | .error e => .done (.error e)
    | .ok sh => .shards rest (loaded ++ [sh])
  | .done result => .done result

/-- The steps from a reader's state, over files that do not change. -/
def Reader.finish (files : StoreFiles Bytes) : Reader → Except StoreError LinkedGraph
  | .ref key => read_graph c files key
  | .manifest text => do
    let bytes ← read_object c files (line 0 text)
    let m ← open_manifest c (line 0 text) bytes
    let shards ← m.referenced_oids.mapM (load_shard c files)
    graph_of_shards c.stable_key shards
  | .shards oids loaded => do
    let shards ← oids.mapM (load_shard c files)
    graph_of_shards c.stable_key (loaded ++ shards)
  | .done result => result

variable {c}

/-- A reader that is not disturbed reads what `read_graph` reads. -/
theorem Reader.finish_step (files : StoreFiles Bytes) (r : Reader) :
    (r.step c files).finish c files = r.finish c files := by
  cases r with
  | ref key =>
    simp only [step, finish, read_graph, resolve_manifest]
    cases read_if_exists c files (ref_path c key) with
    | error e => rfl
    | ok text =>
      cases text with
      | none => rfl
      | some text =>
        simp only [except_bind_ok]
        cases read_object c files (line 0 text) with
        | error e => rfl
        | ok bytes =>
          simp only [except_bind_ok]
          cases open_manifest c (line 0 text) bytes <;> rfl
  | manifest text =>
    simp only [step, finish]
    cases read_object c files (line 0 text) with
    | error e => rfl
    | ok bytes =>
      simp only [except_bind_ok]
      cases open_manifest c (line 0 text) bytes <;> rfl
  | shards oids loaded =>
    cases oids with
    | nil => simp only [step, finish, List.mapM_nil, pure_bind, List.append_nil]
    | cons oid rest =>
      simp only [step, finish, List.mapM_cons]
      cases load_shard c files oid with
      | error e => rfl
      | ok sh =>
        simp only [except_bind_ok]
        cases rest.mapM (load_shard c files) with
        | error e => rfl
        | ok shards =>
          simp only [except_bind_ok, pure_bind, List.append_assoc]
          rfl
  | done result => rfl

end

/-! ### What a reader works on -/

section

variable {c : Codec Bytes} {U : Set Bytes} {puts : List PutCall} {files : StoreFiles Bytes}

/-- The reader of `key` has seen the ref of `put`. Each of its objects is in place, or was
removed since. -/
structure Follows (c : Codec Bytes) (puts : List PutCall) (files : StoreFiles Bytes) (gone : List Path)
    (key : String) (seen : Option Bytes) (put : PutCall) : Prop where
  mem : put ∈ puts
  accepted : put.Accepted c
  key_eq : put.key = key
  seen_eq : seen = some (put.ref c)
  objects : ∀ o ∈ put.objects c, files (blob_path c o) = some o ∨ blob_path c o ∈ gone

/-- A shard as it is loaded. -/
def named (c : Codec Bytes) (sh : String × Shard) : String × Shard :=
  (c.of_bytes (c.encode_shard sh.2), sh.2)

/-- Between its steps, a reader is on its way through one stored graph. -/
def ReaderInv (c : Codec Bytes) (puts : List PutCall) (files : StoreFiles Bytes) (gone : List Path)
    (key : String) (seen : Option Bytes) : Reader → Prop
  | .ref k => k = key
  | .manifest text => ∃ put, Follows c puts files gone key seen put ∧
      text = ref_text (c.of_bytes (put.manifest c)) put.key
  | .shards oids loaded => ∃ put, Follows c puts files gone key seen put ∧
      ∃ front back, put.g.shards (put.sk c) = front ++ back ∧
        oids = back.map (fun sh => (named c sh).1) ∧ loaded = front.map (named c)
  | .done result => (seen = none ∧ result = .ok .empty) ∨
      ∃ put, Follows c puts files gone key seen put ∧
        (result = .ok put.g ∨ ∃ o ∈ put.objects c,
          result = .error (.Corrupt (c.of_bytes o)) ∧ blob_path c o ∈ gone)

/-- An object that is in place or gone reads, or it is gone. -/
theorem read_object_follows (hinj : Set.InjOn c.of_bytes U) (hinv : Inv c U puts (Disk.settled files))
    {gone : List Path} {o : Bytes} (ho : o ∈ U)
    (h : files (blob_path c o) = some o ∨ blob_path c o ∈ gone) :
    read_object c files (c.of_bytes o) = .ok o ∨
      read_object c files (c.of_bytes o) = .error (.Corrupt (c.of_bytes o)) ∧ blob_path c o ∈ gone := by
  by_cases hfile : files (blob_path c o) = some o
  · exact .inl (read_object_ok_iff.mpr ⟨rfl, hfile⟩)
  · have hgone : blob_path c o ∈ gone := h.resolve_left hfile
    refine .inr ⟨read_object_of_path (object_path_of_bytes c o) ?_, hgone⟩
    intro b hb _
    have heq : b = o := seen_object hinj hinv ho hb
    rw [heq] at hb
    exact hfile hb

/-- What the next access of a reader sees of the ref. -/
def Reader.sees (c : Codec Bytes) (files : StoreFiles Bytes) (seen : Option Bytes) : Reader → Option Bytes
  | .ref key => files (ref_path c key)
  | _ => seen

/-- One access of a reader. -/
theorem ReaderInv.step (hinj : Set.InjOn c.of_bytes U) (hknown : Known c U puts)
    (hinv : Inv c U puts (Disk.settled files)) {gone : List Path} {key : String}
    (hkey : c.as_bytes key ∈ U) {seen : Option Bytes} {r : Reader}
    (h : ReaderInv c puts files gone key seen r) :
    ReaderInv c puts files gone key (r.sees c files seen) (r.step c files) := by
  cases r with
  | ref k =>
    have hk : k = key := h
    subst hk
    rw [Reader.step, Reader.sees]
    cases href : files (ref_path c k) with
    | none =>
      have hread : read_if_exists c files (ref_path c k) = .ok none := by rw [read_if_exists, href]
      rw [hread]
      exact .inl ⟨rfl, rfl⟩
    | some b =>
      obtain ⟨put, hput, haccepted, hkey_eq, rfl, hplace⟩ := seen_ref_of_key hinj hknown hinv hkey href
      rw [read_ref_text href]
      refine ⟨put, ⟨hput, haccepted, hkey_eq, rfl, fun o ho => .inl (hplace.objects o ho)⟩, rfl⟩
  | manifest text =>
    obtain ⟨put, hfollows, rfl⟩ := h
    have hmem : put.manifest c ∈ put.objects c := manifest_mem_put_objects
    have hread := read_object_follows hinj hinv ((hknown put hfollows.mem).2 _ hmem)
      (hfollows.objects _ hmem)
    simp only [Reader.step, Reader.sees, line_zero_ref_text]
    cases hread with
    | inl hok =>
      rw [hok, except_bind_ok]
      simp only [PutCall.manifest, open_manifest_manifest_of]
      refine ⟨put, hfollows, [], put.g.shards (put.sk c), rfl, ?_, rfl⟩
      rw [Manifest.referenced_oids, manifest_of, List.map_map]
      rfl
    | inr hcorrupt =>
      rw [hcorrupt.1]
      exact .inr ⟨put, hfollows, .inr ⟨_, hmem, rfl, hcorrupt.2⟩⟩
  | shards oids loaded =>
    obtain ⟨put, hfollows, front, back, hsplit, rfl, rfl⟩ := h
    have hcanon := canonical_of_check hfollows.accepted.1
    cases back with
    | nil =>
      rw [List.append_nil] at hsplit
      have hgraph : graph_of_shards c.stable_key (front.map (named c)) = .ok put.g := by
        rw [← hsplit]
        exact graph_of_shards_ok hcanon hfollows.accepted.2
          (shardsOf_named fun sh => c.of_bytes (c.encode_shard sh))
      exact .inr ⟨put, hfollows, .inl hgraph⟩
    | cons sh rest =>
      have hsh : sh ∈ put.g.shards (put.sk c) := by
        rw [hsplit]
        exact List.mem_append_right _ List.mem_cons_self
      have hmem : c.encode_shard sh.2 ∈ put.objects c := shard_mem_put_objects hsh
      have hread := read_object_follows hinj hinv ((hknown put hfollows.mem).2 _ hmem)
        (hfollows.objects _ hmem)
      simp only [List.map_cons, Reader.step, Reader.sees, load_shard, named]
      cases hread with
      | inl hok =>
        rw [hok, except_bind_ok, open_shard_shard hcanon hsh]
        refine ⟨put, hfollows, front ++ [sh], rest, ?_, rfl, ?_⟩
        · rw [hsplit, List.append_assoc]
          rfl
        · rw [List.map_append]
          rfl
      | inr hcorrupt =>
        rw [hcorrupt.1]
        exact .inr ⟨put, hfollows, .inr ⟨_, hmem, rfl, hcorrupt.2⟩⟩
  | done result => exact h

/-- What is gone or in place stays so over a step of the lock holder. -/
theorem Follows.op {gone : List Path} {key : String} {seen : Option Bytes} {put : PutCall}
    (hinj : Set.InjOn c.of_bytes U) (hknown : Known c U puts) {op : StoreOp Bytes}
    (hop : Allowed c U puts (Disk.settled files) op) (h : Follows c puts files gone key seen put) :
    Follows c puts (files.step op) (gone ++ op.removes) key seen put where
  mem := h.mem
  accepted := h.accepted
  key_eq := h.key_eq
  seen_eq := h.seen_eq
  objects o ho := by
    by_cases hremove : op = .remove (blob_path c o)
    · subst hremove
      exact .inr (List.mem_append_right _ (List.mem_singleton.mpr rfl))
    · cases h.objects o ho with
      | inr hgone => exact .inr (List.mem_append_left _ hgone)
      | inl hfile =>
        have hdur : Disk.Durable (Disk.settled files) (blob_path c o) o :=
          Disk.durable_settled hfile (grounded _)
        have hnext := (durable_step hinj hop ((hknown put h.mem).2 o ho) hdur hremove).files
        rw [Disk.files_step, Disk.files_settled] at hnext
        exact .inl hnext

theorem Follows.cons {gone : List Path} {key : String} {seen : Option Bytes} {put : PutCall}
    (h : Follows c puts files gone key seen put) (put' : PutCall) :
    Follows c (put' :: puts) files gone key seen put :=
  { h with mem := List.mem_cons_of_mem put' h.mem }

/-- A reader's invariant is kept by whatever keeps what it follows. -/
theorem ReaderInv.mono {puts' : List PutCall} {files' : StoreFiles Bytes} {gone gone' : List Path}
    {key : String} {seen : Option Bytes} {r : Reader} (h : ReaderInv c puts files gone key seen r)
    (hgone : ∀ p ∈ gone, p ∈ gone') (hfollows : ∀ put, Follows c puts files gone key seen put →
      Follows c puts' files' gone' key seen put) :
    ReaderInv c puts' files' gone' key seen r := by
  cases r with
  | ref k => exact h
  | manifest text =>
    obtain ⟨put, hput, htext⟩ := h
    exact ⟨put, hfollows put hput, htext⟩
  | shards oids loaded =>
    obtain ⟨put, hput, hrest⟩ := h
    exact ⟨put, hfollows put hput, hrest⟩
  | done result =>
    cases h with
    | inl hnone => exact .inl hnone
    | inr hdone =>
      obtain ⟨put, hput, hresult⟩ := hdone
      refine .inr ⟨put, hfollows put hput, ?_⟩
      cases hresult with
      | inl hok => exact .inl hok
      | inr hcorrupt =>
        obtain ⟨o, ho, herror, hpath⟩ := hcorrupt
        exact .inr ⟨o, ho, herror, hgone _ hpath⟩

end

/-! ### A reader among writers -/

/-- The paths that the next step removes. -/
def System.removes (s : System Bytes) : Event Bytes → List Path
  | .op => s.todo.head?.elim [] Op.removes
  | _ => []

section

variable [Inhabited Bytes] {c : Codec Bytes} {U : Set Bytes}

/-- A step of a writer leaves a reader on its way. -/
theorem ReaderInv.writer (hinj : Set.InjOn c.of_bytes U) {s s' : System Bytes} {e : Event Bytes}
    (hstep : System.Step c s e s') (hrunning : Running s e) (hknown : Known c U s'.puts)
    (hsound : Sound c U s) {gone : List Path} {key : String} {seen : Option Bytes} {r : Reader}
    (h : ReaderInv c s.puts s.disk.files gone key seen r) :
    ReaderInv c s'.puts s'.disk.files (gone ++ s.removes e) key seen r := by
  apply h.mono (fun p hp => List.mem_append_left _ hp)
  intro put hput
  cases hstep with
  | put_graph put' hfree =>
    simp only [System.removes, List.append_nil]
    exact hput.cons put'
  | prune_graphs_except | prune | kill =>
    simp only [System.removes, List.append_nil]
    exact hput
  | op hop =>
    have hallowed := hsound.todo
    rw [hop] at hallowed
    have hnext := hput.op hinj hknown hallowed.1
    rw [System.removes, hop, Disk.files_step]
    exact hnext
  | power_loss left hrec => cases hrunning

/-- A reader of `key` among writers: what it saw of the ref, and what was removed since it
started. -/
structure Reading (Bytes : Type) where
  sys : System Bytes
  reader : Reader
  seen : Option Bytes
  gone : List Path

namespace Reading

def start (s : System Bytes) (key : String) : Reading Bytes :=
  ⟨s, .ref key, none, []⟩

/-- The reader takes no lock: its accesses fall between any steps of the writers. -/
inductive Step (c : Codec Bytes) : Reading Bytes → Reading Bytes → Prop
  | writer {x : Reading Bytes} {e : Event Bytes} {s : System Bytes} : Running x.sys e →
      System.Step c x.sys e s → Step c x { x with sys := s, gone := x.gone ++ x.sys.removes e }
  | reader {x : Reading Bytes} : Step c x
      { x with
        reader := x.reader.step c x.sys.disk.files
        seen := x.reader.sees c x.sys.disk.files x.seen }

inductive Run (c : Codec Bytes) (s : System Bytes) (key : String) : Reading Bytes → Prop
  | start : Run c s key (start s key)
  | step {x y : Reading Bytes} : Run c s key x → Step c x y → Run c s key y

theorem Step.known {x y : Reading Bytes} (hstep : Step c x y) (h : Known c U y.sys.puts) :
    Known c U x.sys.puts := by
  cases hstep with
  | writer _ hsys => exact hsys.known h
  | reader => exact h

theorem Run.inv (hinj : Set.InjOn c.of_bytes U) {s : System Bytes} {key : String} {x : Reading Bytes}
    (hreached : System.Reached c Running s) (hkey : c.as_bytes key ∈ U) (hrun : Run c s key x)
    (hknown : Known c U x.sys.puts) :
    Sound c U x.sys ∧ ReaderInv c x.sys.puts x.sys.disk.files x.gone key x.seen x.reader := by
  induction hrun with
  | start => exact ⟨hreached.sound hinj hknown, rfl⟩
  | step _ hstep ih =>
    obtain ⟨hsound, hreader⟩ := ih (hstep.known hknown)
    cases hstep with
    | writer hrunning hsys =>
      exact ⟨hsys.sound hinj hrunning hknown hsound, hreader.writer hinj hsys hrunning hknown hsound⟩
    | reader => exact ⟨hsound, hreader.step hinj hknown hsound.inv hkey⟩

end Reading

end

end cgx.store
