import Cgx.Index.Pipeline

open cgx.core cgx.frontend cgx.resolve cgx.store sorting caching results

namespace cgx.index

/-! ### The run without a cache -/

/-- Whether the extraction of every claimed file succeeds. -/
def PipelineRun.extracts (env : IndexEnv) (run : PipelineRun) : Bool :=
  run.claimed.all fun src => (run.registry.extract src.content (run.ctx_of env src)).isOk

/-- The graph of a run that extracts every claimed file and keeps nothing. -/
def plain_index (env : IndexEnv) (run : PipelineRun) : Except PipelineError LinkedGraph := do
  let prepared ← run.claimed.mapM (run.extract_file env)
  let graph ← apply_passes run (link env.link ((sort_by prepared_order prepared).map PreparedFile.input) run.opts.link)
  .ok (into_linked graph)

/-- What a fragment cache is for: the frontend version under which the latest run that got
past its extraction saw a context. -/
def held_version (env : IndexEnv) (history : List PipelineRun) (ctx : FileCtx) : Option UInt32 :=
  history.foldl (fun held run =>
    if run.extracts env ∧ ctx ∈ run.claimed.map (run.ctx_of env) then some (run.version ctx.path) else held) none

/-- What a lookup finds when the cache holds the contexts that the history saw. -/
def expected (env : IndexEnv) (history : List PipelineRun) (run : PipelineRun) (src : SourceFile) : CacheLookup :=
  match held_version env history (run.ctx_of env src) with
  | none => .absent
  | some version =>
    if version = run.version src.rel_path then
      match run.registry.extract src.content (run.ctx_of env src) with
      | .ok facts => .hit facts
      | .error _ => .absent
    else .stale

/-! ### What the runs are taken to agree on -/

/-- The context is one that a run looks up. -/
def InRuns (env : IndexEnv) (runs : List PipelineRun) (ctx : FileCtx) : Prop :=
  ∃ run ∈ runs, ∃ src ∈ run.claimed, run.ctx_of env src = ctx

/-- What the cache relies on over some runs: the digests of their contexts do not collide and
the lengths in them are machine words, a blob id names its bytes, frontends of one version
for a path extract the same, and the fragments of extracted facts decode. -/
structure Consistent (env : IndexEnv) (runs : List PipelineRun) : Prop where
  fits : ∀ ctx, InRuns env runs ctx → ctx.Fits
  no_collision : ∀ ctx ctx', InRuns env runs ctx → InRuns env runs ctx' → env.key ctx = env.key ctx' →
    ctx.cache_identity = ctx'.cache_identity
  content : ∀ run ∈ runs, ∀ src ∈ run.claimed, ∀ run' ∈ runs, ∀ src' ∈ run'.claimed,
    src.blob_oid = src'.blob_oid → src.content = src'.content
  version : ∀ run ∈ runs, ∀ run' ∈ runs, ∀ path, run.version path = run'.version path →
    (run.registry.frontend_for path).extract = (run'.registry.frontend_for path).extract
  decode_encode : ∀ run ∈ runs, ∀ src ∈ run.claimed, ∀ facts,
    run.registry.extract src.content (run.ctx_of env src) = .ok facts → env.decode (env.encode facts) = some facts

section transparent

variable {σ : Type} {env : IndexEnv} {cache : FactCache σ} {runs history : List PipelineRun} {run : PipelineRun}
  {s s' : σ} {ctx : FileCtx}

theorem is_key (env : IndexEnv) (ctx : FileCtx) : IsKey (env.key ctx) :=
  FragmentKey.is_key_derive env.sha1_length ctx.cache_identity

theorem Consistent.key_inj (h : Consistent env runs) {ctx ctx' : FileCtx} (hctx : InRuns env runs ctx)
    (hctx' : InRuns env runs ctx') (hkey : env.key ctx = env.key ctx') : ctx = ctx' :=
  cache_identity_inj (h.fits ctx hctx) (h.fits ctx' hctx') (h.no_collision ctx ctx' hctx hctx' hkey)

theorem in_runs_of_claimed (hrun : run ∈ runs) {src : SourceFile} (hsrc : src ∈ run.claimed) :
    InRuns env runs (run.ctx_of env src) :=
  ⟨run, hrun, src, hsrc, rfl⟩

theorem held_version_append (env : IndexEnv) (history : List PipelineRun) (run : PipelineRun) (ctx : FileCtx) :
    held_version env (history ++ [run]) ctx =
      if run.extracts env ∧ ctx ∈ run.claimed.map (run.ctx_of env) then some (run.version ctx.path)
      else held_version env history ctx := by
  rw [held_version, List.foldl_append]
  rfl

/-! ### The rows of the cache -/

/-- A row is the fragment that a run of the history extracted from a file with the context. -/
def RowOf (env : IndexEnv) (history : List PipelineRun) (ctx : FileCtx) (row : CachedFragment) : Prop :=
  ∃ run ∈ history, ∃ src ∈ run.claimed, run.ctx_of env src = ctx ∧ row.frontend_version = run.version ctx.path ∧
    ∃ facts, run.registry.extract src.content ctx = .ok facts ∧ row.fragment = env.encode facts

theorem RowOf.append {row : CachedFragment} (h : RowOf env history ctx row) (run : PipelineRun) :
    RowOf env (history ++ [run]) ctx row := by
  obtain ⟨earlier, hmem, hrest⟩ := h
  exact ⟨earlier, List.mem_append_left [run] hmem, hrest⟩

/-- The cache holds a context in the version of the latest run that saw it, as such a run
extracted it. -/
structure Tracks (env : IndexEnv) (cache : FactCache σ) (history : List PipelineRun) (ctx : FileCtx) (s : σ) : Prop where
  held : ∃ row, cache.fragment s (env.key ctx) = .ok row ∧
    row.map CachedFragment.frontend_version = held_version env history ctx
  faithful : ∀ row, cache.fragment s (env.key ctx) = .ok (some row) → RowOf env history ctx row

theorem Tracks.empty (env : IndexEnv) (cache : FactCache σ) (ctx : FileCtx) :
    Tracks env cache [] ctx cache.empty := by
  have hempty := cache.fragment_empty (env.key ctx) (is_key env ctx)
  refine ⟨⟨none, hempty, rfl⟩, ?_⟩
  intro row hrow
  rw [hempty] at hrow
  cases hrow

/-- Two files with one context are extracted alike by frontends of one version. -/
theorem Consistent.extract_eq (h : Consistent env runs) {run run' : PipelineRun} (hrun : run ∈ runs) (hrun' : run' ∈ runs)
    {src src' : SourceFile} (hsrc : src ∈ run.claimed) (hsrc' : src' ∈ run'.claimed)
    (hctx : run.ctx_of env src = run'.ctx_of env src') (hversion : run.version src.rel_path = run'.version src.rel_path) :
    run.registry.extract src.content (run.ctx_of env src) =
      run'.registry.extract src'.content (run.ctx_of env src) := by
  have hblob : src.blob_oid = src'.blob_oid := congrArg FileCtx.blob_oid hctx
  have hcontent : src.content = src'.content := h.content run hrun src hsrc run' hrun' src' hsrc' hblob
  have hfrontend := h.version run hrun run' hrun' src.rel_path hversion
  have hpath : (run.ctx_of env src).path = src.rel_path := rfl
  rw [FrontendRegistry.extract, FrontendRegistry.extract, hpath, hcontent, hfrontend]

/-- What a lookup finds is what the history tells. -/
theorem look_up_eq (h : Consistent env runs) (hsub : ∀ r ∈ history, r ∈ runs) (hrun : run ∈ runs) {src : SourceFile}
    (hsrc : src ∈ run.claimed) (htracks : Tracks env cache history (run.ctx_of env src) s) :
    look_up env run cache s src = .ok (expected env history run src) := by
  obtain ⟨row, hrow, hheld⟩ := htracks.held
  rw [look_up, hrow, expected, ← hheld]
  cases row with
  | none => rfl
  | some row =>
    dsimp only [Option.map_some]
    by_cases hversion : row.frontend_version = run.version src.rel_path
    · rw [if_pos hversion, if_pos hversion]
      obtain ⟨earlier, hearlier, src', hsrc', hctx, hsame, facts, hfacts, hfragment⟩ := htracks.faithful row hrow
      have hpath : (run.ctx_of env src).path = src.rel_path := rfl
      rw [hpath] at hsame
      have hextract := h.extract_eq hrun (hsub earlier hearlier) hsrc hsrc' hctx.symm (hversion.symm.trans hsame)
      have hdecode := h.decode_encode earlier (hsub earlier hearlier) src' hsrc' facts (hctx ▸ hfacts)
      rw [hfragment, hdecode, hextract, hfacts]
    · rw [if_neg hversion, if_neg hversion]

/-- The files of a run with what is found of them. -/
def expected_lookups (env : IndexEnv) (history : List PipelineRun) (run : PipelineRun) : List Looked :=
  run.claimed.map fun src => (src, expected env history run src)

theorem look_ups_eq (h : Consistent env runs) (hsub : ∀ r ∈ history, r ∈ runs) (hrun : run ∈ runs)
    (htracks : ∀ ctx, InRuns env runs ctx → Tracks env cache history ctx s) :
    (run.claimed.mapM fun src => (look_up env run cache s src).map fun found => (src, found)) =
      .ok (expected_lookups env history run) := by
  apply mapM_ok
  intro src hsrc
  rw [look_up_eq h hsub hrun hsrc (htracks _ (in_runs_of_claimed hrun hsrc))]
  rfl

theorem expected_hit {src : SourceFile} {facts : facts.FileFacts} (h : expected env history run src = .hit facts) :
    held_version env history (run.ctx_of env src) = some (run.version src.rel_path) ∧
      run.registry.extract src.content (run.ctx_of env src) = .ok facts := by
  rw [expected] at h
  cases hheld : held_version env history (run.ctx_of env src) with
  | none =>
    rw [hheld] at h
    cases h
  | some version =>
    rw [hheld] at h
    dsimp only at h
    by_cases hversion : version = run.version src.rel_path
    · rw [if_pos hversion] at h
      cases hextract : run.registry.extract src.content (run.ctx_of env src) with
      | ok found =>
        rw [hextract] at h
        cases h
        exact ⟨congrArg some hversion, rfl⟩
      | error e =>
        rw [hextract] at h
        cases h
    · rw [if_neg hversion] at h
      cases h

/-! ### The extraction of what is missing -/

/-- The files that are not answered from the cache. -/
def missed (env : IndexEnv) (history : List PipelineRun) (run : PipelineRun) : List Looked :=
  (expected_lookups env history run).filter fun l => (run.hit l).isNone

theorem faithful_lookups (env : IndexEnv) (history : List PipelineRun) (run : PipelineRun) :
    Faithful run.hit (fun l => run.extract_file env l.1) (expected_lookups env history run) := by
  intro l hl b hhit
  obtain ⟨src, _, rfl⟩ := List.mem_map.mp hl
  obtain ⟨facts, hfacts, rfl⟩ := Option.map_eq_some_iff.mp hhit
  cases hfound : expected env history run src with
  | hit found =>
    rw [hfound] at hfacts
    cases hfacts
    change run.extract_file env src = .ok (run.prepare src facts)
    rw [PipelineRun.extract_file, (expected_hit hfound).2]
  | stale =>
    rw [hfound] at hfacts
    cases hfacts
  | absent =>
    rw [hfound] at hfacts
    cases hfacts

theorem extract_file_ok {src : SourceFile} {p : PreparedFile} (h : run.extract_file env src = .ok p) :
    ∃ facts, run.registry.extract src.content (run.ctx_of env src) = .ok facts ∧ p = run.prepare src facts := by
  rw [PipelineRun.extract_file] at h
  cases hextract : run.registry.extract src.content (run.ctx_of env src) with
  | ok facts =>
    rw [hextract] at h
    cases h
    exact ⟨facts, rfl, rfl⟩
  | error e =>
    rw [hextract] at h
    cases h

instance : Std.TransCmp prepared_order :=
  inferInstanceAs (Std.TransCmp (compareOn PreparedFile.rel_path))

theorem ordered_lookups (env : IndexEnv) (history : List PipelineRun) (run : PipelineRun) :
    InOrder prepared_order run.hit (fun l => run.extract_file env l.1) (expected_lookups env history run) := by
  have hdistinct : run.claimed.Pairwise fun a b => a.rel_path ≠ b.rel_path :=
    (List.pairwise_map.mp run.distinct_paths).filter _
  rw [InOrder, expected_lookups, List.pairwise_map]
  apply hdistinct.imp
  intro a a' hne _ _ b b' hb hb' heq
  obtain ⟨facts, _, rfl⟩ := extract_file_ok hb
  obtain ⟨facts', _, rfl⟩ := extract_file_ok hb'
  exact hne (Std.LawfulEqCmp.eq_of_compare heq)

theorem store_extracted_ok (env : IndexEnv) (run : PipelineRun) (cache : FactCache σ) (s : σ)
    (extracted : List PreparedFile) : ∃ s', store_extracted env run cache s extracted = .ok s' := by
  rw [store_extracted]
  split
  · exact ⟨s, rfl⟩
  · obtain ⟨s', hput⟩ := cache.put_total s (extracted.map (fragment_input env run)) (by
      intro f hf
      obtain ⟨p, _, rfl⟩ := List.mem_map.mp hf
      exact is_key env _)
    exact ⟨s', by rw [hput]; rfl⟩

/-- A run from a store that tracks the history: the lookups are those the history tells. -/
theorem extract_and_link_ok (h : Consistent env runs) (hsub : ∀ r ∈ history, r ∈ runs) (hrun : run ∈ runs)
    (htracks : ∀ ctx, InRuns env runs ctx → Tracks env cache history ctx s) {extracted : List PreparedFile}
    (hextracted : (missed env history run).mapM (fun l => run.extract_file env l.1) = .ok extracted) :
    ∃ s₁, store_extracted env run cache s extracted = .ok s₁ ∧ extract_and_link env run cache s =
      .ok (link_prepared env run cache s₁ (expected_lookups env history run) extracted) := by
  obtain ⟨s₁, hs₁⟩ := store_extracted_ok env run cache s extracted
  rw [missed] at hextracted
  refine ⟨s₁, hs₁, ?_⟩
  rw [extract_and_link, look_ups_eq h hsub hrun htracks, except_bind_ok, hextracted, except_bind_ok, hs₁,
    except_bind_ok]

theorem extract_and_link_error (h : Consistent env runs) (hsub : ∀ r ∈ history, r ∈ runs) (hrun : run ∈ runs)
    (htracks : ∀ ctx, InRuns env runs ctx → Tracks env cache history ctx s) {e : PipelineError}
    (hextracted : (missed env history run).mapM (fun l => run.extract_file env l.1) = .error e) :
    extract_and_link env run cache s = .error e := by
  rw [missed] at hextracted
  rw [extract_and_link, look_ups_eq h hsub hrun htracks, except_bind_ok, hextracted]
  rfl

/-- The extraction of the missing files succeeds when that of all files does. -/
theorem extracts_iff (env : IndexEnv) (history : List PipelineRun) (run : PipelineRun) :
    run.extracts env = true ↔
      ∃ extracted, (missed env history run).mapM (fun l => run.extract_file env l.1) = .ok extracted := by
  have hall : (expected_lookups env history run).mapM (fun l => run.extract_file env l.1) =
      run.claimed.mapM (run.extract_file env) := by
    rw [expected_lookups, List.mapM_map]
    rfl
  constructor
  · intro hextracts
    have hround : ∀ src ∈ run.claimed, ∃ p, run.extract_file env src = .ok p ∧ True := by
      intro src hsrc
      have hok := List.all_eq_true.mp hextracts src hsrc
      rw [PipelineRun.extract_file]
      cases hextract : run.registry.extract src.content (run.ctx_of env src) with
      | ok facts => exact ⟨_, rfl, trivial⟩
      | error e =>
        rw [hextract] at hok
        cases hok
    obtain ⟨all, hmapM, _⟩ := mapM_forall₂ hround
    exact missed_of_all (hall.trans hmapM)
  · rintro ⟨extracted, hextracted⟩
    obtain ⟨all, hmapM⟩ := (faithful_lookups env history run).all_of_missed hextracted
    rw [PipelineRun.extracts, List.all_eq_true]
    intro src hsrc
    obtain ⟨p, _, hp⟩ := result_of_mem_mapM (hall.symm.trans hmapM) hsrc
    obtain ⟨facts, hfacts, _⟩ := extract_file_ok hp
    rw [hfacts]
    rfl

/-! ### The rows after a run -/

/-- What storing the extracted files leaves under a key. -/
theorem fragment_stored {extracted : List PreparedFile} {s₁ : σ}
    (hs₁ : store_extracted env run cache s extracted = .ok s₁) {key : String} (hkey : IsKey key) :
    (∀ p ∈ extracted, (fragment_input env run p).key ≠ key) ∧ cache.fragment s₁ key = cache.fragment s key ∨
      ∃ row, cache.fragment s₁ key = .ok (some row) ∧
        (∃ p ∈ extracted, (fragment_input env run p).key = key ∧ row.frontend_version = run.version p.rel_path) ∧
        (cache.fragment s key = .ok (some row) ∨
          ∃ p ∈ extracted, (fragment_input env run p).key = key ∧ row = (fragment_input env run p).row) := by
  rw [store_extracted] at hs₁
  split at hs₁
  case isTrue hnone =>
    cases hs₁
    refine .inl ⟨fun p hp => ?_, rfl⟩
    rw [List.isEmpty_iff.mp hnone] at hp
    cases hp
  case isFalse =>
    have hkeys : ∀ f ∈ extracted.map (fragment_input env run), IsKey f.key := by
      intro f hf
      obtain ⟨p, _, rfl⟩ := List.mem_map.mp hf
      exact is_key env _
    cases hput : cache.put_fragments s (extracted.map (fragment_input env run)) with
    | error e =>
      rw [hput] at hs₁
      cases hs₁
    | ok after =>
      rw [hput] at hs₁
      cases hs₁
      obtain ⟨hne, hsame⟩ | ⟨row, hrow, ⟨f, hf, hfkey, hversion⟩, horigin⟩ :=
        cache.put_spec s _ s₁ key hkeys hkey hput
      · exact .inl ⟨fun p hp => hne _ (List.mem_map_of_mem hp), hsame⟩
      · obtain ⟨p, hp, rfl⟩ := List.mem_map.mp hf
        refine .inr ⟨row, hrow, ⟨p, hp, hfkey, hversion⟩, horigin.imp_right ?_⟩
        rintro ⟨f', hf', hkey', heq⟩
        obtain ⟨p', hp', rfl⟩ := List.mem_map.mp hf'
        exact ⟨p', hp', hkey', heq⟩

theorem fragment_input_key (env : IndexEnv) (run : PipelineRun) (src : SourceFile) (facts : facts.FileFacts) :
    (fragment_input env run (run.prepare src facts)).key = env.key (run.ctx_of env src) := rfl

/-- An extracted file comes from a claimed one that was not answered from the cache. -/
theorem of_mem_extracted {extracted : List PreparedFile}
    (hextracted : (missed env history run).mapM (fun l => run.extract_file env l.1) = .ok extracted)
    {p : PreparedFile} (hp : p ∈ extracted) :
    ∃ src ∈ run.claimed, (fragment_input env run p).key = env.key (run.ctx_of env src) ∧ p.rel_path = src.rel_path ∧
      run.registry.extract src.content (run.ctx_of env src) = .ok p.facts := by
  obtain ⟨l, hl, hround⟩ := exists_of_mem_mapM hextracted hp
  obtain ⟨src, hsrc, rfl⟩ := List.mem_map.mp (List.mem_filter.mp hl).1
  obtain ⟨facts, hfacts, rfl⟩ := extract_file_ok hround
  exact ⟨src, hsrc, fragment_input_key env run src facts, rfl, hfacts⟩

/-- A claimed file that nothing was extracted for was answered from the cache. -/
theorem hit_of_not_extracted {extracted : List PreparedFile}
    (hextracted : (missed env history run).mapM (fun l => run.extract_file env l.1) = .ok extracted)
    {src : SourceFile} (hsrc : src ∈ run.claimed)
    (hnone : ∀ p ∈ extracted, (fragment_input env run p).key ≠ env.key (run.ctx_of env src)) :
    held_version env history (run.ctx_of env src) = some (run.version src.rel_path) := by
  cases hfound : expected env history run src with
  | hit facts => exact (expected_hit hfound).1
  | stale | absent =>
    have hmissed : (src, expected env history run src) ∈ missed env history run := by
      refine List.mem_filter.mpr ⟨List.mem_map_of_mem hsrc, ?_⟩
      rw [hfound]
      rfl
    obtain ⟨p, hp, hround⟩ := result_of_mem_mapM hextracted hmissed
    obtain ⟨facts, _, rfl⟩ := extract_file_ok hround
    exact absurd (fragment_input_key env run src facts) (hnone (run.prepare src facts) hp)

theorem index_run_store {result : σ × ResolvedGraph × IndexStats}
    (h : extract_and_link env run cache s = .ok result) : (index_run env run cache s).1 = result.1 := by
  rw [index_run, h]

theorem index_run_error {e : PipelineError} (h : extract_and_link env run cache s = .error e) :
    index_run env run cache s = (s, .error e) := by
  rw [index_run, h]

theorem fragment_link_prepared (env : IndexEnv) (run : PipelineRun) (cache : FactCache σ) (s : σ)
    (looked : List Looked) (extracted : List PreparedFile) (key : String) :
    cache.fragment (link_prepared env run cache s looked extracted).1 key = cache.fragment s key := by
  rw [link_prepared]
  dsimp only
  split
  · exact cache.fragment_put_fn _ _ _
  · rfl

/-- A run keeps the cache in step with the history. -/
theorem Tracks.step (h : Consistent env runs) (hsub : ∀ r ∈ history, r ∈ runs) (hrun : run ∈ runs)
    (htracks : ∀ ctx, InRuns env runs ctx → Tracks env cache history ctx s) (hctx : InRuns env runs ctx) :
    Tracks env cache (history ++ [run]) ctx (index_run env run cache s).1 := by
  have hbefore := htracks ctx hctx
  cases hmissed : (missed env history run).mapM (fun l => run.extract_file env l.1) with
  | error e =>
    have hfails : ¬run.extracts env = true := by
      rw [extracts_iff env history run]
      rintro ⟨extracted, hextracted⟩
      cases hmissed.symm.trans hextracted
    rw [index_run_error (extract_and_link_error h hsub hrun htracks hmissed)]
    refine ⟨?_, fun row hrow => (hbefore.faithful row hrow).append run⟩
    rw [held_version_append, if_neg fun hboth => hfails hboth.1]
    exact hbefore.held
  | ok extracted =>
    have hextracts : run.extracts env = true := (extracts_iff env history run).mpr ⟨extracted, hmissed⟩
    obtain ⟨s₁, hs₁, hlink⟩ := extract_and_link_ok h hsub hrun htracks hmissed
    have hfragment : cache.fragment (index_run env run cache s).1 (env.key ctx) = cache.fragment s₁ (env.key ctx) := by
      rw [index_run_store hlink, fragment_link_prepared]
    have hsource : ∀ p ∈ extracted, (fragment_input env run p).key = env.key ctx →
        ∃ src ∈ run.claimed, run.ctx_of env src = ctx ∧ p.rel_path = ctx.path ∧
          run.registry.extract src.content ctx = .ok p.facts := by
      intro p hp hkey
      obtain ⟨src, hsrc, hsame, hpath, hfacts⟩ := of_mem_extracted hmissed hp
      obtain rfl : run.ctx_of env src = ctx := h.key_inj (in_runs_of_claimed hrun hsrc) hctx (hsame.symm.trans hkey)
      exact ⟨src, hsrc, rfl, hpath, hfacts⟩
    obtain ⟨hnone, hsame⟩ | ⟨row, hrow, ⟨p, hp, hpkey, hversion⟩, horigin⟩ := fragment_stored hs₁ (is_key env ctx)
    · rw [← hfragment] at hsame
      constructor
      · rw [hsame, held_version_append]
        split
        case isTrue hseen =>
          obtain ⟨src, hsrc, rfl⟩ := List.mem_map.mp hseen.2
          have hheld := hit_of_not_extracted hmissed hsrc hnone
          obtain ⟨row, hrow, hversion⟩ := hbefore.held
          exact ⟨row, hrow, hversion.trans hheld⟩
        case isFalse => exact hbefore.held
      · intro row hrow
        rw [hsame] at hrow
        exact (hbefore.faithful row hrow).append run
    · obtain ⟨src, hsrc, rfl, hpath, _⟩ := hsource p hp hpkey
      constructor
      · refine ⟨some row, hfragment.trans hrow, ?_⟩
        rw [held_version_append, if_pos ⟨hextracts, List.mem_map_of_mem hsrc⟩, Option.map_some, hversion, hpath]
      · intro row' hrow'
        obtain rfl : row = row' :=
          Option.some.inj (Except.ok.inj (hrow.symm.trans (hfragment.symm.trans hrow')))
        obtain hold | ⟨p', hp', hkey', rfl⟩ := horigin
        · exact (hbefore.faithful row hold).append run
        · obtain ⟨src', hsrc', hctx', hpath', hfacts'⟩ := hsource p' hp' hkey'
          exact ⟨run, List.mem_append_right history List.mem_cons_self, src', hsrc', hctx',
            congrArg run.version hpath', p'.facts, hfacts', rfl⟩

/-- After any history the cache is in step with it. -/
theorem Tracks.after_runs (h : Consistent env runs) (hsub : ∀ r ∈ history, r ∈ runs) (cache : FactCache σ)
    (hctx : InRuns env runs ctx) : Tracks env cache history ctx (index.after_runs env cache history) := by
  induction history using List.reverseRecOn generalizing ctx with
  | nil => exact .empty env cache ctx
  | append_singleton history run ih =>
    rw [index.after_runs, List.foldl_append]
    exact .step h (fun r hr => hsub r (List.mem_append_left [run] hr))
      (hsub run (List.mem_append_right history List.mem_cons_self))
      (fun ctx hctx => ih (fun r hr => hsub r (List.mem_append_left [run] hr)) hctx) hctx

/-! ### Index runs over any store -/

theorem mem_history_append {r : PipelineRun} (run : PipelineRun) (hr : r ∈ history) : r ∈ history ++ [run] :=
  List.mem_append_left [run] hr

/-- After any history of runs over the store, a run stores the graph that it would store
without a cache, and fails when that would. -/
theorem index_run_plain (cache : FactCache σ) (h : Consistent env (history ++ [run])) :
    (index_run env run cache (after_runs env cache history)).2.toOption.map Prod.fst = (plain_index env run).toOption := by
  have hsub : ∀ r ∈ history, r ∈ history ++ [run] := fun r hr => mem_history_append run hr
  have hrun : run ∈ history ++ [run] := List.mem_append_right history List.mem_cons_self
  have htracks : ∀ ctx, InRuns env (history ++ [run]) ctx → Tracks env cache history ctx (after_runs env cache history) :=
    fun ctx hctx => .after_runs h hsub cache hctx
  have hgather := gather_eq (faithful_lookups env history run) (ordered_lookups env history run)
  have hall : (expected_lookups env history run).mapM (fun l => run.extract_file env l.1) =
      run.claimed.mapM (run.extract_file env) := by
    rw [expected_lookups, List.mapM_map]
    rfl
  rw [gather, hall] at hgather
  rw [plain_index]
  cases hmissed : (missed env history run).mapM (fun l => run.extract_file env l.1) with
  | error e =>
    rw [index_run_error (extract_and_link_error h hsub hrun htracks hmissed)]
    rw [missed] at hmissed
    rw [hmissed] at hgather
    cases hplain : run.claimed.mapM (run.extract_file env) with
    | error e' => rfl
    | ok all =>
      rw [hplain] at hgather
      cases hgather
  | ok extracted =>
    obtain ⟨s₁, _, hlink⟩ := extract_and_link_ok h hsub hrun htracks hmissed
    rw [missed] at hmissed
    rw [hmissed] at hgather
    cases hplain : run.claimed.mapM (run.extract_file env) with
    | error e' =>
      rw [hplain] at hgather
      cases hgather
    | ok all =>
      rw [hplain] at hgather
      have hprepared : sort_by prepared_order ((expected_lookups env history run).filterMap run.hit ++ extracted) =
          sort_by prepared_order all := Option.some.inj hgather
      rw [index_run, hlink, link_prepared]
      dsimp only
      rw [except_bind_ok, hprepared]
      cases apply_passes run
        (link env.link ((sort_by prepared_order all).map PreparedFile.input) run.opts.link) <;> rfl

theorem expected_isSome_iff {src : SourceFile}
    (hextract : (run.registry.extract src.content (run.ctx_of env src)).isOk = true) :
    (run.hit (src, expected env history run src)).isSome = true ↔
      held_version env history (run.ctx_of env src) = some (run.version src.rel_path) := by
  rw [PipelineRun.hit, Option.isSome_map]
  constructor
  · intro hsome
    cases hfound : expected env history run src with
    | hit facts => exact (expected_hit hfound).1
    | stale | absent =>
      rw [hfound] at hsome
      cases hsome
  · intro hheld
    rw [expected, hheld]
    dsimp only
    rw [if_pos rfl]
    cases hfacts : run.registry.extract src.content (run.ctx_of env src) with
    | ok facts => rfl
    | error e =>
      rw [hfacts] at hextract
      cases hextract

theorem expected_is_stale (env : IndexEnv) (history : List PipelineRun) (run : PipelineRun) (src : SourceFile) :
    (expected env history run src).is_stale =
      (held_version env history (run.ctx_of env src)).any fun version => version ≠ run.version src.rel_path := by
  rw [expected]
  cases held_version env history (run.ctx_of env src) with
  | none => rfl
  | some version =>
    dsimp only [Option.any_some]
    by_cases hversion : version = run.version src.rel_path
    · rw [if_pos hversion, decide_eq_false (not_not.mpr hversion)]
      cases run.registry.extract src.content (run.ctx_of env src) <;> rfl
    · rw [if_neg hversion, decide_eq_true hversion]
      rfl

/-- What a run does with its files is decided by the versions under which the latest runs saw
their contexts: it reuses a file seen under the version it wants and extracts all others,
those seen under another version as stale. -/
theorem index_stats_exact (cache : FactCache σ) (h : Consistent env (history ++ [run]))
    (hextracts : run.extracts env = true) :
    ∃ s' graph stats, extract_and_link env run cache (after_runs env cache history) = .ok (s', graph, stats) ∧
      stats.blobs_indexed = run.claimed.length ∧
      stats.blobs_cached = (run.claimed.countP fun src =>
        held_version env history (run.ctx_of env src) = some (run.version src.rel_path)) ∧
      stats.blobs_extracted = (run.claimed.countP fun src =>
        held_version env history (run.ctx_of env src) ≠ some (run.version src.rel_path)) ∧
      stats.blobs_stale = run.claimed.countP fun src =>
        (held_version env history (run.ctx_of env src)).any fun version => version ≠ run.version src.rel_path := by
  have hsub : ∀ r ∈ history, r ∈ history ++ [run] := fun r hr => mem_history_append run hr
  have hrun : run ∈ history ++ [run] := List.mem_append_right history List.mem_cons_self
  obtain ⟨extracted, hmissed⟩ := (extracts_iff env history run).mp hextracts
  obtain ⟨s₁, _, hlink⟩ := extract_and_link_ok h hsub hrun
    (fun ctx hctx => .after_runs h hsub cache hctx) hmissed
  have hheld : ∀ src ∈ run.claimed, (run.hit (src, expected env history run src)).isSome = true ↔
      held_version env history (run.ctx_of env src) = some (run.version src.rel_path) := fun src hsrc =>
    expected_isSome_iff (List.all_eq_true.mp hextracts src hsrc)
  have hcached : ((expected_lookups env history run).filterMap run.hit).length = run.claimed.countP fun src =>
      held_version env history (run.ctx_of env src) = some (run.version src.rel_path) := by
    rw [List.length_filterMap_eq_countP, expected_lookups, List.countP_map]
    apply List.countP_congr
    intro src hsrc
    rw [decide_eq_true_iff]
    exact hheld src hsrc
  have hextracted : extracted.length = run.claimed.countP fun src =>
      held_version env history (run.ctx_of env src) ≠ some (run.version src.rel_path) := by
    rw [← (forall₂_of_mapM hmissed).length_eq, missed, ← List.countP_eq_length_filter, expected_lookups, List.countP_map]
    apply List.countP_congr
    intro src hsrc
    rw [decide_eq_true_iff, Function.comp_apply, ← Option.not_isSome, Bool.not_eq_true', ← Bool.not_eq_true,
      hheld src hsrc]
  refine ⟨_, _, _, hlink, ?_, hcached, hextracted, ?_⟩
  · have hlength : ((sort_by prepared_order
        ((expected_lookups env history run).filterMap run.hit ++ extracted))).length = run.claimed.length := by
      have hsplit := List.length_eq_countP_add_countP (l := run.claimed) fun src =>
        decide (held_version env history (run.ctx_of env src) = some (run.version src.rel_path))
      simp only [decide_eq_true_eq] at hsplit
      rw [length_sort_by, List.length_append, hcached, hextracted]
      exact hsplit.symm
    exact hlength
  · change (expected_lookups env history run).countP (fun l => l.2.is_stale) = _
    rw [expected_lookups, List.countP_map]
    exact congrArg (List.countP · run.claimed) (funext fun src => expected_is_stale env history run src)

end transparent

/-! ### One blob at two paths -/

/-- A frontend that finds nothing in a Rust file. -/
def bare_frontend : LanguageFrontend :=
  ⟨"rust", fun path => ".rs".toList.isSuffixOf path.toList, 1, fun _ _ => .ok .empty⟩

def bare_registry : FrontendRegistry :=
  ⟨[bare_frontend], ⟨"unknown", fun _ => true, 0, fun _ _ => .ok .empty⟩⟩

/-- The empty file, at a path. -/
def empty_file (rel_path : String) : SourceFile :=
  ⟨"e69de29bb2d1d6434b8b29ae775ad8c2e48c5391", rel_path, []⟩

def empty_ctx (rel_path : String) : FileCtx :=
  ⟨rel_path, "e69de29bb2d1d6434b8b29ae775ad8c2e48c5391", none, none⟩

def first_run : PipelineRun :=
  ⟨bare_registry, [empty_file "a.rs"], ⟨false, false⟩, .ok, by decide⟩

def second_run : PipelineRun :=
  ⟨bare_registry, [empty_file "a.rs", empty_file "b.rs"], ⟨false, false⟩, .ok, by decide⟩

/-- The encoding of empty facts: eleven empty fields around the root scope. -/
def empty_facts : List UInt8 :=
  [0, 0, 0, 0, 0, 1, 0, 0, 0, 0, 0, 0, 0, 0]

/-- The digests of the two contexts. -/
def context_digest (bytes : List UInt8) : List UInt8 :=
  if bytes = FRAGMENT_KEY_DOMAIN ++ (empty_ctx "a.rs").cache_identity then
    [202, 14, 208, 231, 21, 249, 250, 252, 174, 175, 192, 100, 249, 57, 103, 145, 226, 190, 62, 173]
  else
    [44, 73, 77, 174, 225, 63, 252, 56, 155, 86, 176, 192, 56, 214, 85, 16, 120, 222, 134, 8]

def bare_env : IndexEnv where
  sha1 := context_digest
  encode _ := empty_facts
  decode bytes := if bytes = empty_facts then some .empty else none
  json_name _ := none
  facts_hash _ := ""
  link := ⟨fun _ _ _ => default, fun _ _ => []⟩
  sha1_length bytes := by
    rw [context_digest]
    split <;> rfl

theorem first_run_claimed : first_run.claimed = [empty_file "a.rs"] := by decide

theorem second_run_claimed : second_run.claimed = [empty_file "a.rs", empty_file "b.rs"] := by decide

theorem bare_extract (content : List UInt8) (ctx : FileCtx) : bare_registry.extract content ctx = .ok .empty := by
  have hfrontend : (bare_registry.frontend_for ctx.path).extract = fun _ _ => .ok .empty := by
    rw [FrontendRegistry.frontend_for, bare_registry, List.find?_cons]
    cases bare_frontend.handles ctx.path <;> rfl
  rw [FrontendRegistry.extract, hfrontend]
  rfl

theorem fits_empty_ctx {rel_path : String} (h : rel_path.utf8ByteSize < 2 ^ 64) : (empty_ctx rel_path).Fits where
  blob_oid := by
    have hlen : "e69de29bb2d1d6434b8b29ae775ad8c2e48c5391".utf8ByteSize < 2 ^ 64 := by decide
    exact hlen
  path := h
  package := by
    intro name hname
    cases hname
  manifest := by
    intro info hinfo
    cases hinfo

theorem in_runs_two {ctx : FileCtx} (h : InRuns bare_env [first_run, second_run] ctx) :
    ctx = empty_ctx "a.rs" ∨ ctx = empty_ctx "b.rs" := by
  obtain ⟨run, hrun, src, hsrc, rfl⟩ := h
  obtain rfl | hrun := List.mem_cons.mp hrun
  · rw [first_run_claimed, List.mem_singleton] at hsrc
    subst hsrc
    exact .inl rfl
  · obtain rfl := List.mem_singleton.mp hrun
    rw [second_run_claimed] at hsrc
    obtain rfl | hsrc := List.mem_cons.mp hsrc
    · exact .inl rfl
    · obtain rfl := List.mem_singleton.mp hsrc
      exact .inr rfl

theorem two_keys : bare_env.key (empty_ctx "a.rs") ≠ bare_env.key (empty_ctx "b.rs") := by decide

theorem of_two_runs {run : PipelineRun} (h : run ∈ [first_run, second_run]) :
    run.registry = bare_registry ∧ ∀ src ∈ run.claimed, src.content = [] := by
  obtain rfl | h := List.mem_cons.mp h
  · rw [first_run_claimed]
    exact ⟨rfl, by decide⟩
  · obtain rfl := List.mem_singleton.mp h
    rw [second_run_claimed]
    exact ⟨rfl, by decide⟩

theorem consistent_two : Consistent bare_env [first_run, second_run] where
  fits ctx h := by
    obtain rfl | rfl := in_runs_two h
    · exact fits_empty_ctx (by decide)
    · exact fits_empty_ctx (by decide)
  no_collision ctx ctx' h h' hkey := by
    obtain rfl | rfl := in_runs_two h
    · obtain rfl | rfl := in_runs_two h'
      · rfl
      · exact absurd hkey two_keys
    · obtain rfl | rfl := in_runs_two h'
      · exact absurd hkey.symm two_keys
      · rfl
  content run hrun src hsrc run' hrun' src' hsrc' _ := by
    rw [(of_two_runs hrun).2 src hsrc, (of_two_runs hrun').2 src' hsrc']
  version run hrun run' hrun' path _ := by
    rw [(of_two_runs hrun).1, (of_two_runs hrun').1]
  decode_encode run hrun src _ facts hfacts := by
    rw [(of_two_runs hrun).1] at hfacts
    rw [bare_extract] at hfacts
    cases hfacts
    rfl

theorem index_run_plain_two :
    (index_run bare_env second_run sqlite_cache (after_runs bare_env sqlite_cache [first_run])).2.toOption.map Prod.fst =
      (plain_index bare_env second_run).toOption :=
  index_run_plain sqlite_cache consistent_two

theorem second_run_extracts : second_run.extracts bare_env = true := by
  rw [PipelineRun.extracts, List.all_eq_true]
  intro src _
  change (bare_registry.extract src.content _).isOk = true
  rw [bare_extract]
  rfl

theorem index_stats_exact_two :
    ∃ s' graph stats,
      extract_and_link bare_env second_run sqlite_cache (after_runs bare_env sqlite_cache [first_run]) =
        .ok (s', graph, stats) ∧
      stats.blobs_indexed = 2 ∧ stats.blobs_cached = 1 ∧ stats.blobs_extracted = 1 ∧ stats.blobs_stale = 0 :=
  index_stats_exact sqlite_cache consistent_two second_run_extracts

end cgx.index
