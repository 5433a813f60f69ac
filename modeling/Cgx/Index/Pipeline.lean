import Cgx.Index.Canonicalize
import Cgx.Index.Manifests
import Cgx.Lib.Cache
import Cgx.Resolve.Effects
import Cgx.Resolve.Incremental
import Cgx.Resolve.Cha
import Cgx.Resolve.Sig
import Cgx.Store.Fragments

open cgx.core cgx.frontend cgx.resolve cgx.store sorting caching results

namespace cgx.index

/-! ### The run -/

/-- Why an index run stores no graph. A pass that panics is an abort. -/
inductive PipelineError where
  | Frontend (e : FrontendError)
  | Codec
  | Store (e : StoreError)
  | Scip (detail : String)
  | Aborted
deriving DecidableEq

/-- What an index run is built from besides the repository: the digest, the codec of
fragments, the JSON parser, the hash of facts and the open parts of the link. -/
structure IndexEnv where
  sha1 : List UInt8 → List UInt8
  encode : facts.FileFacts → List UInt8
  decode : List UInt8 → Option facts.FileFacts
  json_name : JsonName
  facts_hash : List DataFlowFact → String
  link : LinkEnv
  sha1_length : ∀ bytes, (sha1 bytes).length = SHA1_LEN

structure IndexOpts where
  dataflow : Bool
  receiver_narrowing : Bool
deriving DecidableEq

/-- One index run: the adapters of the build that makes it, the files of the tree, each under
a path of its own, the options, and what its SCIP index does to the linked graph. -/
structure PipelineRun where
  registry : FrontendRegistry
  sources : List SourceFile
  opts : IndexOpts
  apply_scip : ResolvedGraph → Except PipelineError ResolvedGraph
  distinct_paths : (sources.map SourceFile.rel_path).Nodup

/-- Functions recomputed and reused. -/
structure DataflowStats where
  functions_recomputed : Nat
  functions_reused : Nat
deriving DecidableEq

/-- What an index run did with the files, and how large the linked graph is. -/
structure IndexStats where
  blobs_indexed : Nat
  blobs_extracted : Nat
  blobs_cached : Nat
  blobs_stale : Nat
  blobs_unsupported : Nat
  nodes : Nat
  edges : Nat
  unresolved : Nat
  dataflow : DataflowStats
deriving DecidableEq

/-- The facts of one file, from the cache or extracted. -/
structure PreparedFile where
  blob_oid : String
  rel_path : String
  lang : String
  facts : facts.FileFacts

def PreparedFile.input (p : PreparedFile) : FileInput :=
  ⟨p.blob_oid, p.rel_path, p.lang, p.facts.linked⟩

def prepared_order : PreparedFile → PreparedFile → Ordering :=
  compareOn PreparedFile.rel_path

/-- What the fragment cache says of a file: facts of the frontend version wanted, a fragment
of another version, or nothing. -/
inductive CacheLookup where
  | hit (facts : facts.FileFacts)
  | stale
  | absent

def CacheLookup.facts? : CacheLookup → Option facts.FileFacts
  | .hit facts => some facts
  | _ => none

def CacheLookup.is_stale : CacheLookup → Bool
  | .stale => true
  | _ => false

section run

variable (env : IndexEnv) (run : PipelineRun)

namespace PipelineRun

/-- The files that an adapter claims. -/
def claimed : List SourceFile :=
  run.sources.filter fun src => run.registry.has_adapter_for src.rel_path

/-- The context that the extraction of a file sees. -/
def context (rel_path blob_oid : String) : FileCtx :=
  ⟨rel_path, blob_oid, (PackageMap.from_sources run.sources).package_for rel_path,
    (ManifestMap.from_sources env.json_name run.sources).manifest_for rel_path⟩

/-- The context of a source file. -/
def ctx_of (src : SourceFile) : FileCtx :=
  run.context env src.rel_path src.blob_oid

/-- The version of the frontend for a path. -/
def version (rel_path : String) : UInt32 :=
  (run.registry.frontend_for rel_path).fragment_version

/-- A file of the run with its facts. -/
def prepare (src : SourceFile) (facts : facts.FileFacts) : PreparedFile :=
  ⟨src.blob_oid, src.rel_path, run.registry.lang_for src.rel_path, facts⟩

/-- Extract the facts of a file. -/
def extract_file (src : SourceFile) : Except PipelineError PreparedFile :=
  match run.registry.extract src.content (run.ctx_of env src) with
  | .ok facts => .ok (run.prepare src facts)
  | .error e => .error (.Frontend e)

end PipelineRun

/-- The key under which the fragment of a context is kept. -/
def IndexEnv.key (ctx : FileCtx) : String :=
  FragmentKey.derive env.sha1 ctx.cache_identity

/-- The row that a freshly extracted file is stored as. -/
def fragment_input (p : PreparedFile) : FragmentInput :=
  ⟨env.key (run.context env p.rel_path p.blob_oid), p.lang, run.version p.rel_path, env.encode p.facts⟩

variable {σ : Type} (cache : FactCache σ) (s : σ)

/-- Look a file up. A fragment of another frontend version is not decoded. -/
def look_up (src : SourceFile) : Except PipelineError CacheLookup :=
  match cache.fragment s (env.key (run.ctx_of env src)) with
  | .error e => .error (.Store e)
  | .ok none => .ok .absent
  | .ok (some cached) =>
    if cached.frontend_version = run.version src.rel_path then
      match env.decode cached.fragment with
      | some facts => .ok (.hit facts)
      | none => .error .Codec
    else .ok .stale

/-- A file with what the cache says of it. -/
abbrev Looked := SourceFile × CacheLookup

def PipelineRun.hit (looked : Looked) : Option PreparedFile :=
  looked.2.facts?.map (run.prepare looked.1)

/-- Store what was extracted, in one batch; nothing is written if nothing was extracted. -/
def store_extracted (extracted : List PreparedFile) : Except PipelineError σ :=
  if extracted.isEmpty then .ok s
  else (cache.put_fragments s (extracted.map (fragment_input env run))).mapError .Store

/-- The options of the link. -/
def IndexOpts.link (opts : IndexOpts) : LinkOpts :=
  { LinkOpts.default with dataflow := opts.dataflow, receiver_narrowing := opts.receiver_narrowing }

/-- The counts of a dataflow run: what the changed functions touch is recomputed. -/
def dataflow_stats (df : DataflowOutput) : DataflowStats :=
  let total := df.fn_intraproc_cache.length
  let recomputed := min (propagate_dirty df.changed_fns df.summary_deps).length total
  ⟨recomputed, total - recomputed⟩

/-- Link all files in the order of their paths and count what was done with them. The rows of
the functions are kept for the next run. -/
def link_prepared (looked : List Looked) (extracted : List PreparedFile) : σ × ResolvedGraph × IndexStats :=
  let prepared := sort_by prepared_order (looked.filterMap run.hit ++ extracted)
  let inputs := prepared.map PreparedFile.input
  let prior_cache := if run.opts.dataflow then cache.load_fn_intraproc_cache s else []
  let graph := link env.link inputs run.opts.link
  let df := build_incremental_substrate env.facts_hash inputs (symbol_table inputs) prior_cache
  (if run.opts.dataflow then cache.put_fn_intraproc_cache s df.fn_intraproc_cache else s, graph,
    { blobs_indexed := prepared.length
      blobs_extracted := extracted.length
      blobs_cached := (looked.filterMap run.hit).length
      blobs_stale := looked.countP fun l => l.2.is_stale
      blobs_unsupported := run.sources.length - run.claimed.length
      nodes := graph.nodes.length
      edges := graph.edges.length
      unresolved := graph.unresolved.length
      dataflow := if run.opts.dataflow then dataflow_stats df else ⟨0, 0⟩ })

/-- Look all files up, extract those that the cache does not hold, store them, and link. -/
def extract_and_link : Except PipelineError (σ × ResolvedGraph × IndexStats) := do
  let looked ← run.claimed.mapM fun src => (look_up env run cache s src).map fun found => (src, found)
  let extracted ← (looked.filter fun l => (run.hit l).isNone).mapM fun l => run.extract_file env l.1
  let s ← store_extracted env run cache s extracted
  .ok (link_prepared env run cache s looked extracted)

/-- The passes over the linked graph, in the order of their precedence. -/
def apply_passes (graph : ResolvedGraph) : Except PipelineError ResolvedGraph := do
  let graph ← run.apply_scip graph
  let (graph, _) := run_cha graph
  let (graph, _) := run_rta graph
  let (graph, _) := run_sig graph
  match run_effect_closure graph with
  | some (graph, _) => .ok graph
  | none => .error .Aborted

/-- One index run: the store it leaves, and the graph it stores with its counts. A run that
fails in a pass has stored its fragments; one that fails before has written nothing. -/
def index_run : σ × Except PipelineError (LinkedGraph × IndexStats) :=
  match extract_and_link env run cache s with
  | .error e => (s, .error e)
  | .ok (s', graph, stats) =>
    (s', do
      let graph ← apply_passes run graph
      .ok (into_linked graph, { stats with nodes := graph.nodes.length, edges := graph.edges.length }))

end run

/-- The store after a history of runs. -/
def after_runs {σ : Type} (env : IndexEnv) (cache : FactCache σ) (history : List PipelineRun) : σ :=
  history.foldl (fun s run => (index_run env run cache s).1) cache.empty

end cgx.index
