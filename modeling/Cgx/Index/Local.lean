import Cgx.Store.Retain

open cgx.core cgx.store disk

namespace cgx.index

/-! ### The current-index pointer -/

/-- What `HEAD.json` holds: nothing, text that does not parse, or the key of a graph. -/
inductive Pointer where
  | missing
  | corrupt
  | graph_key (key : String)
deriving DecidableEq

inductive IndexError where
  | NoIndex
  | CorruptPointer
  | ReadingGraph (key : String) (e : StoreError)
  | Build
deriving DecidableEq

def read_pointer : Pointer → Except IndexError String
  | .missing => .error .NoIndex
  | .corrupt => .error .CorruptPointer
  | .graph_key key => .ok key

/-! ### Index runs -/

/-- Where a call of `index_repo` is. `putting` and `pruning` hold the store's lock and carry
whether their call succeeds. -/
inductive Phase where
  | put
  | putting (ok : Bool)
  | prune
  | pruning (ok : Bool)
  | point
  | done
  | failed
deriving DecidableEq

/-- A call of `index_repo`, with what its pipeline stores. -/
structure IndexRun where
  put : PutCall
  phase : Phase

/-- The phase after the lock is released. -/
def Phase.release : Phase → Phase
  | .putting true => .prune
  | .pruning true => .point
  | _ => .failed

/-! ### Loading the current graph -/

/-- Where a call of `load_current` is. -/
inductive Loader where
  | pointer (rebuild_if_corrupt : Bool)
  | test (rebuild_if_corrupt : Bool) (key : String)
  | read (rebuild_if_corrupt : Bool) (key : String) (reader : Reader)
  | rebuild
  | await (run : Nat)
  | done (result : Except IndexError (String × LinkedGraph))

/-- What follows the read of a graph. -/
def Loader.answer (rebuild_if_corrupt : Bool) (key : String) : Except StoreError LinkedGraph → Loader
  | .error (.Corrupt oid) =>
    if rebuild_if_corrupt then .rebuild else .done (.error (.ReadingGraph key (.Corrupt oid)))
  | .ok g => .done (.ok (key, g))
  | .error e => .done (.error (.ReadingGraph key e))

section

variable {Bytes : Type}

/-- The next access of a load, outside the index run it may start. -/
def Loader.step (c : Codec Bytes) (files : StoreFiles Bytes) (pointer : Pointer) : Loader → Loader
  | .pointer rebuild_if_corrupt =>
    match read_pointer pointer with
    | .error e => .done (.error e)
    | .ok key => .test rebuild_if_corrupt key
  | .test rebuild_if_corrupt key =>
    if graph_for c files key then .read rebuild_if_corrupt key (.ref key)
    else .answer rebuild_if_corrupt key (.error (.Corrupt key))
  | .read rebuild_if_corrupt key (.done result) => .answer rebuild_if_corrupt key result
  | .read rebuild_if_corrupt key reader => .read rebuild_if_corrupt key (reader.step c files)
  | loader => loader

/-- What the load's reader has seen of the ref. -/
def Loader.sees (c : Codec Bytes) (files : StoreFiles Bytes) (seen : Option Bytes) : Loader → Option Bytes
  | .test _ _ => none
  | .read _ _ reader => reader.sees c files seen
  | _ => seen

/-! ### A load among index runs -/

/-- One `.cgx/` with the index runs on it and one load. `lock` names the run that holds the
store's lock; `seen` and `gone` are what the load saw of the ref and what was removed
since the start. -/
structure Local (Bytes : Type) where
  sys : System Bytes
  lock : Option Nat
  pointer : Pointer
  runs : List IndexRun
  loader : Loader
  seen : Option Bytes
  gone : List Path

inductive Act where
  | index_repo (put : PutCall)
  | put_graph (run : Nat)
  | prune_graphs_except (run : Nat) (listing : List Path)
  | op
  | release
  | write_pointer (run : Nat)
  | kill (run : Nat)
  | load
  | rebuild (put : PutCall)
  | rebuilt

namespace Local

def start (s : System Bytes) (pointer : Pointer) (rebuild_if_corrupt : Bool) : Local Bytes where
  sys := s
  lock := none
  pointer := pointer
  runs := []
  loader := .pointer rebuild_if_corrupt
  seen := none
  gone := []

def set_phase (x : Local Bytes) (run : Nat) (phase : Phase) : List IndexRun :=
  x.runs.modify run fun r => { r with phase := phase }

variable [Inhabited Bytes] (c : Codec Bytes)

/-- Any process can take its next step at any time, but only one holds the lock. The
pointer is replaced by one rename, without the lock. -/
inductive Step : Local Bytes → Act → Local Bytes → Prop
  | index_repo {x : Local Bytes} (put : PutCall) :
      Step x (.index_repo put) { x with runs := x.runs ++ [⟨put, .put⟩] }
  | put_graph {x : Local Bytes} {run : Nat} {put : PutCall} {s : System Bytes} :
      x.runs[run]? = some ⟨put, .put⟩ → x.lock = none → System.Step c x.sys (.put_graph put) s →
        Step x (.put_graph run)
          { x with
            sys := s
            lock := some run
            runs := x.set_phase run (.putting
              (store.put_graph c (.start x.sys.disk.files) put.key put.created_rev put.g).2.isOk) }
  | prune_graphs_except {x : Local Bytes} {run : Nat} {put : PutCall} {listing : List Path}
      {s : System Bytes} :
      x.runs[run]? = some ⟨put, .prune⟩ → x.lock = none →
        System.Step c x.sys (.prune_graphs_except listing [put.key]) s →
          Step x (.prune_graphs_except run listing)
            { x with
              sys := s
              lock := some run
              runs := x.set_phase run (.pruning
                (store.prune_graphs_except c (.start x.sys.disk.files) listing [put.key]).2.isOk) }
  | op {x : Local Bytes} {s : System Bytes} : System.Step c x.sys .op s →
      Step x .op { x with sys := s, gone := x.gone ++ x.sys.removes .op }
  | release {x : Local Bytes} {run : Nat} {r : IndexRun} : x.lock = some run → x.sys.todo = [] →
      x.runs[run]? = some r →
        Step x .release { x with lock := none, runs := x.set_phase run r.phase.release }
  | write_pointer {x : Local Bytes} {run : Nat} {put : PutCall} : x.runs[run]? = some ⟨put, .point⟩ →
      Step x (.write_pointer run)
        { x with pointer := .graph_key put.key, runs := x.set_phase run .done }
  | kill_holder {x : Local Bytes} {run : Nat} {s : System Bytes} : x.lock = some run →
      System.Step c x.sys .kill s →
        Step x (.kill run) { x with sys := s, lock := none, runs := x.set_phase run .failed }
  | kill {x : Local Bytes} {run : Nat} : x.lock ≠ some run →
      Step x (.kill run) { x with runs := x.set_phase run .failed }
  | load {x : Local Bytes} : Step x .load
      { x with
        loader := x.loader.step c x.sys.disk.files x.pointer
        seen := x.loader.sees c x.sys.disk.files x.seen }
  | rebuild {x : Local Bytes} (put : PutCall) : x.loader = .rebuild →
      Step x (.rebuild put)
        { x with runs := x.runs ++ [⟨put, .put⟩], loader := .await x.runs.length }
  | rebuilt {x : Local Bytes} {run : Nat} {put : PutCall} : x.loader = .await run →
      x.runs[run]? = some ⟨put, .done⟩ → Step x .rebuilt { x with loader := .pointer false }
  | rebuild_failed {x : Local Bytes} {run : Nat} {put : PutCall} : x.loader = .await run →
      x.runs[run]? = some ⟨put, .failed⟩ → Step x .rebuilt { x with loader := .done (.error .Build) }

/-- The states reached from a given one by steps that all meet `ok`. -/
inductive Run (ok : Local Bytes → Act → Prop) (x : Local Bytes) : Local Bytes → Prop
  | start : Run ok x x
  | step {y z : Local Bytes} {a : Act} : Run ok x y → ok y a → Step c y a z → Run ok x z

/-- The step does not remove the ref that the load has tested for and not yet read. -/
def KeepsTestedRef (x : Local Bytes) : Act → Prop
  | .op => ∀ rebuild_if_corrupt key k, x.loader = .read rebuild_if_corrupt key (.ref k) →
      ref_path c key ∉ x.sys.removes .op
  | _ => True

end Local

end

end cgx.index
