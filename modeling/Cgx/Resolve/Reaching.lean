import Cgx.Lib.History
import Cgx.Resolve.Placeholders

open cgx.core cgx.frontend sorting history Std

namespace cgx.resolve

/-! ### Facts and their functions -/

def derived_local (df : DataFlowFact) : String :=
  df.derived.getLast?.getD ""

/-- The definition that owns a scope itself. -/
def owner_def (file : FileInput) (sid : ScopeId) : Option SymbolDef :=
  (file.facts.scopes.scopes[sid.index]?.bind Scope.owner_fqn).bind fun owner =>
    file.facts.defs.find? fun d => d.fqn = owner

/-- The scope of the function that a fact stands in: the nearest one with an owner. -/
def function_scope (file : FileInput) (df : DataFlowFact) : Option ScopeId :=
  (file.facts.scopes.ancestors df.scope).find? fun sid => (owner_def file sid).isSome

/-- The name of the function that a fact stands in. -/
def function_fqn (file : FileInput) (df : DataFlowFact) : Option String :=
  (enclosing_def file.facts.scopes file.facts.defs df.scope).map SymbolDef.fqn

/-- Program order of the facts of a file. -/
def program_order (file : FileInput) : List DataFlowFact :=
  sort_by fact_cmp file.facts.data_flows

theorem findSome?_eq_bind_find? {α β : Type} (f : α → Option β) (l : List α) :
    l.findSome? f = (l.find? fun x => (f x).isSome).bind f := by
  induction l with
  | nil => rfl
  | cons x rest ih =>
    cases h : f x with
    | none => rw [List.findSome?_cons, h, List.find?_cons_of_neg (by simp [h]), ih]
    | some y => rw [List.findSome?_cons, h, List.find?_cons_of_pos (by simp [h]), Option.bind_some, h]

theorem function_fqn_eq (file : FileInput) (df : DataFlowFact) :
    function_fqn file df = ((function_scope file df).bind (owner_def file)).map SymbolDef.fqn := by
  rw [function_fqn, enclosing_def, findSome?_eq_bind_find?]
  rfl

theorem function_scope_of_fqn {file : FileInput} {df : DataFlowFact} {fn : String} (h : function_fqn file df = some fn) :
    ∃ sid, function_scope file df = some sid := by
  rw [function_fqn_eq] at h
  cases hscope : function_scope file df with
  | none =>
    rw [hscope] at h
    cases h
  | some sid => exact ⟨sid, rfl⟩

/-! ### The replay -/

/-- A fact of a function of that name writes the local. -/
def defines (file : FileInput) (fn_fqn local_name : String) (df : DataFlowFact) : Bool :=
  function_fqn file df = some fn_fqn ∧ derived_local df = local_name

/-- The version of a local that the replay has reached behind some facts. -/
def replayed_version (file : FileInput) (before : List DataFlowFact) (fn_fqn local_name : String) : UInt32 :=
  latest (defines file fn_fqn local_name) DataFlowFact.derived_version 0 before

/-- The derivation that a fact leaves behind the facts before it. -/
def derivation (file : FileInput) (before : List DataFlowFact) (df : DataFlowFact) : Option PendingDataFlowEdge :=
  (function_fqn file df).bind fun fn_fqn =>
    df.source.head?.map fun source_local =>
      { derived_fqn := value_fqn fn_fqn (derived_local df) df.derived_version
        source_fqn := value_fqn fn_fqn source_local (replayed_version file before fn_fqn source_local)
        transform := df.transform
        condition := df.edge_condition
        cut_markers := df.cut_markers
        span := ⟨file.path, df.span.line, df.span.col⟩ }

/-- One step of the replay of a file. -/
def replay_step (file : FileInput) (r : Replay) (df : DataFlowFact) : Replay :=
  match enclosing_def file.facts.scopes file.facts.defs df.scope with
  | some caller => replay_fact file caller.fqn df r
  | none => r

theorem replay_file_eq (r : Replay) (file : FileInput) :
    replay_file r file = (program_order file).foldl (replay_step file) { r with current := [] } := rfl

theorem foldl_intern_live (file : FileInput) (df : DataFlowFact) (fn_fqn : String) (locals : List String) (r : Replay) :
    (locals.foldl (Replay.intern_live file df fn_fqn) r).current = r.current ∧
      (locals.foldl (Replay.intern_live file df fn_fqn) r).pending = r.pending := by
  induction locals generalizing r with
  | nil => exact ⟨rfl, rfl⟩
  | cons l rest ih => exact ih (r.intern_live file df fn_fqn l)

theorem replay_fact_current (file : FileInput) (fn_fqn : String) (df : DataFlowFact) (r : Replay) :
    (replay_fact file fn_fqn df r).current =
      upsert (fn_fqn, derived_local df) (fun _ => df.derived_version) r.current := by
  rw [replay_fact]
  simp only [(foldl_intern_live ..).1]
  rfl

/-- A step sets the version of the local that its fact writes. -/
theorem version_replay_step (file : FileInput) (fn_fqn local_name : String) (r : Replay) (df : DataFlowFact) :
    (replay_step file r df).version fn_fqn local_name =
      if defines file fn_fqn local_name df then df.derived_version else r.version fn_fqn local_name := by
  rw [replay_step, defines, function_fqn]
  cases enclosing_def file.facts.scopes file.facts.defs df.scope with
  | none => simp
  | some caller =>
    simp only [Option.map_some, Option.some.injEq]
    rw [Replay.version, replay_fact_current, entry_of_upsert]
    by_cases hkey : caller.fqn = fn_fqn ∧ derived_local df = local_name
    · rw [if_pos (Prod.ext hkey.1 hkey.2), decide_eq_true hkey, if_pos rfl]
      rfl
    · rw [if_neg fun heq => hkey (Prod.mk.inj heq), decide_eq_false hkey, if_neg Bool.false_ne_true]
      rfl

/-- The replay keeps the version that was written last. -/
theorem version_replay (file : FileInput) (fn_fqn local_name : String) {r : Replay} (hr : r.current = [])
    (before : List DataFlowFact) :
    (before.foldl (replay_step file) r).version fn_fqn local_name = replayed_version file before fn_fqn local_name := by
  have hzero : r.version fn_fqn local_name = 0 := by
    rw [Replay.version, hr]
    rfl
  have hlatest : (before.foldl (replay_step file) r).version fn_fqn local_name =
      latest (defines file fn_fqn local_name) DataFlowFact.derived_version (r.version fn_fqn local_name) before :=
    foldl_latest (fun r => r.version fn_fqn local_name) (version_replay_step file fn_fqn local_name) r before
  rw [hlatest, hzero, replayed_version]

/-- What a step adds to the derivations, from the versions before it. -/
def step_derivation (file : FileInput) (r : Replay) (df : DataFlowFact) : List PendingDataFlowEdge :=
  ((function_fqn file df).bind fun fn_fqn =>
    df.source.head?.map fun source_local =>
      { derived_fqn := value_fqn fn_fqn (derived_local df) df.derived_version
        source_fqn := r.live fn_fqn source_local
        transform := df.transform
        condition := df.edge_condition
        cut_markers := df.cut_markers
        span := ⟨file.path, df.span.line, df.span.col⟩ }).toList

theorem pending_replay_step (file : FileInput) (r : Replay) (df : DataFlowFact) :
    (replay_step file r df).pending = r.pending ++ step_derivation file r df := by
  rw [replay_step, step_derivation, function_fqn]
  cases enclosing_def file.facts.scopes file.facts.defs df.scope with
  | none => exact (List.append_nil _).symm
  | some caller =>
    simp only [replay_fact, (foldl_intern_live ..).2, Option.map_map]
    rfl

/-- The derivations of a file, in program order. -/
def file_derivations (file : FileInput) : List PendingDataFlowEdge :=
  (preceded (program_order file)).filterMap fun t => derivation file t.1 t.2

theorem pending_replay_file (r : Replay) (file : FileInput) :
    (replay_file r file).pending = r.pending ++ file_derivations file := by
  rw [replay_file_eq, foldl_log (pending_replay_step file), file_derivations]
  congr 1
  rw [List.filterMap_eq_flatMap_toList]
  apply List.flatMap_congr
  intro t _
  rw [step_derivation, derivation]
  simp only [Replay.live, version_replay file _ _ (r := { r with current := [] }) rfl]

theorem pending_replay_files (inputs : List FileInput) :
    (replay_files inputs).pending = inputs.flatMap file_derivations := by
  have hfold : ∀ r : Replay, (inputs.foldl replay_file r).pending = r.pending ++ inputs.flatMap file_derivations := by
    induction inputs with
    | nil => exact fun r => (List.append_nil _).symm
    | cons file rest ih =>
      intro r
      rw [List.foldl_cons, ih, pending_replay_file, List.flatMap_cons, List.append_assoc]
  exact hfold _

end cgx.resolve
