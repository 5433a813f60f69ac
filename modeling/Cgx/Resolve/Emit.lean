import Cgx.Resolve.Link

open cgx.core cgx.frontend sorting

namespace cgx.resolve

/-- Replace the value under `k` by `f` of it, adding the key when it is absent. -/
def upsert {κ ν : Type} [DecidableEq κ] (k : κ) (f : Option ν → ν) : List (κ × ν) → List (κ × ν)
  | [] => [(k, f none)]
  | (k', v) :: rest => if k' = k then (k, f (some v)) :: rest else (k', v) :: upsert k f rest

def entry_of {κ ν : Type} [DecidableEq κ] (k : κ) (rows : List (κ × ν)) : Option ν :=
  (rows.find? fun row => row.1 = k).map Prod.snd

/-! ### The narrowing ledger -/

/-- Per-site narrowing outcomes: the counters by node, the narrowed sites by language
and method name, and how many of them kept each definition. -/
structure Ledger where
  counts : List (NodeId × NarrowingCounts)
  narrowed : List ((String × String) × UInt32)
  kept : List (NodeId × UInt32)
deriving DecidableEq, Inhabited

namespace Ledger

def new : Ledger := ⟨[], [], []⟩

def no_counts : NarrowingCounts := ⟨0, 0, 0, 0, 0, 0, 0⟩

def increment (n : Option UInt32) : UInt32 := n.getD 0 + 1

def note_narrowed (site : Site) (l : Ledger) : Ledger :=
  { l with narrowed := upsert (site.file.lang, site.raw.name_path.getLast?.getD "") increment l.narrowed }

/-- A site bound to typed targets. -/
def typed (site : Site) (hits : List DefEntry) (l : Ledger) : Ledger :=
  let counts := upsert site.caller_id (fun c =>
    let c := c.getD no_counts
    { c with typed_out := c.typed_out + 1 }) l.counts
  let l := note_narrowed site { l with counts := counts }
  { l with kept := (hits.map DefEntry.node_id).dedup.foldl (fun kept id => upsert id increment kept) l.kept }

/-- A site proven to call out of the repository. -/
def external (site : Site) (l : Ledger) : Ledger :=
  note_narrowed site l

/-- Charge each same-name method with the narrowed sites that did not keep it. -/
def finish (table : SymbolTable) (l : Ledger) : List (NodeId × NarrowingCounts) :=
  l.narrowed.foldl (fun counts row =>
    (method_candidates table row.1.2 row.1.1).foldl (fun counts d =>
      let kept := (entry_of d.node_id l.kept).getD 0
      if kept < row.2 then
        upsert d.node_id (fun c =>
          let c := c.getD no_counts
          { c with typed_away_in := c.typed_away_in + (row.2 - kept) }) counts
      else counts) counts) l.counts

end Ledger

/-! ### Edges -/

/-- The edge kind of a reference. A virtual call bound to one target is a plain call. -/
def edge_kind (kind : RefKind) (virtual_dispatch : Bool) : EdgeKind :=
  match kind with
  | .Call => .Calls
  | .CallVirtualReceiver => if virtual_dispatch then .CallsVirtual else .Calls
  | .CallClosure | .CallPinnedClosure => .CallsClosure
  | .CallCallback => .CallsCallback
  | .CallAsync => .CallsAsync
  | .Spawn => .Spawns
  | .Reference => .References
  | .Instantiate => .Instantiates

/-- Where a reference stands: the file of its site, its own line and column. -/
def Site.span (site : Site) : Span :=
  ⟨site.file.path, site.raw.span.line, site.raw.span.col⟩

/-- The edge of a reference to one target. -/
def edge_of (site : Site) (dst : NodeId) (virtual_dispatch : Bool) (confidence : Confidence)
    (tier : Tier) (rule : String) (group : Option UInt32) : EdgeWithProvenance where
  edge :=
    { id := ⟨0⟩
      src := site.caller_id
      dst := dst
      kind := edge_kind site.raw.kind virtual_dispatch
      condition := site.raw.edge_condition
      confidence := confidence
      tier := tier
      rule := rule
      site_id :=
        if (edge_kind site.raw.kind virtual_dispatch).is_call then
          some (.derive site.caller.fqn site.span.file site.span.line (site.span.col.getD 0))
        else none
      stmt_index := some site.raw.stmt_index
      cut_markers := CutMarkers.from_iter_canonical site.raw.cut_markers
      implicit := site.raw.implicit
      candidate_group := group
      established_by := none
      cfg_condition := none
      macro_origin := none
      transform := none }
  provenance := ⟨site.span, rule, tier, ""⟩

/-- What the link pass accumulates over the references. -/
structure LinkState where
  edges : List EdgeWithProvenance
  candidates : List Candidate
  unresolved : List UnresolvedRef
  next_group : UInt32
  ledger : Ledger
deriving DecidableEq, Inhabited

def LinkState.new : LinkState := ⟨[], [], [], 0, .new⟩

def LinkState.push_edge (s : LinkState) (e : EdgeWithProvenance) : LinkState :=
  { s with edges := s.edges ++ [e] }

/-- A destination set in canonical form: ascending ids without repetition. -/
def canonicalize_candidate_dsts (dsts : List NodeId) : List NodeId :=
  sort_by (compareOn NodeId.raw) dsts.dedup

/-- The locality of a candidate; of several hits on one node the last one counts. -/
def locality_of (site : Site) (hits : List DefEntry) (dst : NodeId) : LocalityTier :=
  ((hits.reverse.find? fun d => d.node_id = dst).map fun d =>
    locality_tier site.span.file site.caller.fqn d.file d.fqn).getD .Global

/-- One edge per candidate. Several candidates share a group and its rows in the
candidate table; the bare-name fallback ranks them nearest first. -/
def emit_candidate_set (site : Site) (hits : List DefEntry) (rule : String)
    (virtual_dispatch : Bool) (s : LinkState) : LinkState :=
  let by_name := decide (rule = "name-arity")
  let dsts := canonicalize_candidate_dsts (hits.map DefEntry.node_id)
  let dsts := if by_name then sort_by (compareOn fun dst => (locality_of site hits dst).rank) dsts else dsts
  let group := if 1 < dsts.length then some s.next_group else none
  let tier := if by_name then Tier.NameSyntactic else Tier.ScopeGraph
  let confidence :=
    if by_name then Confidence.Possible
    else if dsts.length = 1 then .Probable else .Possible
  let rule_of := fun dst =>
    if by_name then "name-arity:loc:" ++ (locality_of site hits dst).as_str else rule
  { s with
    edges := s.edges ++ dsts.map fun dst =>
      edge_of site dst virtual_dispatch confidence tier (rule_of dst) group
    candidates := s.candidates ++ match group with
      | some g => dsts.mapIdx fun rank dst => ⟨g, dst, UInt32.ofNat rank⟩
      | none => []
    next_group := if group.isSome then s.next_group + 1 else s.next_group }

/-- The tag of a call through a function value: its syntactic arity, if known. -/
def indirect_rule (raw : RawRef) : String :=
  "indirect:" ++ match raw.arity with
    | some a => toString a.toNat
    | none => "?"

/-- The reference left dangling. -/
def dangling_ref (site : Site) (marker : CutMarker) : UnresolvedRef :=
  ⟨site.caller.fqn, site.raw.name_path, site.span, marker, site.caller_id⟩

/-- Record how a reference was resolved. -/
def apply_resolution (site : Site) (r : Resolution) (s : LinkState) : LinkState :=
  match r with
  | .Ignored => s
  | .Bound dst confidence rule virtual_dispatch =>
    s.push_edge (edge_of site dst virtual_dispatch confidence .ScopeGraph rule none)
  | .Indirect =>
    -- A self-edge stands for the call until the signature pass expands it.
    s.push_edge (edge_of site site.caller_id false .Possible .NameSyntactic (indirect_rule site.raw) none)
  | .Typed hits rule virtual_dispatch =>
    emit_candidate_set site hits rule virtual_dispatch { s with ledger := s.ledger.typed site hits }
  | .External =>
    { s with
      unresolved := s.unresolved ++ [dangling_ref site .External]
      ledger := s.ledger.external site }
  | .Candidates hits rule virtual_dispatch => emit_candidate_set site hits rule virtual_dispatch s
  | .Unresolved => { s with unresolved := s.unresolved ++ [dangling_ref site .Unresolved] }

/-- The references of one file that have an enclosing definition with a node. -/
def file_sites (nodes : List NodeWithProvenance) (file_idx : Nat) (file : FileInput) : List Site :=
  file.facts.refs.filterMap fun raw =>
    (enclosing_def file.facts.scopes file.facts.defs raw.scope).bind fun caller =>
      (def_to_node nodes caller.fqn).map fun caller_id =>
        { file, file_idx, raw, caller, caller_id
          local_def := raw.name_path.head?.bind
            (resolve_local file.facts.scopes file.facts.defs raw.scope) }

/-- Resolve one reference and record the outcome. -/
def resolve_ref (table : SymbolTable) (opts : LinkOpts) (receivers : Option (Site → Narrowed))
    (s : LinkState) (site : Site) : LinkState :=
  apply_resolution site
    (resolution table opts receivers (collect_import_bindings site.file.facts.imports) site) s

/-- All references of all files, in input order. -/
def link_sites (nodes : List NodeWithProvenance) (inputs : List FileInput) : List Site :=
  (inputs.mapIdx (file_sites nodes)).flatten

/-- The resolution passes over every reference. -/
def resolve_refs (table : SymbolTable) (opts : LinkOpts) (receivers : Option (Site → Narrowed))
    (sites : List Site) : LinkState :=
  sites.foldl (resolve_ref table opts receivers) .new

/-! ### What one reference leaves dangling -/

/-- The marker of a resolution that leaves the reference dangling. -/
def Resolution.marker : Resolution → Option CutMarker
  | .External => some .External
  | .Unresolved => some .Unresolved
  | _ => none

@[simp] theorem push_edge_unresolved (s : LinkState) (e : EdgeWithProvenance) :
    (s.push_edge e).unresolved = s.unresolved := rfl

@[simp] theorem emit_candidate_set_unresolved (site : Site) (hits : List DefEntry) (rule : String)
    (virtual_dispatch : Bool) (s : LinkState) :
    (emit_candidate_set site hits rule virtual_dispatch s).unresolved = s.unresolved := rfl

theorem apply_resolution_unresolved (site : Site) (r : Resolution) (s : LinkState) :
    (apply_resolution site r s).unresolved =
      s.unresolved ++ (r.marker.map (dangling_ref site)).toList := by
  cases r <;> simp [apply_resolution, Resolution.marker]

/-- A reference left dangling, with the site it stands at. -/
def dangling_at (table : SymbolTable) (opts : LinkOpts) (receivers : Option (Site → Narrowed))
    (site : Site) : Option (Site × UnresolvedRef) :=
  (resolution table opts receivers (collect_import_bindings site.file.facts.imports) site).marker.map
    fun marker => (site, dangling_ref site marker)

theorem resolve_ref_unresolved (table : SymbolTable) (opts : LinkOpts)
    (receivers : Option (Site → Narrowed)) (s : LinkState) (site : Site) :
    (resolve_ref table opts receivers s site).unresolved =
      s.unresolved ++ ((dangling_at table opts receivers site).map Prod.snd).toList := by
  rw [resolve_ref, apply_resolution_unresolved, dangling_at, Option.map_map]
  rfl

theorem foldl_resolve_ref_unresolved (table : SymbolTable) (opts : LinkOpts)
    (receivers : Option (Site → Narrowed)) (sites : List Site) (s : LinkState) :
    (sites.foldl (resolve_ref table opts receivers) s).unresolved =
      s.unresolved ++ (sites.filterMap (dangling_at table opts receivers)).map Prod.snd := by
  induction sites generalizing s with
  | nil => simp
  | cons site rest ih =>
    rw [List.foldl_cons, ih, resolve_ref_unresolved, List.append_assoc]
    cases h : dangling_at table opts receivers site with
    | none => simp [h]
    | some entry => simp [h]

/-- The whole run leaves dangling exactly the references that no step resolves. -/
theorem resolve_refs_unresolved (table : SymbolTable) (opts : LinkOpts)
    (receivers : Option (Site → Narrowed)) (sites : List Site) :
    (resolve_refs table opts receivers sites).unresolved =
      (sites.filterMap (dangling_at table opts receivers)).map Prod.snd := by
  rw [resolve_refs, foldl_resolve_ref_unresolved]
  rfl

end cgx.resolve
