import Cgx.Resolve.Placement

open cgx.core cgx.frontend sorting

namespace cgx.resolve

/-! ### The dangling counters -/

/-- A reference counted in `unresolved_calls`: any marker that has no counter of its own. -/
def UnresolvedRef.is_unresolved (r : UnresolvedRef) : Bool :=
  r.marker ≠ .External ∧ r.marker ≠ .UntypedReceiver

theorem foldl_count (rs : List UnresolvedRef) (d : Dangling) :
    rs.foldl Dangling.count d =
      { unresolved := d.unresolved + UInt32.ofNat (rs.countP UnresolvedRef.is_unresolved)
        external := d.external + UInt32.ofNat (rs.countP fun r => r.marker = .External)
        untyped := d.untyped + UInt32.ofNat (rs.countP fun r => r.marker = .UntypedReceiver) } := by
  induction rs generalizing d with
  | nil => simp
  | cons r rest ih =>
    have hstep : ∀ (n : UInt32) (k : Nat), n + 1 + UInt32.ofNat k = n + UInt32.ofNat (k + 1) := by
      intro n k
      rw [UInt32.ofNat_add, UInt32.add_assoc, UInt32.add_comm 1]
      rfl
    rw [List.foldl_cons, ih]
    by_cases hext : r.marker = .External
    · simp [Dangling.count, UnresolvedRef.is_unresolved, hext, hstep]
    · by_cases hunt : r.marker = .UntypedReceiver
      · simp [Dangling.count, UnresolvedRef.is_unresolved, hunt, hstep]
      · have hcount : d.count r = { d with unresolved := d.unresolved + 1 } := by
          rw [Dangling.count]
          split <;> first | contradiction | rfl
        simp [hcount, UnresolvedRef.is_unresolved, hext, hunt, hstep]

/-- The counters a stamped node carries: of the references charged to its id, those of
each marker. -/
theorem stamp_counters {unresolved : List UnresolvedRef} (hlen : unresolved.length < 2 ^ 32)
    (narrowing : List (NodeId × NarrowingCounts)) {n : NodeWithProvenance} (h : Fresh n) :
    (stamp unresolved narrowing n).node.unresolved_calls.toNat =
        (unresolved.filter fun r => r.caller = n.node.id).countP UnresolvedRef.is_unresolved ∧
      (stamp unresolved narrowing n).node.external_calls.toNat =
        (unresolved.filter fun r => r.caller = n.node.id).countP (fun r => r.marker = .External) ∧
      (stamp unresolved narrowing n).node.narrowing.visible_dropped_out.toNat =
        (unresolved.filter fun r => r.caller = n.node.id).countP
          fun r => r.marker = .UntypedReceiver := by
  obtain ⟨hunresolved, hexternal, -⟩ := h
  simp only [stamp, dangling_of]
  generalize hcharged : (unresolved.filter fun r => r.caller = n.node.id) = charged
  have hle : charged.length < 2 ^ 32 := by
    rw [← hcharged]
    exact Nat.lt_of_le_of_lt (List.length_filter_le ..) hlen
  have hfit : ∀ p : UnresolvedRef → Bool, (UInt32.ofNat (charged.countP p)).toNat = charged.countP p := by
    intro p
    apply UInt32.toNat_ofNat_of_lt'
    exact Nat.lt_of_le_of_lt List.countP_le_length hle
  cases charged with
  | nil => simp [hunresolved, hexternal]
  | cons r rest =>
    simp only [Option.map_some, Option.getD_some, foldl_count, UInt32.zero_add]
    exact ⟨hfit _, hfit _, hfit _⟩

/-! ### The dangling references and their callers -/

/-- The references a link leaves dangling, each with its site. -/
def dangling (env : LinkEnv) (inputs : List FileInput) (opts : LinkOpts) :
    List (Site × UnresolvedRef) :=
  (link_sites (build_nodes inputs) inputs).filterMap
    (dangling_at (symbol_table inputs) opts (receivers env inputs opts))

theorem link_unresolved (env : LinkEnv) (inputs : List FileInput) (opts : LinkOpts) :
    (link env inputs opts).unresolved.Perm ((dangling env inputs opts).map Prod.snd) := by
  rw [dangling, ← resolve_refs_unresolved]
  exact perm_sort_by _

theorem mem_of_enclosing_def {scopes : ScopeTree} {defs : List SymbolDef} {scope : ScopeId}
    {d : SymbolDef} (h : enclosing_def scopes defs scope = some d) : d ∈ defs := by
  obtain ⟨sid, _, hsid⟩ := List.exists_of_findSome?_eq_some h
  obtain ⟨owner, _, hfind⟩ := Option.bind_eq_some_iff.mp hsid
  exact List.mem_of_find?_eq_some hfind

/-- What is known of a site: its file, its caller among the file's definitions, and
the node id the caller's FQN had when the references were resolved. -/
structure Site.WellPlaced (inputs : List FileInput) (site : Site) : Prop where
  file : inputs[site.file_idx]? = some site.file
  caller : site.caller ∈ site.file.facts.defs
  caller_id : def_to_node (build_nodes inputs) site.caller.fqn = some site.caller_id

theorem well_placed_of_mem {inputs : List FileInput} {site : Site}
    (h : site ∈ link_sites (build_nodes inputs) inputs) : site.WellPlaced inputs := by
  obtain ⟨_, hfile, hsite⟩ := List.mem_flatten.mp h
  obtain ⟨i, hi, rfl⟩ := List.mem_mapIdx.mp hfile
  obtain ⟨raw, _, hraw⟩ := List.mem_filterMap.mp hsite
  obtain ⟨caller, hcaller, hid⟩ := Option.bind_eq_some_iff.mp hraw
  obtain ⟨caller_id, hcaller_id, rfl⟩ := Option.map_eq_some_iff.mp hid
  exact ⟨List.getElem?_eq_getElem hi, mem_of_enclosing_def hcaller, hcaller_id⟩

/-- The definition enclosing a site is the first of its file with the caller's FQN. -/
theorem Site.WellPlaced.find_caller {inputs : List FileInput} {site : Site}
    (h : site.WellPlaced inputs) :
    ∃ d, site.file.facts.defs[site.origin.def_idx]? = some d ∧ d.fqn = site.caller.fqn := by
  obtain ⟨d, hd⟩ : ∃ d, site.file.facts.defs.find? (fun d => d.fqn = site.caller.fqn) = some d := by
    apply Option.isSome_iff_exists.mp
    rw [List.find?_isSome]
    exact ⟨site.caller, h.caller, by simp⟩
  refine ⟨d, ?_, by simpa using List.find?_some hd⟩
  rw [← hd, Site.origin, List.find?_eq_getElem?_findIdx]

/-- It has a symbol node. -/
theorem Site.WellPlaced.has_node {inputs : List FileInput} {site : Site}
    (h : site.WellPlaced inputs) :
    ∃ (p : Nat) (n : NodeWithProvenance), (placed_symbols inputs)[p]? = some (site.origin, n) := by
  obtain ⟨d, hd, -⟩ := h.find_caller
  have hmem : (site.origin, staged_node site.file d) ∈ placed_symbols inputs :=
    mem_sort_by.mpr (mem_staged_origins.mpr ⟨site.file, d, h.file, hd, rfl⟩)
  obtain ⟨p, hp⟩ := List.mem_iff_getElem?.mp hmem
  exact ⟨p, _, hp⟩

/-- That node has the caller's FQN. -/
theorem Site.WellPlaced.node_fqn {inputs : List FileInput} {site : Site} (h : site.WellPlaced inputs)
    {n : NodeWithProvenance} (hn : (site.origin, n) ∈ placed_symbols inputs) :
    n.node.fqn = site.caller.fqn := by
  obtain ⟨d, hd, hfqn⟩ := h.find_caller
  obtain ⟨file, d', hfile, hd', rfl⟩ := mem_staged_origins.mp (mem_sort_by.mp hn)
  have hsame : file = site.file := Option.some.inj (hfile.symm.trans h.file)
  subst hsame
  have hdef : d' = d := Option.some.inj (hd'.symm.trans hd)
  rw [← hfqn, ← hdef]
  rfl

theorem mem_dangling {env : LinkEnv} {inputs : List FileInput} {opts : LinkOpts}
    {s : Site × UnresolvedRef} (h : s ∈ dangling env inputs opts) :
    s.1.WellPlaced inputs ∧ s.2.caller = s.1.caller_id ∧ s.2.caller_fqn = s.1.caller.fqn := by
  obtain ⟨site, hsite, hat⟩ := List.mem_filterMap.mp h
  obtain ⟨marker, _, rfl⟩ := Option.map_eq_some_iff.mp hat
  exact ⟨well_placed_of_mem hsite, rfl, rfl⟩

/-- The node at position `p` is the placed one, numbered and stamped. -/
theorem link_node_at {env : LinkEnv} {inputs : List FileInput} {opts : LinkOpts} {p : Nat}
    {n : NodeWithProvenance} (h : (link env inputs opts).nodes[p]? = some n) :
    ∃ t narrowing, (placed inputs opts)[p]? = some t ∧
      n = stamp (link env inputs opts).unresolved narrowing
        { t.2 with node := { t.2.node with id := .ofIndex p } } := by
  obtain ⟨narrowing, hnodes⟩ := link_nodes env inputs opts
  rw [hnodes, List.getElem?_map, assign_ids, List.getElem?_mapIdx, List.getElem?_map,
    Option.map_map, Option.map_map, Option.map_eq_some_iff] at h
  obtain ⟨t, ht, rfl⟩ := h
  exact ⟨t, narrowing, ht, rfl⟩

theorem link_nodes_length (env : LinkEnv) (inputs : List FileInput) (opts : LinkOpts) :
    (link env inputs opts).nodes.length = (placed inputs opts).length := by
  obtain ⟨narrowing, hnodes⟩ := link_nodes env inputs opts
  rw [hnodes, List.length_map, assign_ids, List.length_mapIdx, List.length_map]

/-- The dangling references enclosed by the definition whose node stands at position `p`. -/
def enclosed_by (env : LinkEnv) (inputs : List FileInput) (opts : LinkOpts) (p : Nat) :
    List UnresolvedRef :=
  ((dangling env inputs opts).filter fun s => origin_at inputs opts p = some s.1.origin).map Prod.snd

/-- Every dangling reference is charged to the node of the definition that encloses it,
and every node carries exactly the numbers of the references it encloses. -/
structure ChargedToCaller (env : LinkEnv) (inputs : List FileInput) (opts : LinkOpts) : Prop where
  entries : (link env inputs opts).unresolved.Perm ((dangling env inputs opts).map Prod.snd)
  caller : ∀ s ∈ dangling env inputs opts, ∃ (p : Nat) (n : NodeWithProvenance), (link env inputs opts).nodes[p]? = some n ∧
    origin_at inputs opts p = some s.1.origin ∧ n.node.id = s.2.caller ∧
      n.node.fqn = s.2.caller_fqn
  counters : ∀ (p : Nat) (n : NodeWithProvenance), (link env inputs opts).nodes[p]? = some n →
    n.node.unresolved_calls.toNat =
        (enclosed_by env inputs opts p).countP UnresolvedRef.is_unresolved ∧
      n.node.external_calls.toNat =
        (enclosed_by env inputs opts p).countP (fun r => r.marker = .External) ∧
      n.node.narrowing.visible_dropped_out.toNat =
        (enclosed_by env inputs opts p).countP fun r => r.marker = .UntypedReceiver

/-- The id the caller had when its references were resolved is the one its enclosing
definition ends up with: the definition's place among the symbol nodes, moved by the
value nodes that sort before it. -/
def KeepsPlace (inputs : List FileInput) (opts : LinkOpts) (site : Site) : Prop :=
  ∃ (p : Nat) (n : NodeWithProvenance), (placed_symbols inputs)[p]? = some (site.origin, n) ∧
    p + shift inputs opts n = site.caller_id.index

section

variable {env : LinkEnv} {inputs : List FileInput} {opts : LinkOpts}

theorem origin_at_of_placed {p : Nat} {t : Option Origin × NodeWithProvenance}
    (h : (placed inputs opts)[p]? = some t) : origin_at inputs opts p = t.1 := by
  rw [origin_at, h]
  rfl

/-- Every placed node is a node of the linked graph, under its position. -/
theorem link_node_of_placed (env : LinkEnv) {p : Nat} {t : Option Origin × NodeWithProvenance}
    (h : (placed inputs opts)[p]? = some t) :
    ∃ n, (link env inputs opts).nodes[p]? = some n ∧ n.node.id = .ofIndex p ∧
      n.node.fqn = t.2.node.fqn := by
  have hlt := (List.getElem?_eq_some_iff.mp h).1
  rw [← link_nodes_length env] at hlt
  have hn := List.getElem?_eq_getElem hlt
  obtain ⟨t', narrowing, ht', heq⟩ := link_node_at hn
  have hsame : t' = t := Option.some.inj (ht'.symm.trans h)
  refine ⟨_, hn, ?_, ?_⟩
  · rw [heq]
    rfl
  · rw [heq, hsame]
    rfl

/-- One reference is charged to its own caller's node iff the caller keeps its place. -/
theorem charged_iff_keeps_place (hnodes : (link env inputs opts).nodes.length ≤ 2 ^ 32)
    {s : Site × UnresolvedRef} (h : s ∈ dangling env inputs opts) :
    (∃ (p : Nat) (n : NodeWithProvenance), (link env inputs opts).nodes[p]? = some n ∧
      origin_at inputs opts p = some s.1.origin ∧ n.node.id = s.2.caller ∧
        n.node.fqn = s.2.caller_fqn) ↔ KeepsPlace inputs opts s.1 := by
  obtain ⟨hsite, hcaller, hfqn⟩ := mem_dangling h
  constructor
  · rintro ⟨q, n, hn, horigin, hid, -⟩
    obtain ⟨p, m, hp⟩ := hsite.has_node
    obtain ⟨t, narrowing, ht, rfl⟩ := link_node_at hn
    have hq : q = p + shift inputs opts m := origin_at_inj horigin (origin_at_shift opts hp)
    have hlt := (List.getElem?_eq_some_iff.mp hn).1
    refine ⟨p, m, hp, ?_⟩
    rw [← hcaller, ← hid, ← hq]
    exact (NodeId.index_ofIndex (by omega)).symm
  · rintro ⟨p, m, hp, hplace⟩
    have hat := placed_of_placed_symbols opts hp
    obtain ⟨n, hn, hid, hname⟩ := link_node_of_placed env hat
    refine ⟨_, n, hn, origin_at_shift opts hp, ?_, ?_⟩
    · apply NodeId.ext_index
      have hlt := (List.getElem?_eq_some_iff.mp hn).1
      rw [hid, hcaller, ← hplace]
      exact NodeId.index_ofIndex (by omega)
    · rw [hname, hfqn]
      exact hsite.node_fqn (List.mem_of_getElem? hp)

/-- When every reference is charged to its own caller, the references charged to a node
are those it encloses. -/
theorem charged_perm_enclosed (hnodes : (link env inputs opts).nodes.length ≤ 2 ^ 32)
    (hplace : ∀ s ∈ dangling env inputs opts, KeepsPlace inputs opts s.1) {p : Nat}
    {t : Option Origin × NodeWithProvenance} (ht : (placed inputs opts)[p]? = some t) :
    ((link env inputs opts).unresolved.filter fun r => r.caller = .ofIndex p).Perm
      (enclosed_by env inputs opts p) := by
  apply ((link_unresolved env inputs opts).filter _).trans
  rw [enclosed_by, List.filter_map]
  apply List.Perm.of_eq
  congr 1
  apply List.filter_congr
  intro s hs
  obtain ⟨q, n, hn, horigin, hid, -⟩ := (charged_iff_keeps_place hnodes hs).mpr (hplace s hs)
  obtain ⟨t', narrowing, ht', rfl⟩ := link_node_at hn
  have hp := (List.getElem?_eq_some_iff.mp ht).1
  have hq := (List.getElem?_eq_some_iff.mp ht').1
  rw [link_nodes_length] at hnodes
  have hsame : s.2.caller = .ofIndex q := hid.symm
  rw [Function.comp_apply, hsame, decide_eq_decide]
  constructor
  · intro heq
    have hindex := congrArg NodeId.index heq
    rw [NodeId.index_ofIndex (by omega), NodeId.index_ofIndex (by omega)] at hindex
    rwa [← hindex]
  · intro hat
    rw [origin_at_inj horigin hat]

/-- The FQNs of the symbol nodes are pairwise distinct. -/
def DistinctFqns (inputs : List FileInput) : Prop :=
  ((placed_symbols inputs).map fun t => t.2.node.fqn).Nodup

instance (inputs : List FileInput) : Decidable (DistinctFqns inputs) :=
  inferInstanceAs (Decidable (List.Nodup _))

/-- The id a caller's references are resolved under is the place of a symbol node of
the caller's FQN. -/
theorem Site.WellPlaced.caller_id_place {site : Site} (h : site.WellPlaced inputs) :
    ∃ q t, (placed_symbols inputs)[q]? = some t ∧ t.2.node.fqn = site.caller.fqn ∧
      site.caller_id = .ofIndex q := by
  obtain ⟨n, hfind, hid⟩ := Option.map_eq_some_iff.mp h.caller_id
  have hfqn : n.node.fqn = site.caller.fqn := by simpa using List.find?_some hfind
  have hmem := List.mem_reverse.mp (List.mem_of_find?_eq_some hfind)
  rw [build_nodes_eq, assign_ids] at hmem
  obtain ⟨q, hq, rfl⟩ := List.mem_mapIdx.mp hmem
  rw [List.length_map] at hq
  rw [List.getElem_map] at hfqn
  exact ⟨q, _, List.getElem?_eq_getElem hq, hfqn, hid.symm⟩

/-- With distinct FQNs, a caller keeps its place iff no value node sorts before it. -/
theorem keeps_place_iff (hdistinct : DistinctFqns inputs)
    (hsymbols : (placed_symbols inputs).length ≤ 2 ^ 32) {site : Site}
    (h : site.WellPlaced inputs) :
    KeepsPlace inputs opts site ↔
      ∃ n, (site.origin, n) ∈ placed_symbols inputs ∧
        ∀ v ∈ link_values inputs opts, node_order v n ≠ .lt := by
  have hshift : ∀ n, shift inputs opts n = 0 ↔ ∀ v ∈ link_values inputs opts, node_order v n ≠ .lt := by
    intro n
    rw [shift, List.countP_eq_zero]
    simp
  obtain ⟨q, t, hq, ht, hid⟩ := h.caller_id_place
  have hqlt := (List.getElem?_eq_some_iff.mp hq).1
  have hindex : site.caller_id.index = q := by
    rw [hid]
    exact NodeId.index_ofIndex (by omega)
  have hplace : ∀ {p n}, (placed_symbols inputs)[p]? = some (site.origin, n) → p = q := by
    intro p n hp
    have hplt := (List.getElem?_eq_some_iff.mp hp).1
    have hfqn : ((placed_symbols inputs).map fun t => t.2.node.fqn)[p]? =
        ((placed_symbols inputs).map fun t => t.2.node.fqn)[q]? := by
      rw [List.getElem?_map, List.getElem?_map, hp, hq, Option.map_some, Option.map_some, ht]
      rw [h.node_fqn (List.mem_of_getElem? hp)]
    exact (List.getElem?_inj (by simpa using hplt) hdistinct).mp hfqn
  constructor
  · rintro ⟨p, n, hp, hsum⟩
    have hpq := hplace hp
    refine ⟨n, List.mem_of_getElem? hp, (hshift n).mp ?_⟩
    omega
  · rintro ⟨n, hn, hvalues⟩
    obtain ⟨p, hp⟩ := List.mem_iff_getElem?.mp hn
    have hpq := hplace hp
    have hzero := (hshift n).mpr hvalues
    exact ⟨p, n, hp, by omega⟩

/-- Without dataflow there are no value nodes, and every caller keeps its place. -/
theorem keeps_place_of_dataflow_off (hdistinct : DistinctFqns inputs)
    (hsymbols : (placed_symbols inputs).length ≤ 2 ^ 32) (hoff : opts.dataflow = false) {site : Site}
    (h : site.WellPlaced inputs) : KeepsPlace inputs opts site := by
  apply (keeps_place_iff hdistinct hsymbols h).mpr
  obtain ⟨p, n, hp⟩ := h.has_node
  refine ⟨n, List.mem_of_getElem? hp, ?_⟩
  intro v hv
  rw [link_values, hoff] at hv
  cases hv

end

/-! ### A function behind a parameter -/

/-- A Python function at a line of `a.py`, for a concrete link. -/
def python_def (fqn : String) (line : UInt32) (params : List Param) : SymbolDef where
  fqn := fqn
  kind := .Function
  visibility := .Public
  scope := .ROOT
  span := ⟨"a.py", line, none⟩
  line_end := line
  is_abstract := false
  signature := some ⟨params, none, [], none⟩

/-- `def f(x)` on the first line, and on the second `def g()` with a call of `missing`. -/
def call_behind_param : FileInput where
  blob_oid := ""
  path := "a.py"
  lang := "python"
  facts :=
    { FileFacts.empty with
      defs := [ python_def "a::f" 1 [⟨"x", none, false, false⟩], python_def "a::g" 2 []]
      refs :=
        [{ name_path := ["missing"], scope := ⟨2⟩, kind := .Call, edge_condition := .Always,
           implicit := none, span := ⟨"a.py", 2, none⟩, stmt_index := 0, arity := some 0,
           cut_markers := [] }]
      scopes := ⟨[⟨none, none⟩, ⟨some .ROOT, some "a::f"⟩, ⟨some .ROOT, some "a::g"⟩]⟩ }

/-- No receiver is classified and no summary applies. -/
def plain_env : LinkEnv :=
  ⟨fun _ _ _ => .Legacy, fun _ _ => []⟩

/-- Every dangling reference is charged to its own caller, and every counter is exact,
if and only if the caller of each of them keeps its place when the value nodes are
sorted in. -/
theorem charged_to_caller_iff (env : LinkEnv) (inputs : List FileInput) (opts : LinkOpts)
    (hnodes : (link env inputs opts).nodes.length ≤ 2 ^ 32)
    (hrefs : (link env inputs opts).unresolved.length < 2 ^ 32) :
    ChargedToCaller env inputs opts ↔
      ∀ s ∈ dangling env inputs opts, KeepsPlace inputs opts s.1 := by
  constructor
  · intro h s hs
    exact (charged_iff_keeps_place hnodes hs).mp (h.caller s hs)
  · intro h
    refine ⟨link_unresolved env inputs opts, ?_, ?_⟩
    · intro s hs
      exact (charged_iff_keeps_place hnodes hs).mpr (h s hs)
    · intro p n hn
      obtain ⟨t, narrowing, ht, rfl⟩ := link_node_at hn
      have hfresh := fresh_placed inputs opts t (List.mem_of_getElem? ht)
      obtain ⟨hunresolved, hexternal, hdropped⟩ := stamp_counters hrefs narrowing
        (n := { t.2 with node := { t.2.node with id := .ofIndex p } }) hfresh
      have hperm := charged_perm_enclosed hnodes h ht
      rw [hunresolved, hexternal, hdropped]
      exact ⟨hperm.countP_eq _, hperm.countP_eq _, hperm.countP_eq _⟩

/-- With dataflow off, the call of `missing` is charged to `g`. -/
theorem charged_without_dataflow : ChargedToCaller plain_env [call_behind_param] .default :=
  (charged_to_caller_iff plain_env [call_behind_param] .default (by decide) (by decide)).mpr
    fun _ hs => keeps_place_of_dataflow_off (by decide) (by decide) rfl (mem_dangling hs).1

/-- With dataflow on, the value of `x` takes the id that `g` had, and the call of
`missing` is charged to it. -/
theorem value_node_takes_the_blame :
    ¬ ChargedToCaller plain_env [call_behind_param] { LinkOpts.default with dataflow := true } := by
  intro h
  have hnode : ∃ n, (link plain_env [call_behind_param]
      { LinkOpts.default with dataflow := true }).nodes[1]? = some n ∧ n.node.unresolved_calls = 1 := by
    exact ⟨_, rfl, by decide⟩
  obtain ⟨n, hn, hcalls⟩ := hnode
  have hcount := (h.counters 1 n hn).1
  rw [hcalls] at hcount
  revert hcount
  decide

end cgx.resolve
