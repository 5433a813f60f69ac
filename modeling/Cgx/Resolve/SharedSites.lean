import Cgx.Resolve.ChaSound
import Cgx.Resolve.Renumber

open cgx.core cgx.frontend sorting

namespace cgx.resolve

/-! ### Virtual references and their edges -/

def Site.site_id (site : Site) : SiteId :=
  .derive site.caller.fqn site.span.file site.span.line (site.span.col.getD 0)

/-- The call site of a reference in the linked graph. -/
def Site.key (inputs : List FileInput) (opts : LinkOpts) (site : Site) : SiteKey :=
  (linked_id inputs opts site.caller_id, site.site_id)

/-- The edge carries the call of the reference: it stands at its site, has its condition and
statement, and leads to a callable of its method name. -/
structure Carries (nodes : List NodeWithProvenance) (inputs : List FileInput) (opts : LinkOpts) (site : Site)
    (method : String) (e : EdgeWithProvenance) : Prop where
  src : e.edge.src = linked_id inputs opts site.caller_id
  site_id : e.edge.site_id = some site.site_id
  condition : e.edge.condition = site.raw.edge_condition
  stmt_index : e.edge.stmt_index = some site.raw.stmt_index
  target : ∃ n, node_of nodes e.edge.dst = some n ∧ n.node.kind.is_callable = true ∧
    short_name n.node.fqn = method

theorem carries_stem {nodes : List NodeWithProvenance} {inputs : List FileInput} {opts : LinkOpts} {site : Site}
    {method : String} (e : EdgeWithProvenance) :
    Carries nodes inputs opts site method (stem e) ↔ Carries nodes inputs opts site method e := by
  constructor <;> exact fun h => ⟨h.src, h.site_id, h.condition, h.stmt_index, h.target⟩

theorem resolve_by_name_candidates {table : SymbolTable} {opts : LinkOpts} {lang last : String} {raw : RawRef}
    {hits : List DefEntry} {virtual_dispatch : Bool}
    (h : resolve_by_name table opts lang raw last = .Candidates hits NAME_METHOD_RULE virtual_dispatch) :
    raw.kind = .CallVirtualReceiver ∧ virtual_dispatch = true ∧
      hits = method_candidates table last lang ∧ hits ≠ [] := by
  rw [resolve_by_name] at h
  split at h
  · split at h
    · cases h
    · injection h with _ hrule
      exact absurd hrule (by decide)
  · rename_i hne
    injection h with hhits _ hvirtual
    by_cases hkind : raw.kind = .CallVirtualReceiver
    · refine ⟨hkind, hvirtual.symm, ?_, fun hnil => hne (hhits.trans hnil)⟩
      rw [← hhits, decide_eq_true hkind, if_pos rfl]
    · rw [decide_eq_false hkind] at hne
      exact absurd rfl hne

theorem resolve_by_import_candidates {table : SymbolTable} {opts : LinkOpts} {lang head last : String}
    {scopes : ScopeTree} {bindings : List ImportBinding} {raw : RawRef} {hits : List DefEntry}
    {virtual_dispatch : Bool}
    (h : resolve_by_import table opts lang scopes bindings raw head last =
      .Candidates hits NAME_METHOD_RULE virtual_dispatch) :
    resolve_by_name table opts lang raw last = .Candidates hits NAME_METHOD_RULE virtual_dispatch := by
  rw [resolve_by_import] at h
  split at h
  · cases h
  · injection h with _ hrule
    exact absurd hrule (by decide)
  · exact h

theorem resolve_by_receiver_candidates {table : SymbolTable} {opts : LinkOpts}
    {narrow : Option (Site → Narrowed)} {site : Site} {bindings : List ImportBinding} {head last : String}
    {hits : List DefEntry} {virtual_dispatch : Bool}
    (h : resolve_by_receiver table opts narrow site bindings head last =
      .Candidates hits NAME_METHOD_RULE virtual_dispatch) :
    resolve_by_name table opts site.file.lang site.raw last =
      .Candidates hits NAME_METHOD_RULE virtual_dispatch := by
  unfold resolve_by_receiver at h
  split at h
  · split at h
    · split at h
      · cases h
      · cases h
      · exact resolve_by_import_candidates h
    · exact resolve_by_import_candidates h
  · exact resolve_by_import_candidates h

/-- Same-name dispatch of a virtual reference finds the same-named callables of its
language, and at least one of them. -/
theorem resolution_name_method {table : SymbolTable} {opts : LinkOpts} {narrow : Option (Site → Narrowed)}
    {bindings : List ImportBinding} {site : Site} {hits : List DefEntry} {virtual_dispatch : Bool}
    (h : resolution table opts narrow bindings site = .Candidates hits NAME_METHOD_RULE virtual_dispatch) :
    ∃ method, site.raw.name_path.getLast? = some method ∧ site.raw.kind = .CallVirtualReceiver ∧
      virtual_dispatch = true ∧ hits = method_candidates table method site.file.lang ∧ hits ≠ [] := by
  rw [resolution] at h
  split at h
  · rename_i head last _ hlast
    split at h
    · cases h
    · split at h
      · cases h
      · split at h
        · cases h
        · exact ⟨last, hlast, resolve_by_name_candidates (resolve_by_receiver_candidates h)⟩
  · cases h

/-- A same-named callable has a staged node. -/
theorem mem_method_candidates {inputs : List FileInput} {method lang : String} {d : DefEntry}
    (h : d ∈ method_candidates (symbol_table inputs) method lang) :
    ∃ n ∈ build_nodes inputs, n.node.id = d.node_id ∧ n.node.kind.is_callable = true ∧
      short_name n.node.fqn = method := by
  simp only [method_candidates, SymbolTable.defs_by_short, List.mem_filter, decide_eq_true_eq] at h
  obtain ⟨⟨⟨hentry, hshort⟩, hkind⟩, _⟩ := h
  simp only [symbol_table, SymbolTable.build, List.map_map, List.mem_map, Function.comp_apply] at hentry
  obtain ⟨n, hn, rfl⟩ := hentry
  refine ⟨n, hn, rfl, ?_, hshort⟩
  have hkind' : n.node.kind = .Method ∨ n.node.kind = .Function := hkind
  obtain hkind | hkind := hkind' <;> rw [hkind] <;> rfl

theorem mem_emitted_candidates (site : Site) {hits : List DefEntry} {d : DefEntry} (hd : d ∈ hits) :
    ∃ confidence tier group,
      edge_of site d.node_id true confidence tier NAME_METHOD_RULE group ∈
        emitted site (.Candidates hits NAME_METHOD_RULE true) := by
  have hmem : d.node_id ∈ canonicalize_candidate_dsts (hits.map DefEntry.node_id) := by
    rw [canonicalize_candidate_dsts, mem_sort_by, List.mem_dedup]
    exact List.mem_map_of_mem hd
  simp only [emitted, apply_resolution, emit_candidate_set, LinkState.new, List.nil_append]
  exact ⟨_, _, _, List.mem_map_of_mem hmem⟩

/-! ### The call of a reference in the linked graph -/

section

variable {env : LinkEnv} {inputs : List FileInput} {opts : LinkOpts} {site : Site} {hits : List DefEntry}
  {method : String}

/-- The link leaves an edge for the call. -/
theorem link_carries (hnodes : (link env inputs opts).nodes.length ≤ 2 ^ 32)
    (hsite : site ∈ link_sites (build_nodes inputs) inputs)
    (hres : resolved env inputs opts site = .Candidates hits NAME_METHOD_RULE true)
    (hmethod : site.raw.name_path.getLast? = some method) :
    ∃ e ∈ (link env inputs opts).edges, Carries (link env inputs opts).nodes inputs opts site method e := by
  obtain ⟨last, hlast, hkind, _, rfl, hne⟩ := resolution_name_method hres
  rw [hmethod, Option.some.injEq] at hlast
  subst hlast
  obtain ⟨d, hd⟩ := List.exists_mem_of_ne_nil _ hne
  obtain ⟨n, hn, hid, hcallable, hshort⟩ := mem_method_candidates hd
  obtain ⟨m, narrowing, hm, rfl⟩ := node_of_linked_id hnodes (List.mem_append_left (link_values inputs opts) hn)
  rw [exists_edge_link carries_stem]
  have hrefs : ∃ e ∈ (link_refs env inputs opts).edges,
      Carries (link env inputs opts).nodes inputs opts site method (linked_edge inputs opts e) := by
    rw [exists_edge_link_refs fun e => carries_stem (linked_edge inputs opts e)]
    obtain ⟨confidence, tier, group, he⟩ := mem_emitted_candidates site hd
    refine ⟨site, hsite, _, by rw [hres]; exact he, ?_⟩
    have hvirtual : edge_kind site.raw.kind true = .CallsVirtual := by rw [hkind]; rfl
    rw [hid] at hm
    refine ⟨rfl, ?_, rfl, rfl, _, hm, hcallable, hshort⟩
    simp only [linked_edge, edge_of, hvirtual, EdgeKind.is_call, if_true]
    rfl
  obtain ⟨e, he, hcarries⟩ := hrefs
  exact ⟨e, List.mem_append_left _ (List.mem_append_left _ he), hcarries⟩

/-- An edge that carries the call stands at its site. -/
theorem Carries.site_key {nodes : List NodeWithProvenance} {e : EdgeWithProvenance} {rule : String}
    {key : SiteKey} (h : Carries nodes inputs opts site method e) (hkey : virtual_site rule e = some key) :
    key = site.key inputs opts := by
  obtain ⟨_, _, hsrc, hid⟩ := virtual_site_eq_some.mp hkey
  rw [h.src] at hsrc
  rw [h.site_id, Option.some.injEq] at hid
  exact Prod.ext hsrc.symm hid.symm

/-! ### The call of a reference after CHA -/

theorem short_name_of_split {fqn parent method : String} (h : split_fqn fqn = some (parent, method)) :
    short_name fqn = method := by
  obtain ⟨parts, hparts, heq⟩ := Option.map_eq_some_iff.mp h
  rw [short_name, hparts]
  exact congrArg Prod.snd heq

/-- What CHA finds for a method has its name. -/
theorem Scoped.node {g : ResolvedGraph} {id : NodeId} (h : Scoped g method id) :
    ∃ n ∈ g.nodes, n.node.id = id ∧ short_name n.node.fqn = method := by
  obtain ⟨ty, tr, declaring, _, _, hdeclares, hbody⟩ := h
  obtain ⟨_, _, _, hsplit⟩ := hdeclares
  have hlast : ∃ parent, last_of g (member_fqn parent method) = some id := by
    cases hbody with
    | inl hown => exact ⟨ty, hown.2⟩
    | inr hdefault => exact ⟨declaring, hdefault.2.2⟩
  obtain ⟨parent, hlast⟩ := hlast
  obtain ⟨n, hfind, hid⟩ := Option.map_eq_some_iff.mp hlast
  have hfqn : n.node.fqn = member_fqn parent method := by simpa using List.find?_some hfind
  refine ⟨n, List.mem_reverse.mp (List.mem_of_find?_eq_some hfind), hid, ?_⟩
  rw [hfqn]
  exact short_name_of_split (split_member_fqn hsplit parent)

/-- Why the call of a reference is still there after CHA. -/
inductive Survives (g : ResolvedGraph) (inputs : List FileInput) (opts : LinkOpts) (site : Site)
    (method : String) : Prop
  /-- No trait declares the method that the first edge of the site names. -/
  | left_alone : (∀ template first id,
      (site_edges NAME_METHOD_RULE g (site.key inputs opts)).head? = some template →
        short_name_of g.nodes template.edge.dst = some first → ¬ Scoped g first id) →
      Survives g inputs opts site method
  /-- The first edge of the site is of a like reference. -/
  | template {template : EdgeWithProvenance} {id : NodeId} {n : NodeWithProvenance} :
      (site_edges NAME_METHOD_RULE g (site.key inputs opts)).head? = some template →
      short_name_of g.nodes template.edge.dst = some method →
      template.edge.condition = site.raw.edge_condition →
      template.edge.stmt_index = some site.raw.stmt_index →
      Scoped g method id → node_of g.nodes id = some n → n.node.kind.is_callable = true →
      Survives g inputs opts site method
  /-- An edge of another kind or rule carries the call. -/
  | other_edge {e : EdgeWithProvenance} : e ∈ g.edges → Carries g.nodes inputs opts site method e →
      virtual_site NAME_METHOD_RULE e ≠ some (site.key inputs opts) → Survives g inputs opts site method

/-- After CHA the call of a name-method reference is still there exactly if CHA leaves its
site alone, or the edge that it copies agrees with the reference, or an edge that it does not
replace carries the call. -/
theorem keeps_call_iff (hnodes : (link env inputs opts).nodes.length ≤ 2 ^ 32)
    (hsite : site ∈ link_sites (build_nodes inputs) inputs)
    (hres : resolved env inputs opts site = .Candidates hits NAME_METHOD_RULE true)
    (hmethod : site.raw.name_path.getLast? = some method) :
    (∃ e ∈ (run_cha (link env inputs opts)).1.edges,
      Carries (run_cha (link env inputs opts)).1.nodes inputs opts site method e) ↔
        Survives (link env inputs opts) inputs opts site method := by
  rw [nodes_run_cha, exists_edge_run_cha carries_stem]
  constructor
  · intro h
    cases h with
    | inl hkept =>
      obtain ⟨e, he, hcarries, hkept⟩ := hkept
      by_cases hvirtual : virtual_site NAME_METHOD_RULE e = some (site.key inputs opts)
      · apply Survives.left_alone
        intro template first id hhead hfirst hscoped
        obtain ⟨dsts, hscope, _⟩ := rescope_of_scoped hhead hfirst ⟨id, hscoped⟩
        have hreplaced := (mem_cha_replacements_key hscope (p := fun _ _ => True)).mpr trivial
        obtain ⟨r, hr, hkey, _⟩ := hreplaced
        exact hkept r hr (hvirtual.trans (congrArg some hkey.symm))
      · exact .other_edge he hcarries hvirtual
    | inr hnew =>
      obtain ⟨r, hr, dst, hdst, hcarries⟩ := hnew
      have hkey := hcarries.site_key (build_cha_edge_site (at_site_of_mem hr) dst)
      obtain ⟨hhead, first, hfirst, _, hscoped⟩ := replacement_spec hr
      obtain ⟨n, hn, hcallable, hshort⟩ := hcarries.target
      have hdst' := (hscoped dst).mp hdst
      obtain ⟨m, hm, hid, hname⟩ := hdst'.node
      have hfound := node_of_mem_link hnodes hm
      rw [hid] at hfound
      have hsame : n = m := Option.some.inj (hn.symm.trans hfound)
      have hagree : first = method := by rw [← hname, ← hsame, hshort]
      rw [hkey] at hhead
      rw [hagree] at hfirst hdst'
      exact .template hhead hfirst hcarries.condition hcarries.stmt_index hdst' hn hcallable
  · intro h
    cases h with
    | left_alone hnone =>
      obtain ⟨e, he, hcarries⟩ := link_carries hnodes hsite hres hmethod
      refine .inl ⟨e, he, hcarries, fun r hr hvirtual => ?_⟩
      obtain ⟨hhead, first, hfirst, ⟨id, hscoped⟩, _⟩ := replacement_spec hr
      rw [hcarries.site_key hvirtual] at hhead
      exact hnone _ _ _ hhead hfirst hscoped
    | @template template id n hhead hfirst hcondition hstmt hscoped hn hcallable =>
      obtain ⟨dsts, hscope, hmem⟩ := rescope_of_scoped hhead hfirst ⟨id, hscoped⟩
      obtain ⟨r, hr, hkey, hproto, hdst⟩ := (mem_cha_replacements_key hscope
        (p := fun proto dsts => proto = template ∧ id ∈ dsts)).mpr ⟨rfl, (hmem id).mpr hscoped⟩
      obtain ⟨m, hm, hid, hname⟩ := hscoped.node
      have hfound := node_of_mem_link hnodes hm
      rw [hid, hn] at hfound
      cases hfound
      have hat := at_site_of_mem hr
      rw [Replacement.AtSite, hkey, virtual_site_eq_some] at hat
      subst hproto
      exact .inr ⟨r, hr, id, hdst, hat.2.2.1, hat.2.2.2, hcondition, hstmt, n, hn, hcallable, hname⟩
    | other_edge he hcarries hother =>
      refine .inl ⟨_, he, hcarries, fun r _ hvirtual => hother ?_⟩
      rw [hvirtual, hcarries.site_key hvirtual]

end

namespace sample

/-- A definition at a line of `A.java`. -/
def java_def (kind : SymbolKind) (fqn : String) (line : UInt32) (is_abstract : Bool) : SymbolDef where
  fqn := fqn
  kind := kind
  visibility := .Public
  scope := .ROOT
  span := ⟨"A.java", line, none⟩
  line_end := line
  is_abstract := is_abstract
  signature := none

/-- A call in the chain `s.grow().draw()`: every call of a chain starts where the chain does. -/
def chain_ref (name_path : List String) : RawRef where
  name_path := name_path
  scope := ⟨1⟩
  kind := .CallVirtualReceiver
  edge_condition := .Always
  implicit := none
  span := ⟨"A.java", 8, some 5⟩
  stmt_index := 0
  arity := some 0
  cut_markers := []

/-- `interface Shape { grow }`, `class Box implements Shape`, `class Pen { draw }`, and a
method with the chain. -/
def chained_calls : FileInput where
  blob_oid := ""
  path := "A.java"
  lang := "java"
  facts :=
    { FileFacts.empty with
      defs := [ java_def .Type "Shape" 1 true, java_def .Method "Shape::grow" 2 true,
        java_def .Type "Box" 3 false, java_def .Method "Box::grow" 4 false,
        java_def .Type "Pen" 5 false, java_def .Method "Pen::draw" 6 false,
        java_def .Method "Main::main" 7 false]
      refs := [chain_ref ["s", "grow"], chain_ref ["s", "grow", "draw"]]
      impl_relations := [⟨.Implements, ["Box"], ["Shape"], ⟨"A.java", 3, none⟩⟩]
      scopes := ⟨[⟨none, none⟩, ⟨some .ROOT, some "Main::main"⟩]⟩ }

/-- The reference of the second call of the chain. -/
def draw_site : Site where
  file := chained_calls
  file_idx := 0
  raw := chain_ref ["s", "grow", "draw"]
  caller := java_def .Method "Main::main" 7 false
  caller_id := ⟨6⟩
  local_def := none

/-- The only definition called `draw`. -/
def draw_hit : DefEntry :=
  ⟨⟨5⟩, "Pen::draw", .Method, none, "java", "A.java"⟩

theorem draw_site_mem : draw_site ∈ link_sites (build_nodes [chained_calls]) [chained_calls] := by decide

theorem draw_resolved :
    resolved plain_env [chained_calls] .default draw_site = .Candidates [draw_hit] NAME_METHOD_RULE true := by
  decide

/-- The call of `draw` is lost: CHA takes the site for a call of `grow`. -/
theorem chained_call_is_lost :
    draw_site ∈ link_sites (build_nodes [chained_calls]) [chained_calls] ∧
      resolved plain_env [chained_calls] .default draw_site = .Candidates [draw_hit] NAME_METHOD_RULE true ∧
      ¬ ∃ e ∈ (run_cha (link plain_env [chained_calls] .default)).1.edges,
        Carries (run_cha (link plain_env [chained_calls] .default)).1.nodes [chained_calls] .default
          draw_site "draw" e := by
  refine ⟨draw_site_mem, draw_resolved, fun ⟨e, he, hcarries⟩ => ?_⟩
  have hall : ∀ e ∈ (run_cha (link plain_env [chained_calls] .default)).1.edges,
      short_name_of (run_cha (link plain_env [chained_calls] .default)).1.nodes e.edge.dst ≠ some "draw" := by
    decide
  obtain ⟨n, hn, _, hshort⟩ := hcarries.target
  apply hall e he
  rw [short_name_of, fqn_of, hn, Option.map_some, Option.map_some, hshort]

theorem keeps_call_iff_draw :
    (∃ e ∈ (run_cha (link plain_env [chained_calls] .default)).1.edges,
      Carries (run_cha (link plain_env [chained_calls] .default)).1.nodes [chained_calls] .default
        draw_site "draw" e) ↔
      Survives (link plain_env [chained_calls] .default) [chained_calls] .default draw_site "draw" :=
  keeps_call_iff (by decide) draw_site_mem draw_resolved rfl

end sample

end cgx.resolve
