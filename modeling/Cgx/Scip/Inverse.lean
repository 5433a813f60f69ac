import Cgx.Scip.Parts

open protobuf results
open cgx.scip.wire cgx.scip.wire.Reader

namespace cgx.scip

/-! ### Relationships -/

def take_relationship (rel : ScipRelationship) (f : Field) : Outcome ScipRelationship := do
  let symbol ← text_part F_REL_SYMBOL rel.symbol f
  let is_implementation ← scalar_part F_REL_IS_IMPLEMENTATION (fun v => decide (v ≠ 0)) rel.is_implementation f
  .ok ⟨symbol, is_implementation⟩

theorem parse_relationship_eq (r : Reader) :
    parse_relationship r = r.while_fields ⟨"", false⟩ (through take_relationship) := by
  rw [parse_relationship]
  congr 1
  funext field rel r
  obtain ⟨number, wire⟩ := field
  split
  · rename_i hnumber hwire
    cases hnumber
    cases hwire
    refine arm_str (f := fun text => { rel with symbol := text }) ?_
    exact fun _ => rfl
  · rename_i hnumber hwire
    cases hnumber
    cases hwire
    refine arm_i32 (f := fun v => { rel with is_implementation := decide (v ≠ 0) }) ?_
    exact fun _ => rfl
  · rename_i hsymbol himplementation
    apply arm_skip
    intro p hp
    rw [take_relationship, text_part, untaken_len hsymbol hp, scalar_part, untaken_varint himplementation hp]
    rfl

theorem fold_relationship {fs : List Field} {init rel : ScipRelationship} :
    fs.foldlM take_relationship init = .ok rel ↔
      fs.foldlM (text_part F_REL_SYMBOL) init.symbol = .ok rel.symbol ∧
      fs.foldlM (scalar_part F_REL_IS_IMPLEMENTATION fun v => decide (v ≠ 0)) init.is_implementation =
        .ok rel.is_implementation := by
  induction fs generalizing init with
  | nil =>
    obtain ⟨_, _⟩ := rel
    constructor
    · rintro ⟨⟩
      exact ⟨rfl, rfl⟩
    · rintro ⟨⟨⟩, ⟨⟩⟩
      rfl
  | cons f rest ih =>
    simp only [List.foldlM_cons, bind_ok_iff, take_relationship, ih]
    constructor
    · rintro ⟨acc, ⟨symbol, hsymbol, is_implementation, himplementation, hacc⟩, hrest⟩
      cases hacc
      exact ⟨⟨symbol, hsymbol, hrest.1⟩, ⟨is_implementation, himplementation, hrest.2⟩⟩
    · rintro ⟨⟨symbol, hsymbol, hrest⟩, ⟨is_implementation, himplementation, hrest'⟩⟩
      exact ⟨⟨symbol, is_implementation⟩, ⟨symbol, hsymbol, is_implementation, himplementation, rfl⟩, hrest, hrest'⟩

theorem implementation_iff {fs : List Field} {b : Bool} :
    fs.foldlM (scalar_part F_REL_IS_IMPLEMENTATION fun v => decide (v ≠ 0)) false = .ok b ↔
      b = decide (scalar F_REL_IS_IMPLEMENTATION fs ≠ 0) := by
  have hlast : (((varints F_REL_IS_IMPLEMENTATION fs).map as_i32).map fun v => decide (v ≠ 0)).getLastD false =
      decide (scalar F_REL_IS_IMPLEMENTATION fs ≠ 0) := List.getLastD_map (f := fun v : Int32 => decide (v ≠ 0)) (a := 0)
  rw [scalar_part_iff, hlast]

theorem parses_relationship : Parses parse_relationship RelationshipFields := by
  refine .of_take parse_relationship_eq ?_ ?_
  · intro fs rel _
    rw [fold_relationship, text_part_iff, implementation_iff]
    exact ⟨fun h => ⟨h.1, h.2⟩, fun h => ⟨h.1, h.2⟩⟩
  · intro rel f hshort
    exact (text_part_settles hshort).bind fun _ _ => scalar_part_settles.bind fun _ _ => settles_ok _

/-! ### Symbol infos -/

def take_symbol_info (info : ScipSymbolInfo) (f : Field) : Outcome ScipSymbolInfo := do
  let symbol ← text_part F_SYM_SYMBOL info.symbol f
  let kind ← scalar_part F_SYM_KIND id info.kind f
  let enclosing_symbol ← text_part F_SYM_ENCLOSING info.enclosing_symbol f
  let relationships ← list_part F_SYM_RELATIONSHIPS parse_relationship info.relationships f
  .ok ⟨symbol, kind, enclosing_symbol, relationships⟩

theorem parse_symbol_info_eq (r : Reader) :
    parse_symbol_info r = r.while_fields ⟨"", 0, "", []⟩ (through take_symbol_info) := by
  rw [parse_symbol_info]
  congr 1
  funext field info r
  obtain ⟨number, wire⟩ := field
  split
  · rename_i hnumber hwire
    cases hnumber
    cases hwire
    refine arm_str (f := fun text => { info with symbol := text }) ?_
    exact fun _ => rfl
  · rename_i hnumber hwire
    cases hnumber
    cases hwire
    refine arm_i32 (f := fun v => { info with kind := v }) ?_
    exact fun _ => rfl
  · rename_i hnumber hwire
    cases hnumber
    cases hwire
    refine arm_str (f := fun text => { info with enclosing_symbol := text }) ?_
    exact fun _ => rfl
  · rename_i hnumber hwire
    cases hnumber
    cases hwire
    refine arm_message (f := fun rel => { info with relationships := info.relationships ++ [rel] }) ?_
    intro bytes
    rw [take_symbol_info, list_part_len]
    cases parse_relationship (new bytes) <;> rfl
  · rename_i hsymbol hkind henclosing hrelationships
    apply arm_skip
    intro p hp
    rw [take_symbol_info, text_part, untaken_len hsymbol hp, scalar_part, untaken_varint hkind hp, text_part,
      untaken_len henclosing hp, list_part, untaken_len hrelationships hp]
    rfl

theorem fold_symbol_info {fs : List Field} {init info : ScipSymbolInfo} :
    fs.foldlM take_symbol_info init = .ok info ↔
      fs.foldlM (text_part F_SYM_SYMBOL) init.symbol = .ok info.symbol ∧
      fs.foldlM (scalar_part F_SYM_KIND id) init.kind = .ok info.kind ∧
      fs.foldlM (text_part F_SYM_ENCLOSING) init.enclosing_symbol = .ok info.enclosing_symbol ∧
      fs.foldlM (list_part F_SYM_RELATIONSHIPS parse_relationship) init.relationships =
        .ok info.relationships := by
  induction fs generalizing init with
  | nil =>
    obtain ⟨_, _, _, _⟩ := info
    constructor
    · rintro ⟨⟩
      exact ⟨rfl, rfl, rfl, rfl⟩
    · rintro ⟨⟨⟩, ⟨⟩, ⟨⟩, ⟨⟩⟩
      rfl
  | cons f rest ih =>
    simp only [List.foldlM_cons, bind_ok_iff, take_symbol_info, ih]
    constructor
    · rintro ⟨acc, ⟨symbol, hsymbol, kind, hkind, enclosing, henclosing, rels, hrels, hacc⟩, hrest⟩
      cases hacc
      obtain ⟨hsymbol', hkind', henclosing', hrels'⟩ := hrest
      exact ⟨⟨symbol, hsymbol, hsymbol'⟩, ⟨kind, hkind, hkind'⟩, ⟨enclosing, henclosing, henclosing'⟩,
        ⟨rels, hrels, hrels'⟩⟩
    · rintro ⟨⟨symbol, hsymbol, hsymbol'⟩, ⟨kind, hkind, hkind'⟩, ⟨enclosing, henclosing, henclosing'⟩,
        ⟨rels, hrels, hrels'⟩⟩
      exact ⟨⟨symbol, kind, enclosing, rels⟩,
        ⟨symbol, hsymbol, kind, hkind, enclosing, henclosing, rels, hrels, rfl⟩,
        hsymbol', hkind', henclosing', hrels'⟩

theorem scalar_iff {number : Nat} {fs : List Field} {x : Int32} :
    fs.foldlM (scalar_part number id) 0 = .ok x ↔ x = scalar number fs := by
  rw [scalar_part_iff, List.map_id, scalar]

theorem parses_symbol_info : Parses parse_symbol_info (SymbolInfoFields cutting) := by
  refine .of_take parse_symbol_info_eq ?_ ?_
  · intro fs info hshort
    rw [fold_symbol_info, text_part_iff, scalar_iff, text_part_iff, parses_relationship.list_part_iff hshort]
    exact ⟨fun h => ⟨h.1, h.2.1, h.2.2.1, h.2.2.2⟩, fun h => ⟨h.1, h.2, h.3, h.4⟩⟩
  · intro info f hshort
    exact (text_part_settles hshort).bind fun _ _ => scalar_part_settles.bind fun _ _ =>
      (text_part_settles hshort).bind fun _ _ =>
        (parses_relationship.list_part_settles hshort).bind fun _ _ => settles_ok _

/-! ### Occurrences -/

def take_occurrence (parts : OccurrenceParts) (f : Field) : Outcome OccurrenceParts := do
  let symbol ← text_part F_OCC_SYMBOL parts.symbol f
  let symbol_roles ← scalar_part F_OCC_SYMBOL_ROLES id parts.symbol_roles f
  let range_ints ← ints_part F_OCC_RANGE parts.range_ints f
  .ok ⟨symbol, symbol_roles, range_ints⟩

/-- The loop of `parse_occurrence`. -/
def parse_occurrence_parts (r : Reader) : Outcome OccurrenceParts :=
  r.while_fields ⟨"", 0, []⟩ (through take_occurrence)

def from_parts (parts : OccurrenceParts) : ScipOccurrence :=
  ⟨parts.symbol, parts.symbol_roles, .from_ints parts.range_ints⟩

/-- A field of the range under a wire type that holds no numbers. -/
theorem untaken_ints {wt : WireType} {number own : Nat} {ints : List Int32} {p : Payload}
    (hlen : number = own → wt = .Len → False) (hvarint : number = own → wt = .Varint → False)
    (hp : FitsWire wt p) : ints_part own ints ⟨number, p⟩ = .ok ints := by
  rw [ints_part, at_number]
  split
  · rename_i hnumber
    cases p with
    | varint v =>
      cases wt with
      | Varint => exact (hvarint hnumber rfl).elim
      | _ => cases hp
    | len bytes =>
      cases wt with
      | Len => exact (hlen hnumber rfl).elim
      | _ => cases hp
    | _ => rfl
  · rfl

theorem parse_occurrence_eq (r : Reader) :
    parse_occurrence r = parse_occurrence_parts r >>= fun parts => .ok (from_parts parts) := by
  rw [parse_occurrence, parse_occurrence_parts]
  congr 2
  funext field parts r
  obtain ⟨number, wire⟩ := field
  split
  · rename_i hnumber hwire
    cases hnumber
    cases hwire
    refine arm_str (f := fun text => { parts with symbol := text }) ?_
    exact fun _ => rfl
  · rename_i hnumber hwire
    cases hnumber
    cases hwire
    refine arm_i32 (f := fun v => { parts with symbol_roles := v }) ?_
    exact fun _ => rfl
  · rename_i hnumber hwire
    cases hnumber
    cases hwire
    refine arm_message (p := fun packed => packed.while_packed parts.range_ints)
      (f := fun ints => { parts with range_ints := ints }) ?_
    intro bytes
    rw [take_occurrence, ints_part_len]
    cases (new bytes).while_packed parts.range_ints <;> rfl
  · rename_i hnumber hwire
    cases hnumber
    cases hwire
    refine arm_i32 (f := fun v => { parts with range_ints := parts.range_ints ++ [v] }) ?_
    exact fun _ => rfl
  · rename_i hsymbol hroles hpacked hrange
    apply arm_skip
    intro p hp
    rw [take_occurrence, text_part, untaken_len hsymbol hp, scalar_part, untaken_varint hroles hp,
      untaken_ints hpacked hrange hp]
    rfl

theorem fold_occurrence {fs : List Field} {init parts : OccurrenceParts} :
    fs.foldlM take_occurrence init = .ok parts ↔
      fs.foldlM (text_part F_OCC_SYMBOL) init.symbol = .ok parts.symbol ∧
      fs.foldlM (scalar_part F_OCC_SYMBOL_ROLES id) init.symbol_roles = .ok parts.symbol_roles ∧
      fs.foldlM (ints_part F_OCC_RANGE) init.range_ints = .ok parts.range_ints := by
  induction fs generalizing init with
  | nil =>
    obtain ⟨_, _, _⟩ := parts
    constructor
    · rintro ⟨⟩
      exact ⟨rfl, rfl, rfl⟩
    · rintro ⟨⟨⟩, ⟨⟩, ⟨⟩⟩
      rfl
  | cons f rest ih =>
    simp only [List.foldlM_cons, bind_ok_iff, take_occurrence, ih]
    constructor
    · rintro ⟨acc, ⟨symbol, hsymbol, roles, hroles, ints, hints, hacc⟩, hrest⟩
      cases hacc
      obtain ⟨hsymbol', hroles', hints'⟩ := hrest
      exact ⟨⟨symbol, hsymbol, hsymbol'⟩, ⟨roles, hroles, hroles'⟩, ⟨ints, hints, hints'⟩⟩
    · rintro ⟨⟨symbol, hsymbol, hsymbol'⟩, ⟨roles, hroles, hroles'⟩, ⟨ints, hints, hints'⟩⟩
      exact ⟨⟨symbol, roles, ints⟩, ⟨symbol, hsymbol, roles, hroles, ints, hints, rfl⟩, hsymbol', hroles', hints'⟩

/-- The local variables that the fields of an occurrence leave. -/
structure PartsFields (fs : List Field) (parts : OccurrenceParts) : Prop where
  symbol : Text (lens F_OCC_SYMBOL fs) parts.symbol
  symbol_roles : parts.symbol_roles = scalar F_OCC_SYMBOL_ROLES fs
  range_ints : ∃ vss, List.Forall₂ cutting.Scalars vss (payloads F_OCC_RANGE fs) ∧
    parts.range_ints = vss.flatten.map as_i32

theorem parses_occurrence_parts : Parses parse_occurrence_parts PartsFields := by
  refine .of_take (fun _ => rfl) ?_ ?_
  · intro fs parts hshort
    rw [fold_occurrence, text_part_iff, scalar_iff, ints_part_iff hshort]
    exact ⟨fun h => ⟨h.1, h.2.1, h.2.2⟩, fun h => ⟨h.1, h.2, h.3⟩⟩
  · intro parts f hshort
    exact (text_part_settles hshort).bind fun _ _ => scalar_part_settles.bind fun _ _ =>
      (ints_part_settles hshort).bind fun _ _ => settles_ok _

theorem occurrence_fields_iff {fs : List Field} {occ : ScipOccurrence} :
    OccurrenceFields cutting fs occ ↔ ∃ parts, PartsFields fs parts ∧ from_parts parts = occ := by
  constructor
  · intro h
    obtain ⟨vss, hvss, hrange⟩ := h.range
    refine ⟨⟨occ.symbol, occ.symbol_roles, vss.flatten.map as_i32⟩, ⟨h.symbol, h.symbol_roles, vss, hvss, rfl⟩, ?_⟩
    rw [from_parts, ← hrange]
  · rintro ⟨parts, h, rfl⟩
    obtain ⟨vss, hvss, hints⟩ := h.range_ints
    exact ⟨h.symbol, h.symbol_roles, vss, hvss, congrArg ScipRange.from_ints hints⟩

theorem parses_occurrence : Parses parse_occurrence (OccurrenceFields cutting) := by
  refine ⟨?_, ?_⟩
  · intro bytes occ hroom
    rw [parse_occurrence_eq, bind_ok_iff]
    constructor
    · rintro ⟨parts, hparts, hok⟩
      cases hok
      obtain ⟨fs, hfields, hmeans⟩ := (parses_occurrence_parts.ok_iff hroom).mp hparts
      exact ⟨fs, hfields, occurrence_fields_iff.mpr ⟨parts, hmeans, rfl⟩⟩
    · rintro ⟨fs, hfields, hmeans⟩
      obtain ⟨parts, hparts, rfl⟩ := occurrence_fields_iff.mp hmeans
      exact ⟨parts, (parses_occurrence_parts.ok_iff hroom).mpr ⟨fs, hfields, hparts⟩, rfl⟩
  · intro bytes hroom
    rw [parse_occurrence_eq]
    exact (parses_occurrence_parts.settles hroom).bind fun _ _ => settles_ok _

/-! ### Documents -/

def take_document (doc : ScipDocument) (f : Field) : Outcome ScipDocument := do
  let relative_path ← text_part F_DOC_RELATIVE_PATH doc.relative_path f
  let occurrences ← list_part F_DOC_OCCURRENCES parse_occurrence doc.occurrences f
  let symbols ← list_part F_DOC_SYMBOLS parse_symbol_info doc.symbols f
  .ok ⟨relative_path, occurrences, symbols⟩

theorem parse_document_eq (r : Reader) :
    parse_document r = r.while_fields ⟨"", [], []⟩ (through take_document) := by
  rw [parse_document]
  congr 1
  funext field doc r
  obtain ⟨number, wire⟩ := field
  split
  · rename_i hnumber hwire
    cases hnumber
    cases hwire
    refine arm_str (f := fun text => { doc with relative_path := text }) ?_
    exact fun _ => rfl
  · rename_i hnumber hwire
    cases hnumber
    cases hwire
    refine arm_message (f := fun occ => { doc with occurrences := doc.occurrences ++ [occ] }) ?_
    intro bytes
    rw [take_document, list_part_len]
    cases parse_occurrence (new bytes) <;> rfl
  · rename_i hnumber hwire
    cases hnumber
    cases hwire
    refine arm_message (f := fun info => { doc with symbols := doc.symbols ++ [info] }) ?_
    intro bytes
    rw [take_document, list_part_len]
    cases parse_symbol_info (new bytes) <;> rfl
  · rename_i hpath hoccurrences hsymbols
    apply arm_skip
    intro p hp
    rw [take_document, text_part, untaken_len hpath hp, list_part, untaken_len hoccurrences hp, list_part,
      untaken_len hsymbols hp]
    rfl

theorem fold_document {fs : List Field} {init doc : ScipDocument} :
    fs.foldlM take_document init = .ok doc ↔
      fs.foldlM (text_part F_DOC_RELATIVE_PATH) init.relative_path = .ok doc.relative_path ∧
      fs.foldlM (list_part F_DOC_OCCURRENCES parse_occurrence) init.occurrences = .ok doc.occurrences ∧
      fs.foldlM (list_part F_DOC_SYMBOLS parse_symbol_info) init.symbols = .ok doc.symbols := by
  induction fs generalizing init with
  | nil =>
    obtain ⟨_, _, _⟩ := doc
    constructor
    · rintro ⟨⟩
      exact ⟨rfl, rfl, rfl⟩
    · rintro ⟨⟨⟩, ⟨⟩, ⟨⟩⟩
      rfl
  | cons f rest ih =>
    simp only [List.foldlM_cons, bind_ok_iff, take_document, ih]
    constructor
    · rintro ⟨acc, ⟨path, hpath, occs, hoccs, symbols, hsymbols, hacc⟩, hrest⟩
      cases hacc
      obtain ⟨hpath', hoccs', hsymbols'⟩ := hrest
      exact ⟨⟨path, hpath, hpath'⟩, ⟨occs, hoccs, hoccs'⟩, ⟨symbols, hsymbols, hsymbols'⟩⟩
    · rintro ⟨⟨path, hpath, hpath'⟩, ⟨occs, hoccs, hoccs'⟩, ⟨symbols, hsymbols, hsymbols'⟩⟩
      exact ⟨⟨path, occs, symbols⟩, ⟨path, hpath, occs, hoccs, symbols, hsymbols, rfl⟩, hpath', hoccs', hsymbols'⟩

theorem parses_document : Parses parse_document (DocumentFields cutting) := by
  refine .of_take parse_document_eq ?_ ?_
  · intro fs doc hshort
    rw [fold_document, text_part_iff, parses_occurrence.list_part_iff hshort, parses_symbol_info.list_part_iff hshort]
    exact ⟨fun h => ⟨h.1, h.2.1, h.2.2⟩, fun h => ⟨h.1, h.2, h.3⟩⟩
  · intro doc f hshort
    exact (text_part_settles hshort).bind fun _ _ =>
      (parses_occurrence.list_part_settles hshort).bind fun _ _ =>
        (parses_symbol_info.list_part_settles hshort).bind fun _ _ => settles_ok _

/-! ### Metadata -/

theorem parse_tool_name_eq (r : Reader) :
    parse_tool_name r = r.while_fields "" (through (text_part F_TOOL_NAME)) := by
  rw [parse_tool_name]
  congr 1
  funext field name r
  obtain ⟨number, wire⟩ := field
  split
  · rename_i hnumber hwire
    cases hnumber
    cases hwire
    refine Eq.trans ?_ (arm_str (f := id) ?_)
    · cases r.read_str <;> rfl
    · intro bytes
      change from_utf8 bytes = _
      cases from_utf8 bytes <;> rfl
  · rename_i hname
    apply arm_skip
    intro p hp
    rw [text_part, untaken_len hname hp]

theorem parses_tool_name : Parses parse_tool_name ToolFields := by
  refine .of_take parse_tool_name_eq ?_ ?_
  · intro fs name _
    rw [text_part_iff, ToolFields]
  · intro name f hshort
    exact text_part_settles hshort

def take_metadata (metadata : ScipMetadata) (f : Field) : Outcome ScipMetadata := do
  let project_root ← text_part F_META_PROJECT_ROOT metadata.project_root f
  let tool ← last_part F_META_TOOL_INFO parse_tool_name metadata.tool f
  .ok ⟨project_root, tool⟩

theorem parse_metadata_eq (r : Reader) :
    parse_metadata r = r.while_fields ⟨"", ""⟩ (through take_metadata) := by
  rw [parse_metadata]
  congr 1
  funext field metadata r
  obtain ⟨number, wire⟩ := field
  split
  · rename_i hnumber hwire
    cases hnumber
    cases hwire
    refine arm_str (f := fun text => { metadata with project_root := text }) ?_
    exact fun _ => rfl
  · rename_i hnumber hwire
    cases hnumber
    cases hwire
    refine arm_message (f := fun name => { metadata with tool := name }) ?_
    intro bytes
    rw [take_metadata, last_part_len]
    cases parse_tool_name (new bytes) <;> rfl
  · rename_i hroot htool
    apply arm_skip
    intro p hp
    rw [take_metadata, text_part, untaken_len hroot hp, last_part, untaken_len htool hp]
    rfl

theorem fold_metadata {fs : List Field} {init metadata : ScipMetadata} :
    fs.foldlM take_metadata init = .ok metadata ↔
      fs.foldlM (text_part F_META_PROJECT_ROOT) init.project_root = .ok metadata.project_root ∧
      fs.foldlM (last_part F_META_TOOL_INFO parse_tool_name) init.tool = .ok metadata.tool := by
  induction fs generalizing init with
  | nil =>
    obtain ⟨_, _⟩ := metadata
    constructor
    · rintro ⟨⟩
      exact ⟨rfl, rfl⟩
    · rintro ⟨⟨⟩, ⟨⟩⟩
      rfl
  | cons f rest ih =>
    simp only [List.foldlM_cons, bind_ok_iff, take_metadata, ih]
    constructor
    · rintro ⟨acc, ⟨root, hroot, tool, htool, hacc⟩, hrest⟩
      cases hacc
      exact ⟨⟨root, hroot, hrest.1⟩, ⟨tool, htool, hrest.2⟩⟩
    · rintro ⟨⟨root, hroot, hroot'⟩, ⟨tool, htool, htool'⟩⟩
      exact ⟨⟨root, tool⟩, ⟨root, hroot, tool, htool, rfl⟩, hroot', htool'⟩

theorem parses_metadata : Parses parse_metadata (MetadataFields cutting) := by
  refine .of_take parse_metadata_eq ?_ ?_
  · intro fs metadata hshort
    rw [fold_metadata, text_part_iff, parses_tool_name.last_part_iff hshort]
    exact ⟨fun h => ⟨h.1, h.2⟩, fun h => ⟨h.1, h.2⟩⟩
  · intro metadata f hshort
    exact (text_part_settles hshort).bind fun _ _ =>
      (parses_tool_name.last_part_settles hshort).bind fun _ _ => settles_ok _

/-! ### The index -/

def take_index (index : ScipIndex) (f : Field) : Outcome ScipIndex := do
  let metadata ← last_part F_INDEX_METADATA parse_metadata index.metadata f
  let documents ← list_part F_INDEX_DOCUMENTS parse_document index.documents f
  let external_symbols ← list_part F_INDEX_EXTERNAL_SYMBOLS parse_symbol_info index.external_symbols f
  .ok ⟨metadata, documents, external_symbols⟩

/-- The parser of the index on a reader. -/
def parse_index (r : Reader) : Outcome ScipIndex :=
  r.while_fields ⟨⟨"", ""⟩, [], []⟩ (through take_index)

theorem parse_eq (bytes : wire.Bytes) : ScipIndex.parse bytes = parse_index (new bytes) := by
  rw [ScipIndex.parse, parse_index]
  congr 1
  funext field index r
  obtain ⟨number, wire⟩ := field
  split
  · rename_i hnumber hwire
    cases hnumber
    cases hwire
    refine arm_message (f := fun metadata => { index with metadata }) ?_
    intro bytes
    rw [take_index, last_part_len]
    cases parse_metadata (new bytes) <;> rfl
  · rename_i hnumber hwire
    cases hnumber
    cases hwire
    refine arm_message (f := fun doc => { index with documents := index.documents ++ [doc] }) ?_
    intro bytes
    rw [take_index, list_part_len]
    cases parse_document (new bytes) <;> rfl
  · rename_i hnumber hwire
    cases hnumber
    cases hwire
    refine arm_message (f := fun info => { index with external_symbols := index.external_symbols ++ [info] }) ?_
    intro bytes
    rw [take_index, list_part_len]
    cases parse_symbol_info (new bytes) <;> rfl
  · rename_i hmetadata hdocuments hexternal
    apply arm_skip
    intro p hp
    rw [take_index, last_part, untaken_len hmetadata hp, list_part, untaken_len hdocuments hp, list_part,
      untaken_len hexternal hp]
    rfl

theorem fold_index {fs : List Field} {init index : ScipIndex} :
    fs.foldlM take_index init = .ok index ↔
      fs.foldlM (last_part F_INDEX_METADATA parse_metadata) init.metadata = .ok index.metadata ∧
      fs.foldlM (list_part F_INDEX_DOCUMENTS parse_document) init.documents = .ok index.documents ∧
      fs.foldlM (list_part F_INDEX_EXTERNAL_SYMBOLS parse_symbol_info) init.external_symbols =
        .ok index.external_symbols := by
  induction fs generalizing init with
  | nil =>
    obtain ⟨_, _, _⟩ := index
    constructor
    · rintro ⟨⟩
      exact ⟨rfl, rfl, rfl⟩
    · rintro ⟨⟨⟩, ⟨⟩, ⟨⟩⟩
      rfl
  | cons f rest ih =>
    simp only [List.foldlM_cons, bind_ok_iff, take_index, ih]
    constructor
    · rintro ⟨acc, ⟨metadata, hmetadata, docs, hdocs, symbols, hsymbols, hacc⟩, hrest⟩
      cases hacc
      obtain ⟨hmetadata', hdocs', hsymbols'⟩ := hrest
      exact ⟨⟨metadata, hmetadata, hmetadata'⟩, ⟨docs, hdocs, hdocs'⟩, ⟨symbols, hsymbols, hsymbols'⟩⟩
    · rintro ⟨⟨metadata, hmetadata, hmetadata'⟩, ⟨docs, hdocs, hdocs'⟩, ⟨symbols, hsymbols, hsymbols'⟩⟩
      exact ⟨⟨metadata, docs, symbols⟩, ⟨metadata, hmetadata, docs, hdocs, symbols, hsymbols, rfl⟩,
        hmetadata', hdocs', hsymbols'⟩

/-- The decoder returns an index exactly for the bytes that encode it when excess bits are
cut off, groups refused and the last piece of a message counts. -/
theorem parses_index : Parses parse_index (IndexFields cutting) := by
  refine .of_take (fun _ => rfl) ?_ ?_
  · intro fs index hshort
    rw [fold_index, parses_metadata.last_part_iff hshort, parses_document.list_part_iff hshort,
      parses_symbol_info.list_part_iff hshort]
    exact ⟨fun h => ⟨h.1, h.2.1, h.2.2⟩, fun h => ⟨h.1, h.2, h.3⟩⟩
  · intro index f hshort
    exact (parses_metadata.last_part_settles hshort).bind fun _ _ =>
      (parses_document.list_part_settles hshort).bind fun _ _ =>
        (parses_symbol_info.list_part_settles hshort).bind fun _ _ => settles_ok _

/-! ### The decoder against the format -/

/-- A byte slice. The language allocates no more than `isize::MAX` bytes. -/
structure Slice where
  bytes : wire.Bytes
  fits : bytes.length < 2 ^ 63

/-- The decoder returns the message that its input encodes, rejects an input that encodes
none, and ends on every input without a failed check. -/
structure Conforms (input : Slice) : Prop where
  inverts : ∀ index, Encodes standard index input.bytes → ScipIndex.parse input.bytes = .ok index
  rejects : (∀ index, ¬ Encodes standard index input.bytes) →
    ∃ e, ScipIndex.parse input.bytes = .error (.rejected e)
  settles : ScipIndex.parse input.bytes ≠ .error .panicked ∧ ScipIndex.parse input.bytes ≠ .error .diverged

theorem parse_ok_iff {input : Slice} {index : ScipIndex} :
    ScipIndex.parse input.bytes = .ok index ↔ Encodes cutting index input.bytes := by
  rw [parse_eq]
  exact parses_index.ok_iff input.fits

theorem parse_settles (input : Slice) : Settles (ScipIndex.parse input.bytes) := by
  rw [parse_eq]
  exact parses_index.settles input.fits

theorem parse_ends (input : Slice) :
    ScipIndex.parse input.bytes ≠ .error .panicked ∧ ScipIndex.parse input.bytes ≠ .error .diverged := by
  constructor
  · intro h
    obtain ⟨e, he⟩ := parse_settles input _ h
    cases he
  · intro h
    obtain ⟨e, he⟩ := parse_settles input _ h
    cases he

/-- The decoder conforms on an input exactly when no reading of it, by the format or by the
cutting one, is other than plain. -/
theorem parse_conforms_iff (input : Slice) : Conforms input ↔
    ∀ index, Encodes standard index input.bytes ∨ Encodes cutting index input.bytes →
      Plain index input.bytes := by
  constructor
  · intro h index hencodes
    have hboth : Encodes standard index input.bytes ∧ Encodes cutting index input.bytes := by
      cases hencodes with
      | inl hstandard => exact ⟨hstandard, parse_ok_iff.mp (h.inverts index hstandard)⟩
      | inr hcutting =>
        have hok := parse_ok_iff.mpr hcutting
        by_cases hsome : ∃ index', Encodes standard index' input.bytes
        · obtain ⟨index', hstandard⟩ := hsome
          have heq := hok.symm.trans (h.inverts index' hstandard)
          cases heq
          exact ⟨hstandard, hcutting⟩
        · obtain ⟨e, herror⟩ := h.rejects fun index' hstandard => hsome ⟨index', hstandard⟩
          rw [hok] at herror
          cases herror
    exact encodes_strict hboth.1 hboth.2
  · intro h
    refine ⟨?_, ?_, parse_ends input⟩
    · intro index hstandard
      exact parse_ok_iff.mpr (strict_narrower_cutting.encodes (h index (.inl hstandard)).2)
    · intro hnone
      cases hparse : ScipIndex.parse input.bytes with
      | ok index =>
        have hplain := h index (.inr (parse_ok_iff.mp hparse))
        exact absurd (strict_narrower_standard.encodes hplain.1) (hnone index)
      | error s =>
        obtain ⟨e, rfl⟩ := parse_settles input s hparse
        exact ⟨e, rfl⟩

namespace sample

theorem digit_tag {d : Dialect} (b : UInt8) {number wire : Nat} (hlast : b.toNat < 128)
    (hwire : wire = b.toNat % 8) (hnumber : number = b.toNat / 8) (hpos : 0 < number) : d.Tag [b] number wire := by
  have hsmall : b.toNat < 2 ^ 64 := by omega
  have hlen : [b].length ≤ 10 := by
    rw [List.length_singleton]
    omega
  refine ⟨b.toNat, ⟨hlen, b.toNat, .last hlast, (Nat.mod_eq_of_lt hsmall).symm, fun _ => hsmall⟩, hwire, ?_, ?_⟩
  · rw [hnumber, Nat.mod_eq_of_lt (by omega)]
  · intro _
    omega

/-- A group without fields, under a number that no message uses. -/
def group : Slice :=
  ⟨[0x23, 0x24], by decide⟩

theorem group_encodes : Encodes standard ⟨⟨"", ""⟩, [], []⟩ group.bytes := by
  have hfields : standard.Fields [⟨4, .group⟩] group.bytes :=
    .group rfl (digit_tag 0x23 (by decide) rfl rfl (by decide)) .nil
      (digit_tag 0x24 (by decide) rfl rfl (by decide)) .nil
  exact ⟨_, hfields, ⟨[], .nil, ⟨[], rfl, rfl⟩, ⟨[], .nil, [], rfl, rfl⟩⟩, .nil, .nil⟩

/-- A varint of ten bytes with seven bits in the last one. -/
def wide : wire.Bytes :=
  [0xff, 0xff, 0xff, 0xff, 0xff, 0xff, 0xff, 0xff, 0xff, 0x7f]

/-- The field of number 4 with a wide varint. -/
def overflow : Slice :=
  ⟨0x20 :: wide, by decide⟩

theorem wide_digits : ∃ w, Digits wide w ∧ 2 ^ 64 ≤ w := by
  have h : Digits [0x7f] 0x7f := .last (by decide)
  have hmore : ∀ {bs : wire.Bytes} {v : Nat}, Digits bs v → Digits (0xff :: bs) (127 + 128 * v) :=
    fun hbs => .more (by decide) hbs
  exact ⟨_, hmore (hmore (hmore (hmore (hmore (hmore (hmore (hmore (hmore h)))))))), by decide⟩

theorem overflow_not_encoded (index : ScipIndex) : ¬ Encodes standard index overflow.bytes := by
  rintro ⟨fs, hfields, _⟩
  obtain ⟨w, hwide, hlarge⟩ := wide_digits
  have htag : ∀ d : Dialect, d.Tag [0x20] 4 0 := fun d => digit_tag 0x20 (by decide) rfl rfl (by decide)
  have hcutting : cutting.Fields [⟨4, .varint (w % 2 ^ 64)⟩] ([0x20] ++ (wide ++ [])) :=
    .field (htag _) (.varint ⟨by decide, w, hwide, rfl, nofun⟩) .nil
  have hstrict := (fields_strict hfields hcutting).2 true
  generalize hbytes : overflow.bytes = bytes at hstrict
  cases hstrict with
  | nil => cases hbytes
  | group hgroups _ _ _ _ => cases hgroups
  | @field tag body rest _ _ _ _ htag' hbody _ =>
    have hsplit : [0x20] ++ (wide ++ []) = tag ++ (body ++ rest) := hbytes
    obtain ⟨_, _, hwire, hmore⟩ := (htag standard).unique htag' hsplit
    rw [← hwire] at hbody
    cases hbody with
    | varint hvarint =>
      obtain ⟨_, w', hdigits, _, hfits⟩ := hvarint
      obtain ⟨_, heq, _⟩ := hwide.unique hdigits hmore
      have hsmall := hfits rfl
      omega

end sample

/-- An unknown group, which the format skips, is rejected, and a varint that does not fit
is read. -/
theorem groups_and_wide_varints : ¬ Conforms sample.group ∧ ¬ Conforms sample.overflow := by
  constructor
  · intro h
    have hok := h.inverts _ sample.group_encodes
    cases hok
  · intro h
    obtain ⟨e, he⟩ := h.rejects sample.overflow_not_encoded
    cases he

end cgx.scip
