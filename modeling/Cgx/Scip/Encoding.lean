import Cgx.Lib.Protobuf
import Cgx.Scip.Wire

open protobuf

namespace cgx.scip

/-! ### What the fields of an index message mean -/

/-- The last scalar of a field that does not repeat. -/
def scalar (number : Nat) (fs : List Field) : Int32 :=
  ((varints number fs).map wire.as_i32).getLastD 0

structure RelationshipFields (fs : List Field) (rel : ScipRelationship) : Prop where
  symbol : Text (lens F_REL_SYMBOL fs) rel.symbol
  is_implementation : rel.is_implementation = decide (scalar F_REL_IS_IMPLEMENTATION fs ≠ 0)

section

variable (d : Dialect)

structure SymbolInfoFields (fs : List Field) (info : ScipSymbolInfo) : Prop where
  symbol : Text (lens F_SYM_SYMBOL fs) info.symbol
  kind : info.kind = scalar F_SYM_KIND fs
  enclosing_symbol : Text (lens F_SYM_ENCLOSING fs) info.enclosing_symbol
  relationships : List.Forall₂ (d.Message RelationshipFields) info.relationships (lens F_SYM_RELATIONSHIPS fs)

structure OccurrenceFields (fs : List Field) (occ : ScipOccurrence) : Prop where
  symbol : Text (lens F_OCC_SYMBOL fs) occ.symbol
  symbol_roles : occ.symbol_roles = scalar F_OCC_SYMBOL_ROLES fs
  range : ∃ vss, List.Forall₂ d.Scalars vss (payloads F_OCC_RANGE fs) ∧
    occ.range = .from_ints (vss.flatten.map wire.as_i32)

structure DocumentFields (fs : List Field) (doc : ScipDocument) : Prop where
  relative_path : Text (lens F_DOC_RELATIVE_PATH fs) doc.relative_path
  occurrences : List.Forall₂ (d.Message (OccurrenceFields d)) doc.occurrences (lens F_DOC_OCCURRENCES fs)
  symbols : List.Forall₂ (d.Message (SymbolInfoFields d)) doc.symbols (lens F_DOC_SYMBOLS fs)

def ToolFields (fs : List Field) (name : String) : Prop :=
  Text (lens F_TOOL_NAME fs) name

structure MetadataFields (fs : List Field) (metadata : ScipMetadata) : Prop where
  project_root : Text (lens F_META_PROJECT_ROOT fs) metadata.project_root
  tool : d.Embedded ToolFields "" (lens F_META_TOOL_INFO fs) metadata.tool

structure IndexFields (fs : List Field) (index : ScipIndex) : Prop where
  metadata : d.Embedded (MetadataFields d) ⟨"", ""⟩ (lens F_INDEX_METADATA fs) index.metadata
  documents : List.Forall₂ (d.Message (DocumentFields d)) index.documents (lens F_INDEX_DOCUMENTS fs)
  external_symbols :
    List.Forall₂ (d.Message (SymbolInfoFields d)) index.external_symbols (lens F_INDEX_EXTERNAL_SYMBOLS fs)

/-- The bytes of an index message. -/
def Encodes (index : ScipIndex) (bytes : protobuf.Bytes) : Prop :=
  d.Message (IndexFields d) index bytes

end

/-! ### Dialects that admit less -/

/-- One dialect admits less than another and reads pieces of a message the same way. -/
structure Narrower (d e : Dialect) : Prop where
  cuts : d.cuts = true → e.cuts = true
  groups : d.groups = true → e.groups = true
  merges : d.merges = e.merges

section

variable {d e : Dialect} {α : Type} {P Q : List Field → α → Prop}

theorem Narrower.message (h : Narrower d e) (hmean : ∀ fs x, P fs x → Q fs x) {x : α}
    {bytes : protobuf.Bytes} (hx : d.Message P x bytes) : e.Message Q x bytes := by
  obtain ⟨fs, hfields, hmeans⟩ := hx
  exact ⟨fs, hfields.mono h.cuts h.groups, hmean fs x hmeans⟩

theorem Narrower.embedded (h : Narrower d e) (hmean : ∀ fs x, P fs x → Q fs x) {none x : α}
    {pieces : List protobuf.Bytes} (hx : d.Embedded P none pieces x) : e.Embedded Q none pieces x := by
  rw [Dialect.Embedded] at hx ⊢
  rw [← h.merges]
  split
  · rename_i hmerges
    rw [hmerges] at hx
    obtain ⟨fss, hfields, hmeans⟩ := hx
    exact ⟨fss, hfields.imp fun _ _ => Dialect.Fields.mono h.cuts h.groups, hmean _ x hmeans⟩
  · rename_i hmerges
    rw [hmerges] at hx
    obtain ⟨xs, hxs, hlast⟩ := hx
    exact ⟨xs, hxs.imp fun _ _ => h.message hmean, hlast⟩

theorem Narrower.symbol_info (h : Narrower d e) (fs : List Field) (info : ScipSymbolInfo)
    (hinfo : SymbolInfoFields d fs info) : SymbolInfoFields e fs info :=
  ⟨hinfo.symbol, hinfo.kind, hinfo.enclosing_symbol,
    hinfo.relationships.imp fun _ _ => h.message fun _ _ => id⟩

theorem Narrower.occurrence (h : Narrower d e) (fs : List Field) (occ : ScipOccurrence)
    (hocc : OccurrenceFields d fs occ) : OccurrenceFields e fs occ := by
  obtain ⟨vss, hvss, hrange⟩ := hocc.range
  exact ⟨hocc.symbol, hocc.symbol_roles, vss, hvss.imp fun _ _ => Dialect.Scalars.mono h.cuts, hrange⟩

theorem Narrower.document (h : Narrower d e) (fs : List Field) (doc : ScipDocument)
    (hdoc : DocumentFields d fs doc) : DocumentFields e fs doc :=
  ⟨hdoc.relative_path, hdoc.occurrences.imp fun _ _ => h.message h.occurrence,
    hdoc.symbols.imp fun _ _ => h.message h.symbol_info⟩

theorem Narrower.metadata (h : Narrower d e) (fs : List Field) (metadata : ScipMetadata)
    (hmeta : MetadataFields d fs metadata) : MetadataFields e fs metadata :=
  ⟨hmeta.project_root, h.embedded (fun _ _ => id) hmeta.tool⟩

theorem Narrower.encodes (h : Narrower d e) {index : ScipIndex} {bytes : protobuf.Bytes}
    (hindex : Encodes d index bytes) : Encodes e index bytes :=
  h.message (fun _ _ hmeans => ⟨h.embedded h.metadata hmeans.metadata,
    hmeans.documents.imp fun _ _ => h.message h.document,
    hmeans.external_symbols.imp fun _ _ => h.message h.symbol_info⟩) hindex

end

/-! ### Readings with and without groups -/

/-- The dialect that admits no excess bits and no groups. -/
def strict (merges : Bool) : Dialect :=
  ⟨false, false, merges⟩

/-- What the decoder reads: excess bits are cut off, groups are refused, and the last piece
of a message counts. -/
def cutting : Dialect :=
  ⟨true, false, false⟩

theorem strict_narrower_standard : Narrower (strict true) standard :=
  ⟨nofun, fun _ => rfl, rfl⟩

theorem strict_narrower_cutting : Narrower (strict false) cutting :=
  ⟨fun _ => rfl, nofun, rfl⟩

/-- An encoding without groups, excess bits or numbers out of range, of the same index
whether the pieces of a message are merged or the last one counts. -/
def Plain (index : ScipIndex) (bytes : protobuf.Bytes) : Prop :=
  Encodes (strict true) index bytes ∧ Encodes (strict false) index bytes

section

variable {α : Type} {P Q P' Q' : List Field → α → Prop}

theorem fields_strict {fs fs' : List Field} {bytes : protobuf.Bytes} (h : standard.Fields fs bytes)
    (h' : cutting.Fields fs' bytes) : fs = fs' ∧ ∀ m, (strict m).Fields fs bytes :=
  h.without_groups rfl h'

/-- A message read in both dialects is the same fields in both, without groups. -/
theorem message_strict (hmean : ∀ fs x x', P fs x → Q fs x' → P' fs x ∧ Q' fs x') {x x' : α}
    {bytes : protobuf.Bytes} (h : standard.Message P x bytes) (h' : cutting.Message Q x' bytes) :
    (strict true).Message P' x bytes ∧ (strict false).Message Q' x' bytes := by
  obtain ⟨fs, hfields, hmeans⟩ := h
  obtain ⟨fs', hfields', hmeans'⟩ := h'
  obtain ⟨rfl, hstrict⟩ := fields_strict hfields hfields'
  obtain ⟨hm, hm'⟩ := hmean fs x x' hmeans hmeans'
  exact ⟨⟨fs, hstrict true, hm⟩, ⟨fs, hstrict false, hm'⟩⟩

theorem messages_strict (hmean : ∀ fs x x', P fs x → Q fs x' → P' fs x ∧ Q' fs x') {xs xs' : List α}
    {pieces : List protobuf.Bytes} (h : List.Forall₂ (standard.Message P) xs pieces)
    (h' : List.Forall₂ (cutting.Message Q) xs' pieces) :
    List.Forall₂ ((strict true).Message P') xs pieces ∧ List.Forall₂ ((strict false).Message Q') xs' pieces := by
  induction h generalizing xs' with
  | nil =>
    cases h'
    exact ⟨.nil, .nil⟩
  | cons hx _ ih =>
    cases h' with
    | cons hx' hrest' =>
      obtain ⟨hm, hm'⟩ := message_strict hmean hx hx'
      obtain ⟨hms, hms'⟩ := ih hrest'
      exact ⟨.cons hm hms, .cons hm' hms'⟩

theorem exists_of_forall₂ {β : Type} {R : α → β → Prop} {l : List α} {r : List β} (h : List.Forall₂ R l r)
    {b : β} (hb : b ∈ r) : ∃ a ∈ l, R a b := by
  induction h with
  | nil => cases hb
  | cons hab _ ih =>
    cases List.mem_cons.mp hb with
    | inl heq =>
      subst heq
      exact ⟨_, List.mem_cons_self, hab⟩
    | inr htail =>
      obtain ⟨a, ha, hr⟩ := ih htail
      exact ⟨a, List.mem_cons_of_mem _ ha, hr⟩

theorem forall₂_of_mem {β : Type} {R S : α → β → Prop} {l : List α} {r : List β} (h : List.Forall₂ R l r)
    (himp : ∀ a, ∀ b ∈ r, R a b → S a b) : List.Forall₂ S l r := by
  induction h with
  | nil => exact .nil
  | cons hab _ ih =>
    exact .cons (himp _ _ List.mem_cons_self hab) (ih fun a b hb => himp a b (List.mem_cons_of_mem _ hb))

/-- Every piece is a message of the dialect. -/
def AllFields (d : Dialect) (pieces : List protobuf.Bytes) : Prop :=
  ∀ piece ∈ pieces, ∃ fs, d.Fields fs piece

/-- The pieces of an embedded message, however they are read, are messages. -/
theorem all_fields_of_embedded {d : Dialect} {none x : α} {pieces : List protobuf.Bytes}
    (h : d.Embedded P none pieces x) : AllFields d pieces := by
  intro piece hpiece
  rw [Dialect.Embedded] at h
  split at h
  · obtain ⟨fss, hfields, _⟩ := h
    obtain ⟨fs, _, hfs⟩ := exists_of_forall₂ hfields hpiece
    exact ⟨fs, hfs⟩
  · obtain ⟨xs, hxs, _⟩ := h
    obtain ⟨x, _, fs, hfs, _⟩ := exists_of_forall₂ hxs hpiece
    exact ⟨fs, hfs⟩

theorem merged_strict {none x : α} {pieces : List protobuf.Bytes} (h : standard.Embedded P none pieces x)
    (hcut : AllFields cutting pieces)
    (hmean : ∀ fss, List.Forall₂ standard.Fields fss pieces → P fss.flatten x → P' fss.flatten x) :
    (strict true).Embedded P' none pieces x := by
  obtain ⟨fss, hfields, hmeans⟩ := h
  refine ⟨fss, forall₂_of_mem hfields ?_, hmean fss hfields hmeans⟩
  intro fs piece hpiece hfs
  obtain ⟨fs', hfs'⟩ := hcut piece hpiece
  exact (fields_strict hfs hfs').2 true

theorem last_strict {none x : α} {pieces : List protobuf.Bytes} (h : cutting.Embedded Q none pieces x)
    (hstd : AllFields standard pieces)
    (hmean : ∀ piece ∈ pieces, ∀ fs x, cutting.Fields fs piece → Q fs x → Q' fs x) :
    (strict false).Embedded Q' none pieces x := by
  obtain ⟨xs, hxs, hlast⟩ := h
  refine ⟨xs, forall₂_of_mem hxs ?_, hlast⟩
  intro x piece hpiece hx
  obtain ⟨fs', hfs', hmeans⟩ := hx
  obtain ⟨fs, hfs⟩ := hstd piece hpiece
  obtain ⟨rfl, hstrict⟩ := fields_strict hfs hfs'
  exact ⟨fs, hstrict false, hmean piece hpiece fs x hfs' hmeans⟩

end

theorem scalars_strict {vss vss' : List (List Nat)} {ps : List Payload}
    (h : List.Forall₂ standard.Scalars vss ps) (h' : List.Forall₂ cutting.Scalars vss' ps) :
    vss = vss' ∧ ∀ m, List.Forall₂ (strict m).Scalars vss ps := by
  constructor
  · induction h generalizing vss' with
    | nil =>
      cases h'
      rfl
    | cons hx _ ih =>
      cases h' with
      | cons hx' hrest' =>
        rw [ih hrest', hx.unique hx']
  · exact fun m => h.imp fun _ _ => Dialect.Scalars.mono (by simp [standard])

theorem relationship_strict (fs : List Field) (rel rel' : ScipRelationship) (h : RelationshipFields fs rel)
    (h' : RelationshipFields fs rel') : RelationshipFields fs rel ∧ RelationshipFields fs rel' :=
  ⟨h, h'⟩

theorem symbol_info_strict (fs : List Field) (info info' : ScipSymbolInfo)
    (h : SymbolInfoFields standard fs info) (h' : SymbolInfoFields cutting fs info') :
    SymbolInfoFields (strict true) fs info ∧ SymbolInfoFields (strict false) fs info' := by
  obtain ⟨hrels, hrels'⟩ := messages_strict relationship_strict h.relationships h'.relationships
  exact ⟨⟨h.symbol, h.kind, h.enclosing_symbol, hrels⟩, ⟨h'.symbol, h'.kind, h'.enclosing_symbol, hrels'⟩⟩

theorem occurrence_strict (fs : List Field) (occ occ' : ScipOccurrence)
    (h : OccurrenceFields standard fs occ) (h' : OccurrenceFields cutting fs occ') :
    OccurrenceFields (strict true) fs occ ∧ OccurrenceFields (strict false) fs occ' := by
  obtain ⟨vss, hvss, hrange⟩ := h.range
  obtain ⟨vss', hvss', hrange'⟩ := h'.range
  obtain ⟨rfl, hstrict⟩ := scalars_strict hvss hvss'
  exact ⟨⟨h.symbol, h.symbol_roles, vss, hstrict true, hrange⟩,
    ⟨h'.symbol, h'.symbol_roles, vss, hstrict false, hrange'⟩⟩

theorem document_strict (fs : List Field) (doc doc' : ScipDocument)
    (h : DocumentFields standard fs doc) (h' : DocumentFields cutting fs doc') :
    DocumentFields (strict true) fs doc ∧ DocumentFields (strict false) fs doc' := by
  obtain ⟨hoccs, hoccs'⟩ := messages_strict occurrence_strict h.occurrences h'.occurrences
  obtain ⟨hsyms, hsyms'⟩ := messages_strict symbol_info_strict h.symbols h'.symbols
  exact ⟨⟨h.relative_path, hoccs, hsyms⟩, ⟨h'.relative_path, hoccs', hsyms'⟩⟩

/-- The tool pieces of merged metadata are those of its pieces. -/
theorem tool_piece_iff {fss : List (List Field)} {inner : protobuf.Bytes} :
    inner ∈ lens F_META_TOOL_INFO fss.flatten ↔ ∃ fs ∈ fss, inner ∈ lens F_META_TOOL_INFO fs := by
  rw [lens_flatten, List.mem_flatten]
  constructor
  · rintro ⟨pieces, hpieces, hinner⟩
    obtain ⟨fs, hfs, rfl⟩ := List.mem_map.mp hpieces
    exact ⟨fs, hfs, hinner⟩
  · rintro ⟨fs, hfs, hinner⟩
    exact ⟨_, List.mem_map_of_mem hfs, hinner⟩

theorem metadata_strict {metadata metadata' : ScipMetadata} {pieces : List protobuf.Bytes}
    (h : standard.Embedded (MetadataFields standard) ⟨"", ""⟩ pieces metadata)
    (h' : cutting.Embedded (MetadataFields cutting) ⟨"", ""⟩ pieces metadata') :
    (strict true).Embedded (MetadataFields (strict true)) ⟨"", ""⟩ pieces metadata ∧
      (strict false).Embedded (MetadataFields (strict false)) ⟨"", ""⟩ pieces metadata' := by
  constructor
  · apply merged_strict h (all_fields_of_embedded h')
    intro fss hfss hmeans
    refine ⟨hmeans.project_root, merged_strict hmeans.tool ?_ fun _ _ => id⟩
    intro inner hinner
    obtain ⟨fs, hfs, hinner⟩ := tool_piece_iff.mp hinner
    obtain ⟨xs, hxs, _⟩ := h'
    obtain ⟨piece, hpiece, hfields⟩ := exists_of_forall₂ hfss.flip hfs
    obtain ⟨x, _, fs', hfields', hmeans'⟩ := exists_of_forall₂ hxs hpiece
    obtain ⟨rfl, _⟩ := fields_strict hfields hfields'
    exact all_fields_of_embedded hmeans'.tool inner hinner
  · apply last_strict h' (all_fields_of_embedded h)
    intro piece hpiece fs x hfields hmeans'
    refine ⟨hmeans'.project_root, last_strict hmeans'.tool ?_ fun _ _ _ _ _ => id⟩
    intro inner hinner
    obtain ⟨fss, hfss, hmeans⟩ := h
    obtain ⟨fs', hfs', hfields'⟩ := exists_of_forall₂ hfss hpiece
    obtain ⟨rfl, _⟩ := fields_strict hfields' hfields
    exact all_fields_of_embedded hmeans.tool inner (tool_piece_iff.mpr ⟨fs', hfs', hinner⟩)

/-- Bytes that both the format and the decoder read are plain. -/
theorem encodes_strict {index index' : ScipIndex} {bytes : protobuf.Bytes}
    (h : Encodes standard index bytes) (h' : Encodes cutting index' bytes) :
    Encodes (strict true) index bytes ∧ Encodes (strict false) index' bytes := by
  refine message_strict ?_ h h'
  intro fs index index' h h'
  obtain ⟨hmeta, hmeta'⟩ := metadata_strict h.metadata h'.metadata
  obtain ⟨hdocs, hdocs'⟩ := messages_strict document_strict h.documents h'.documents
  obtain ⟨hsyms, hsyms'⟩ := messages_strict symbol_info_strict h.external_symbols h'.external_symbols
  exact ⟨⟨hmeta, hdocs, hsyms⟩, ⟨hmeta', hdocs', hsyms'⟩⟩

end cgx.scip
