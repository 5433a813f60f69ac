import Mathlib.Algebra.GroupWithZero.Nat
import Cgx.Scip.Resolver

namespace cgx.scip

namespace wire

abbrev Bytes := List UInt8

inductive WireType where
  | Varint
  | Fixed64
  | Len
  | Fixed32
deriving DecidableEq

inductive WireError where
  | UnexpectedEof
  | VarintOverflow
  | UnsupportedWireType (wire : Nat)
  | LengthOutOfRange
  | InvalidUtf8
deriving DecidableEq

/-- Why a run of the decoder ends without a result: the input is rejected, an arithmetic or
bounds check of the language fails, or the run does not end. -/
inductive Stop where
  | rejected (e : WireError)
  | panicked
  | diverged
deriving DecidableEq

abbrev Outcome := Except Stop

def reject {α : Type} (e : WireError) : Outcome α :=
  .error (.rejected e)

/-! ### Checked arithmetic -/

def add_usize (a b : Nat) : Outcome Nat :=
  if a + b < 2 ^ 64 then .ok (a + b) else .error .panicked

def add_u32 (a b : Nat) : Outcome Nat :=
  if a + b < 2 ^ 32 then .ok (a + b) else .error .panicked

def checked_add (a b : Nat) : Option Nat :=
  if a + b < 2 ^ 64 then some (a + b) else none

/-- Bits shifted out of the word are lost; a shift by the width or more is an overflow. -/
def shl_u64 (v shift : Nat) : Outcome Nat :=
  if shift < 64 then .ok (v <<< shift % 2 ^ 64) else .error .panicked

def slice (buf : Bytes) (start stop : Nat) : Outcome Bytes :=
  if start ≤ stop ∧ stop ≤ buf.length then .ok ((buf.take stop).drop start) else .error .panicked

def as_i32 (v : Nat) : Int32 :=
  (UInt32.ofNat v).toInt32

def from_utf8 (bytes : Bytes) : Outcome String :=
  match String.fromUTF8? ⟨bytes.toArray⟩ with
  | some s => .ok s
  | none => reject .InvalidUtf8

/-! ### The reader -/

/-- A cursor over a message body. -/
structure Reader where
  buf : Bytes
  pos : Nat

structure FieldHeader where
  number : Nat
  wire_type : WireType

namespace Reader

def new (buf : Bytes) : Reader :=
  ⟨buf, 0⟩

def is_empty (r : Reader) : Bool :=
  r.pos ≥ r.buf.length

def next_byte (r : Reader) : Outcome UInt8 :=
  match r.buf[r.pos]? with
  | some byte => .ok byte
  | none => reject .UnexpectedEof

/-- The rounds of `read_raw_varint`. The eleventh ends it. -/
def read_digits : Nat → Reader → Nat → Nat → Outcome (Nat × Reader)
  | 0, _, _, _ => .error .diverged
  | fuel + 1, r, result, shift => do
    let byte ← r.next_byte
    let pos ← add_usize r.pos 1
    if shift ≥ 64 then reject .VarintOverflow
    else do
      let part ← shl_u64 (byte &&& 0x7f).toNat shift
      if byte &&& 0x80 = 0 then .ok (result ||| part, { r with pos })
      else do
        let shift ← add_u32 shift 7
        read_digits fuel { r with pos } (result ||| part) shift

def read_raw_varint (r : Reader) : Outcome (Nat × Reader) :=
  read_digits 11 r 0 0

def next_field (r : Reader) : Outcome (Option FieldHeader × Reader) :=
  if r.is_empty then .ok (none, r)
  else do
    let (tag, r) ← r.read_raw_varint
    let number := (tag >>> 3) % 2 ^ 32
    match tag &&& 7 with
    | 0 => .ok (some ⟨number, .Varint⟩, r)
    | 1 => .ok (some ⟨number, .Fixed64⟩, r)
    | 2 => .ok (some ⟨number, .Len⟩, r)
    | 5 => .ok (some ⟨number, .Fixed32⟩, r)
    | other => reject (.UnsupportedWireType other)

def read_i32 (r : Reader) : Outcome (Int32 × Reader) := do
  let (v, r) ← r.read_raw_varint
  .ok (as_i32 v, r)

def read_len (r : Reader) : Outcome (Bytes × Reader) := do
  let (len, r) ← r.read_raw_varint
  match checked_add r.pos len with
  | none => reject .LengthOutOfRange
  | some stop =>
    if stop > r.buf.length then reject .LengthOutOfRange
    else do
      let bytes ← slice r.buf r.pos stop
      .ok (bytes, { r with pos := stop })

def read_str (r : Reader) : Outcome (String × Reader) := do
  let (bytes, r) ← r.read_len
  let text ← from_utf8 bytes
  .ok (text, r)

def read_message (r : Reader) : Outcome (Reader × Reader) := do
  let (bytes, r) ← r.read_len
  .ok (new bytes, r)

def advance (r : Reader) (n : Nat) : Outcome Reader :=
  match checked_add r.pos n with
  | none => reject .LengthOutOfRange
  | some stop => if stop > r.buf.length then reject .UnexpectedEof else .ok { r with pos := stop }

def skip (r : Reader) : WireType → Outcome Reader
  | .Varint => do
    let (_, r) ← r.read_raw_varint
    .ok r
  | .Len => do
    let (_, r) ← r.read_len
    .ok r
  | .Fixed64 => r.advance 8
  | .Fixed32 => r.advance 4

/-- The loop of a message parser: `handle` consumes the payload of the field it is given. -/
def each_field {α : Type} (handle : FieldHeader → α → Reader → Outcome (α × Reader)) :
    Nat → α → Reader → Outcome α
  | 0, _, _ => .error .diverged
  | fuel + 1, acc, r => do
    let (header, r) ← r.next_field
    match header with
    | none => .ok acc
    | some h => do
      let (acc, r) ← handle h acc r
      each_field handle fuel acc r

def while_fields {α : Type} (r : Reader) (acc : α)
    (handle : FieldHeader → α → Reader → Outcome (α × Reader)) : Outcome α :=
  each_field handle (r.buf.length + 1) acc r

/-- The loop over a packed payload. -/
def each_packed : Nat → List Int32 → Reader → Outcome (List Int32)
  | 0, _, _ => .error .diverged
  | fuel + 1, ints, r =>
    if r.is_empty then .ok ints
    else do
      let (v, r) ← r.read_i32
      each_packed fuel (ints ++ [v]) r

def while_packed (r : Reader) (ints : List Int32) : Outcome (List Int32) :=
  each_packed (r.buf.length + 1) ints r

end Reader

end wire

/-! ### The index -/

open wire Reader

@[match_pattern] abbrev F_INDEX_METADATA : Nat := 1
@[match_pattern] abbrev F_INDEX_DOCUMENTS : Nat := 2
@[match_pattern] abbrev F_INDEX_EXTERNAL_SYMBOLS : Nat := 3
@[match_pattern] abbrev F_META_PROJECT_ROOT : Nat := 3
@[match_pattern] abbrev F_META_TOOL_INFO : Nat := 2
@[match_pattern] abbrev F_TOOL_NAME : Nat := 1
@[match_pattern] abbrev F_DOC_RELATIVE_PATH : Nat := 1
@[match_pattern] abbrev F_DOC_OCCURRENCES : Nat := 2
@[match_pattern] abbrev F_DOC_SYMBOLS : Nat := 3
@[match_pattern] abbrev F_OCC_RANGE : Nat := 1
@[match_pattern] abbrev F_OCC_SYMBOL : Nat := 2
@[match_pattern] abbrev F_OCC_SYMBOL_ROLES : Nat := 3
@[match_pattern] abbrev F_SYM_SYMBOL : Nat := 1
@[match_pattern] abbrev F_SYM_RELATIONSHIPS : Nat := 4
@[match_pattern] abbrev F_SYM_KIND : Nat := 5
@[match_pattern] abbrev F_SYM_ENCLOSING : Nat := 8
@[match_pattern] abbrev F_REL_SYMBOL : Nat := 1
@[match_pattern] abbrev F_REL_IS_IMPLEMENTATION : Nat := 3

def parse_relationship (r : Reader) : Outcome ScipRelationship :=
  r.while_fields ⟨"", false⟩ fun h rel r =>
    match h.number, h.wire_type with
    | F_REL_SYMBOL, .Len => do
      let (text, r) ← r.read_str
      .ok ({ rel with symbol := text }, r)
    | F_REL_IS_IMPLEMENTATION, .Varint => do
      let (v, r) ← r.read_i32
      .ok ({ rel with is_implementation := v ≠ 0 }, r)
    | _, wt => do
      let r ← r.skip wt
      .ok (rel, r)

def parse_symbol_info (r : Reader) : Outcome ScipSymbolInfo :=
  r.while_fields ⟨"", 0, "", []⟩ fun h info r =>
    match h.number, h.wire_type with
    | F_SYM_SYMBOL, .Len => do
      let (text, r) ← r.read_str
      .ok ({ info with symbol := text }, r)
    | F_SYM_KIND, .Varint => do
      let (v, r) ← r.read_i32
      .ok ({ info with kind := v }, r)
    | F_SYM_ENCLOSING, .Len => do
      let (text, r) ← r.read_str
      .ok ({ info with enclosing_symbol := text }, r)
    | F_SYM_RELATIONSHIPS, .Len => do
      let (message, r) ← r.read_message
      let rel ← parse_relationship message
      .ok ({ info with relationships := info.relationships ++ [rel] }, r)
    | _, wt => do
      let r ← r.skip wt
      .ok (info, r)

/-- The local variables of `parse_occurrence`. -/
structure OccurrenceParts where
  symbol : String
  symbol_roles : Int32
  range_ints : List Int32

def parse_occurrence (r : Reader) : Outcome ScipOccurrence := do
  let parts ← r.while_fields (⟨"", 0, []⟩ : OccurrenceParts) fun h parts r =>
    match h.number, h.wire_type with
    | F_OCC_SYMBOL, .Len => do
      let (text, r) ← r.read_str
      .ok ({ parts with symbol := text }, r)
    | F_OCC_SYMBOL_ROLES, .Varint => do
      let (v, r) ← r.read_i32
      .ok ({ parts with symbol_roles := v }, r)
    | F_OCC_RANGE, .Len => do
      let (packed, r) ← r.read_message
      let ints ← packed.while_packed parts.range_ints
      .ok ({ parts with range_ints := ints }, r)
    | F_OCC_RANGE, .Varint => do
      let (v, r) ← r.read_i32
      .ok ({ parts with range_ints := parts.range_ints ++ [v] }, r)
    | _, wt => do
      let r ← r.skip wt
      .ok (parts, r)
  .ok ⟨parts.symbol, parts.symbol_roles, .from_ints parts.range_ints⟩

def parse_document (r : Reader) : Outcome ScipDocument :=
  r.while_fields ⟨"", [], []⟩ fun h doc r =>
    match h.number, h.wire_type with
    | F_DOC_RELATIVE_PATH, .Len => do
      let (text, r) ← r.read_str
      .ok ({ doc with relative_path := text }, r)
    | F_DOC_OCCURRENCES, .Len => do
      let (message, r) ← r.read_message
      let occ ← parse_occurrence message
      .ok ({ doc with occurrences := doc.occurrences ++ [occ] }, r)
    | F_DOC_SYMBOLS, .Len => do
      let (message, r) ← r.read_message
      let info ← parse_symbol_info message
      .ok ({ doc with symbols := doc.symbols ++ [info] }, r)
    | _, wt => do
      let r ← r.skip wt
      .ok (doc, r)

def parse_tool_name (r : Reader) : Outcome String :=
  r.while_fields "" fun h name r =>
    match h.number, h.wire_type with
    | F_TOOL_NAME, .Len => r.read_str
    | _, wt => do
      let r ← r.skip wt
      .ok (name, r)

def parse_metadata (r : Reader) : Outcome ScipMetadata :=
  r.while_fields ⟨"", ""⟩ fun h metadata r =>
    match h.number, h.wire_type with
    | F_META_PROJECT_ROOT, .Len => do
      let (text, r) ← r.read_str
      .ok ({ metadata with project_root := text }, r)
    | F_META_TOOL_INFO, .Len => do
      let (message, r) ← r.read_message
      let name ← parse_tool_name message
      .ok ({ metadata with tool := name }, r)
    | _, wt => do
      let r ← r.skip wt
      .ok (metadata, r)

def ScipIndex.parse (bytes : wire.Bytes) : Outcome ScipIndex :=
  (Reader.new bytes).while_fields ⟨⟨"", ""⟩, [], []⟩ fun h index r =>
    match h.number, h.wire_type with
    | F_INDEX_METADATA, .Len => do
      let (message, r) ← r.read_message
      let metadata ← parse_metadata message
      .ok ({ index with metadata }, r)
    | F_INDEX_DOCUMENTS, .Len => do
      let (message, r) ← r.read_message
      let doc ← parse_document message
      .ok ({ index with documents := index.documents ++ [doc] }, r)
    | F_INDEX_EXTERNAL_SYMBOLS, .Len => do
      let (message, r) ← r.read_message
      let info ← parse_symbol_info message
      .ok ({ index with external_symbols := index.external_symbols ++ [info] }, r)
    | _, wt => do
      let r ← r.skip wt
      .ok (index, r)

end cgx.scip
