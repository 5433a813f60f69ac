import Cgx.Lib.SortBy
import Cgx.Scip.Symbol

open sorting Std

namespace cgx.scip

/-! ### The typed index -/

/-- Which producer's symbol grammar an index uses. -/
inductive SymbolScheme where
  | RustAnalyzer
  | ScipClang
deriving DecidableEq, Inhabited

/-- The scheme of a producing tool; an unknown tool has the default one. -/
def SymbolScheme.detect (tool : String) : SymbolScheme :=
  if tool.toList.tails.any fun text => "scip-clang".toList.isPrefixOf text then .ScipClang
  else .RustAnalyzer

/-- The role bit of a definition site. -/
def SYMBOL_ROLE_DEFINITION : Int32 := 1

/-- A span in a document, all coordinates 0-based. -/
structure ScipRange where
  start_line : Int32
  start_char : Int32
  end_line : Int32
  end_char : Int32
deriving DecidableEq, Inhabited

/-- Normalize the two range encodings, single-line and multi-line. -/
def ScipRange.from_ints : List Int32 → ScipRange
  | [sl, sc, ec] => ⟨sl, sc, sl, ec⟩
  | sl :: sc :: el :: ec :: _ => ⟨sl, sc, el, ec⟩
  | _ => ⟨0, 0, 0, 0⟩

structure ScipOccurrence where
  symbol : String
  symbol_roles : Int32
  range : ScipRange
deriving DecidableEq, Inhabited

def ScipOccurrence.is_definition (occ : ScipOccurrence) : Bool :=
  occ.symbol_roles &&& SYMBOL_ROLE_DEFINITION ≠ 0

structure ScipRelationship where
  symbol : String
  is_implementation : Bool
deriving DecidableEq, Inhabited

structure ScipSymbolInfo where
  symbol : String
  kind : Int32
  enclosing_symbol : String
  relationships : List ScipRelationship
deriving DecidableEq, Inhabited

structure ScipDocument where
  relative_path : String
  occurrences : List ScipOccurrence
  symbols : List ScipSymbolInfo
deriving DecidableEq, Inhabited

structure ScipMetadata where
  project_root : String
  tool : String
deriving DecidableEq, Inhabited

structure ScipIndex where
  metadata : ScipMetadata
  documents : List ScipDocument
  external_symbols : List ScipSymbolInfo
deriving DecidableEq, Inhabited

/-- A resolved definition location. -/
structure DefLoc where
  relative_path : String
  range : ScipRange
  symbol : String
deriving DecidableEq, Inhabited

def range_cmp : ScipRange → ScipRange → Ordering :=
  compareLex (compareOn fun r => r.start_line.toInt)
    (compareLex (compareOn fun r => r.start_char.toInt)
      (compareLex (compareOn fun r => r.end_line.toInt) (compareOn fun r => r.end_char.toInt)))

def def_loc_cmp : DefLoc → DefLoc → Ordering :=
  compareLex (compareOn DefLoc.relative_path)
    (compareLex (fun a b => range_cmp a.range b.range) (compareOn DefLoc.symbol))

/-- The order of references in a document: range, then symbol. -/
def ref_cmp : ScipRange × String → ScipRange × String → Ordering :=
  compareLex (fun a b => range_cmp a.1 b.1) (compareOn Prod.snd)

/-! ### The resolver -/

/-- The read side of an index. Each map of the resolver is the lookup it answers. -/
structure ScipResolver where
  index : ScipIndex
deriving DecidableEq, Inhabited

namespace ScipResolver

variable (scip : ScipResolver)

def scheme : SymbolScheme :=
  .detect scip.index.metadata.tool

/-- The symbol infos of the documents, then the external ones. -/
def infos : List ScipSymbolInfo :=
  (scip.index.documents.flatMap ScipDocument.symbols ++ scip.index.external_symbols).filter
    fun info => info.symbol ≠ ""

/-- The kind of a symbol; of several infos the last one counts. -/
def kind_by_symbol (symbol : String) : Option Int32 :=
  (scip.infos.reverse.find? fun info => info.symbol = symbol).map ScipSymbolInfo.kind

def enclosing_by_symbol (symbol : String) : Option String :=
  (scip.infos.reverse.find? fun info => info.symbol = symbol ∧ info.enclosing_symbol ≠ "").map
    ScipSymbolInfo.enclosing_symbol

/-- Whether a symbol stands on either side of an override relationship. -/
def overridable (symbol : String) : Bool :=
  scip.infos.any fun info =>
    info.relationships.any fun rel =>
      rel.is_implementation ∧ (info.symbol = symbol ∨ rel.symbol ≠ "" ∧ rel.symbol = symbol)

/-- A symbol in cgx coordinates, by the grammar of the index. -/
def map_symbol (symbol : String) : Option MappedSymbol :=
  match scip.scheme with
  | .RustAnalyzer => rust.map_symbol symbol
  | .ScipClang => cxx.map_symbol symbol

def classify (symbol : String) : SymClass :=
  match scip.scheme with
  | .RustAnalyzer => rust.classify symbol scip.kind_by_symbol scip.enclosing_by_symbol
  | .ScipClang => cxx.classify symbol scip.overridable

/-- The definition occurrences of the index with the symbols they define. -/
def definitions : List (MappedSymbol × DefLoc) :=
  scip.index.documents.flatMap fun doc =>
    (doc.occurrences.filter ScipOccurrence.is_definition).filterMap fun occ =>
      (scip.map_symbol occ.symbol).map fun mapped => (mapped, ⟨doc.relative_path, occ.range, occ.symbol⟩)

/-- The distinct definition sites of one overload, in order. -/
def def_by_overload (mapped : MappedSymbol) : List DefLoc :=
  let locs := scip.definitions.filter fun d =>
    d.1.qname = mapped.qname ∧ d.1.overload_key = mapped.overload_key
  (sort_by def_loc_cmp (locs.map Prod.snd)).dedup

def def_count (mapped : MappedSymbol) : Nat :=
  (scip.def_by_overload mapped).length

/-- The sole definition site of an overload. -/
def unique_def_loc (mapped : MappedSymbol) : Option DefLoc :=
  match scip.def_by_overload mapped with
  | [loc] => some loc
  | _ => none

/-- The reference occurrences of a document, in order. -/
def refs_in_doc (relpath : String) : List (ScipRange × String) :=
  let docs := scip.index.documents.filter fun doc => doc.relative_path = relpath
  sort_by ref_cmp (docs.flatMap fun doc =>
    (doc.occurrences.filter fun occ => !occ.is_definition).map fun occ => (occ.range, occ.symbol))

end ScipResolver

end cgx.scip
