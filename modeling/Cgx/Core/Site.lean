import Cgx.Core.Edge
import Cgx.Core.Node
import Mathlib.Data.List.Sort

open Std

namespace cgx.core

/-- A source span: repo-relative file, 1-based line, optional column. -/
structure Span where
  file : String
  line : UInt32
  col : Option UInt32
deriving DecidableEq, Inhabited

/-- The evidence that justifies a fact. `index_id` is the blob of the source file. -/
structure Provenance where
  span : Span
  rule : String
  tier : Tier
  index_id : String
deriving DecidableEq, Inhabited

structure NodeWithProvenance where
  node : NodeRecord
  provenance : Provenance
deriving DecidableEq, Inhabited

structure EdgeWithProvenance where
  edge : EdgeRecord
  provenance : Provenance
deriving DecidableEq, Inhabited

/-- Whether symbols of this kind have a body that can be called. -/
def SymbolKind.is_callable : SymbolKind → Bool
  | .Function | .Method | .Lambda => true
  | _ => false

/-- A marker set in canonical form: ascending and without repetition. -/
def CutMarkers.from_iter_canonical (markers : List CutMarker) : List CutMarker :=
  CutMarker.ALL.filter markers.contains

/-- The canonical node order: `(file, line_start, fqn)`. -/
def node_cmp : NodeRecord → NodeRecord → Ordering :=
  compareLex (compareOn NodeRecord.file)
    (compareLex (compareOn NodeRecord.line_start) (compareOn NodeRecord.fqn))

instance : TransCmp node_cmp :=
  inferInstanceAs (TransCmp (compareLex _ (compareLex _ _)))

/-- The canonical edge order: endpoints, kind, statement, group. An absent statement or
group sorts with the largest number. -/
def edge_cmp : EdgeRecord → EdgeRecord → Ordering :=
  compareLex (compareOn fun e => e.src.raw)
    (compareLex (compareOn fun e => e.dst.raw)
      (compareLex (compareOn fun e => e.kind.discriminant)
        (compareLex (compareOn fun e => e.stmt_index.getD 4294967295)
          (compareOn fun e => e.candidate_group.getD 4294967295))))

instance : TransCmp edge_cmp :=
  inferInstanceAs (TransCmp (compareLex _ (compareLex _ (compareLex _ (compareLex _ _)))))

/-- The order of candidate rows: group, rank, destination. -/
def candidate_cmp : Candidate → Candidate → Ordering :=
  compareLex (compareOn Candidate.candidate_group)
    (compareLex (compareOn Candidate.rank) (compareOn fun c => c.dst.raw))

instance : TransCmp candidate_cmp :=
  inferInstanceAs (TransCmp (compareLex _ (compareLex _ _)))

/-- The canonical span order; a missing column comes first. -/
def span_cmp : Span → Span → Ordering :=
  compareLex (compareOn Span.file) (compareLex (compareOn Span.line) (compareOn Span.col))

/-! ### Call-site identity -/

def FNV_OFFSET : UInt64 := 0xcbf29ce484222325
def FNV_PRIME : UInt64 := 0x00000100000001b3

def fold_byte (hash : UInt64) (byte : UInt8) : UInt64 :=
  (hash ^^^ byte.toUInt64) * FNV_PRIME

/-- Fold the four little-endian bytes of a word. -/
def fold_u32 (hash : UInt64) (value : UInt32) : UInt64 :=
  [value, value >>> 8, value >>> 16, value >>> 24].foldl
    (fun hash word => fold_byte hash word.toUInt8) hash

/-- Fold a text behind its length, so that adjacent fields cannot run together. -/
def fold_str (hash : UInt64) (s : String) : UInt64 :=
  s.toUTF8.data.toList.foldl fold_byte (fold_u32 hash s.utf8ByteSize.toUInt32)

/-- The content-addressed id of the call site of `caller_fqn` at `(file, line, col)`. -/
def SiteId.derive (caller_fqn file : String) (line col : UInt32) : SiteId :=
  ⟨fold_u32 (fold_u32 (fold_str (fold_str FNV_OFFSET caller_fqn) file) line) col⟩

/-! ### Names

An FQN is split at `::`. Splitting from the left and finding the last separator
disagree on a run of three colons, so both are kept as the source has them. -/

/-- The text before and after the last `::`. -/
def rsplit_once : List Char → Option (List Char × List Char)
  | [] => none
  | c :: cs =>
    match rsplit_once cs with
    | some (before, after) => some (c :: before, after)
    | none => if c = ':' ∧ cs.head? = some ':' then some ([], cs.tail) else none

theorem rsplit_once_eq_some {l a b : List Char} (h : rsplit_once l = some (a, b)) :
    l = a ++ ':' :: ':' :: b ∧ rsplit_once b = none ∧ b.head? ≠ some ':' := by
  induction l generalizing a with
  | nil => cases h
  | cons c cs ih =>
    rw [rsplit_once] at h
    cases hrest : rsplit_once cs with
    | some parts =>
      obtain ⟨before, after⟩ := parts
      rw [hrest] at h
      cases h
      obtain ⟨heq, hnone, hhead⟩ := ih hrest
      exact ⟨by rw [heq]; rfl, hnone, hhead⟩
    | none =>
      simp only [hrest] at h
      split at h
      · rename_i hsep
        cases h
        cases cs with
        | nil => cases hsep.2
        | cons d ds =>
          rw [List.head?_cons, Option.some.injEq] at hsep
          obtain ⟨rfl, rfl⟩ := hsep
          rw [rsplit_once] at hrest
          cases hds : rsplit_once ds with
          | some parts => simp [hds] at hrest
          | none =>
            simp only [hds] at hrest
            split at hrest
            · cases hrest
            · rename_i hno
              exact ⟨rfl, hds, fun hhead => hno ⟨trivial, hhead⟩⟩
      · cases h

theorem rsplit_once_append {b : List Char} (hnone : rsplit_once b = none) (hhead : b.head? ≠ some ':')
    (a : List Char) : rsplit_once (a ++ ':' :: ':' :: b) = some (a, b) := by
  induction a with
  | nil =>
    have hcolon : rsplit_once (':' :: b) = none := by
      rw [rsplit_once, hnone]
      simp [hhead]
    simp only [List.nil_append, rsplit_once, hnone] at hcolon ⊢
    rw [hcolon]
    simp
  | cons c cs ih => rw [List.cons_append, rsplit_once, ih]

/-- The pieces between the `::` separators, found from the left. `piece` is the
one being read, reversed. -/
def split_from (piece : List Char) : List Char → List (List Char)
  | ':' :: ':' :: rest => piece.reverse :: split_from [] rest
  | c :: rest => split_from (c :: piece) rest
  | [] => [piece.reverse]

def split_segments (fqn : String) : List (List Char) :=
  split_from [] fqn.toList

/-! ### Locality -/

/-- How near a candidate is to its call site, nearest first. -/
inductive LocalityTier where
  | SameFile
  | SameModule
  | SameCrate
  | Global
deriving DecidableEq, Inhabited

def LocalityTier.rank : LocalityTier → Nat
  | .SameFile => 0
  | .SameModule => 1
  | .SameCrate => 2
  | .Global => 3

def LocalityTier.as_str : LocalityTier → String
  | .SameFile => "same-file"
  | .SameModule => "same-module"
  | .SameCrate => "same-crate"
  | .Global => "global"

/-- Classify a candidate by its file, then by the leading segments it shares with
the caller. -/
def locality_tier (call_file caller_fqn cand_file cand_fqn : String) : LocalityTier :=
  if call_file ≠ "" ∧ cand_file = call_file then .SameFile
  else
    let pairs := (split_segments caller_fqn).zip (split_segments cand_fqn)
    match (pairs.takeWhile fun pair => pair.1 = pair.2).length with
    | 0 => .Global
    | 1 => .SameCrate
    | _ => .SameModule

example : locality_tier "src/a.rs" "crate::m::T::g" "src/b.rs" "crate::m::f" = .SameModule := by
  decide

end cgx.core
