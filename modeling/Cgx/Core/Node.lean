import Mathlib.Algebra.GroupWithZero.Nat
import Mathlib.Data.Nat.Basic

namespace cgx.core

/-- Dense index of a symbol node within a single linked graph. -/
structure NodeId where
  raw : UInt32
deriving DecidableEq, Inhabited

def NodeId.index (n : NodeId) : Nat :=
  n.raw.toNat

/-- Dense index of an edge within a single linked graph. -/
structure EdgeId where
  raw : UInt32
deriving DecidableEq, Inhabited

def EdgeId.index (e : EdgeId) : Nat :=
  e.raw.toNat

/-- Content-addressed identity of a call site. -/
structure SiteId where
  raw : UInt64
deriving DecidableEq, Inhabited

@[ext] theorem NodeId.ext_index {a b : NodeId} (h : a.index = b.index) : a = b := by
  cases a
  cases b
  simp only [NodeId.index] at h
  rw [UInt32.toNat_inj.mp h]

@[ext] theorem EdgeId.ext_index {a b : EdgeId} (h : a.index = b.index) : a = b := by
  cases a
  cases b
  simp only [EdgeId.index] at h
  rw [UInt32.toNat_inj.mp h]

theorem NodeId.index_inj {a b : NodeId} : a.index = b.index ↔ a = b :=
  ⟨NodeId.ext_index, fun h => h ▸ rfl⟩

theorem EdgeId.index_inj {a b : EdgeId} : a.index = b.index ↔ a = b :=
  ⟨EdgeId.ext_index, fun h => h ▸ rfl⟩

/-- The id of the node stored at position `i`; exact while `i` fits in 32 bits. -/
def NodeId.ofIndex (i : Nat) : NodeId :=
  ⟨UInt32.ofNat i⟩

theorem NodeId.index_ofIndex {i : Nat} (h : i < 2 ^ 32) : (NodeId.ofIndex i).index = i := by
  exact UInt32.toNat_ofNat_of_lt' h

theorem NodeId.index_lt (n : NodeId) : n.index < 2 ^ 32 :=
  n.raw.toNat_lt

/-- Symbol kinds. Every named program entity is a symbol. -/
inductive SymbolKind where
  | Function
  | Method
  | Type
  | Field
  | Variable
  | Module
  | Constant
  | Macro
  | Lambda
  | Entrypoint
deriving DecidableEq, Inhabited

/-- Language-mapped visibility. -/
inductive Visibility where
  | Public
  | Protected
  | Internal
  | Package
  | Private
deriving DecidableEq, Inhabited

/-- The class of an auto-detected or declared entrypoint. -/
inductive EntrypointKind where
  | Main
  | Test
  | HttpHandler
  | AsyncMain
  | Declared
deriving DecidableEq, Inhabited

/-- One declared parameter of a callable. -/
structure Param where
  name : String
  type_text : Option String
  has_default : Bool
  variadic : Bool
deriving DecidableEq, Inhabited

/-- Structured signature of a callable symbol. -/
structure Signature where
  params : List Param
  return_type_text : Option String
  type_params : List String
  receiver : Option String
deriving DecidableEq, Inhabited

/-- A set of effect labels, encoded as a 16-bit set. -/
structure EffectSet where
  bits : UInt16
deriving DecidableEq, Inhabited

/-- Per-symbol receiver-narrowing counters. The `_out` fields count call sites in
this symbol's body; the `_away_in` fields count same-name call sites elsewhere
whose narrowed target set excluded this symbol. -/
structure NarrowingCounts where
  typed_out : UInt32
  interproc_out : UInt32
  visible_out : UInt32
  visible_dropped_out : UInt32
  typed_away_in : UInt32
  interproc_away_in : UInt32
  visible_away_in : UInt32
deriving DecidableEq, Inhabited

/-- A symbol node record. -/
structure NodeRecord where
  id : NodeId
  kind : SymbolKind
  fqn : String
  file : String
  line_start : UInt32
  line_end : UInt32
  lang : String
  visibility : Visibility
  is_abstract : Bool
  entrypoint_kind : Option EntrypointKind
  signature : Option Signature
  own_effects : EffectSet
  transitive_effects : EffectSet
  unresolved_calls : UInt32
  external_calls : UInt32
  narrowing : NarrowingCounts
deriving DecidableEq, Inhabited

end cgx.core
