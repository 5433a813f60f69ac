import Mathlib.Data.Finset.Basic
import Cgx.Lib.Closure

open Relation

namespace cgx.receiver

/-- One declared base, resolved. -/
inductive Base where
  | Classes (cs : List Nat)
  /-- A named out-of-repo class, or a class produced by an out-of-repo call: its methods live
  outside the repo. -/
  | Open
  /-- Nothing can be said about its methods or its ancestry. -/
  | Unknown
deriving DecidableEq, Repr

/-- What the lattice's tables hold for one class. -/
structure Class where
  /-- Methods the class defines. -/
  own : List String := []
  /-- Non-method attributes the class or its instances hold. -/
  attrs : List String := []
  bases : List Base := []
  /-- Some definition of the class declares no base: it inherits the language root's
  methods. -/
  rootless : Bool := false
  /-- Of the class's language rules, the methods of the language root. -/
  implicit_root_methods : List String := []
deriving Repr

/-- The in-repo classes, numbered in the order they were interned, with their linked bases. -/
structure Lattice where
  classes : List Class
  /-- Attribute names stored through a base of unknown type. -/
  foreign_attrs : List String := []
  bases_lt : ∀ row ∈ classes, ∀ cs, .Classes cs ∈ row.bases → ∀ s ∈ cs, s < classes.length

namespace Lattice

variable (l : Lattice)

def size : Nat :=
  l.classes.length

/-- The row of a class. A class the lattice does not hold has an empty one. -/
def row (c : Nat) : Class :=
  l.classes.getD c {}

def own (c : Nat) : List String :=
  (l.row c).own

def attrs (c : Nat) : List String :=
  (l.row c).attrs

def bases (c : Nat) : List Base :=
  (l.row c).bases

/-- Whether a class without an in-repo `method` inherits it from the language root. -/
def inherits_root (c : Nat) (method : String) : Bool :=
  (l.row c).rootless && decide (method ∈ (l.row c).implicit_root_methods)

/-- `s` is one of the classes a declared base of `c` resolved to. -/
def IsBase (s c : Nat) : Prop :=
  ∃ cs, .Classes cs ∈ l.bases c ∧ s ∈ cs

/-- `c` is an in-repo subclass of `s`, or `s` itself, through declared bases. -/
def Subclass (c s : Nat) : Prop :=
  ReflTransGen (fun a b => l.IsBase b a) c s

/-- No class is its own ancestor. -/
def Acyclic : Prop :=
  ∀ c, ¬ TransGen l.IsBase c c

def declares (c s : Nat) : Bool :=
  (l.bases c).any fun
    | .Classes cs => decide (s ∈ cs)
    | _ => false

/-- The classes that declare `s` as a base. -/
def subclasses (s : Nat) : List Nat :=
  (List.range l.size).filter fun c => l.declares c s

/-- `class` and every in-repo subclass, transitively, in ascending order. -/
def cone (c : Nat) : List Nat :=
  (List.range l.size).filter fun x =>
    decide (x ∈ closure.closure_of l.subclasses (List.range l.size) [c])

/-- The floating closure: classes with an unresolvable base, and their in-repo subclasses. -/
def floating : List Nat :=
  (List.range l.size).filter fun x =>
    (List.range l.size).any fun f => decide (.Unknown ∈ l.bases f) && decide (x ∈ l.cone f)

/-- In-repo classes with an out-of-repo base. -/
def ext_any : List Nat :=
  (List.range l.size).filter fun c => decide (.Open ∈ l.bases c)

variable {l} {c s : Nat}

theorem bases_eq_nil (h : ¬ c < l.size) : l.bases c = [] := by
  rw [bases, row, List.getD_eq_getElem?_getD, List.getElem?_eq_none (by rw [size] at h; omega)]
  rfl

theorem IsBase.lt_right (h : l.IsBase s c) : c < l.size := by
  obtain ⟨cs, hcs, -⟩ := h
  by_contra hlt
  rw [bases_eq_nil hlt] at hcs
  cases hcs

theorem IsBase.lt_left (h : l.IsBase s c) : s < l.size := by
  have hc := h.lt_right
  obtain ⟨cs, hcs, hs⟩ := h
  rw [bases, row, List.getD_eq_getElem?_getD, List.getElem?_eq_getElem hc] at hcs
  exact l.bases_lt _ (List.getElem_mem hc) cs hcs s hs

theorem declares_iff : l.declares c s = true ↔ l.IsBase s c := by
  rw [declares, List.any_eq_true]
  constructor
  · rintro ⟨b, hb, hs⟩
    cases b with
    | Classes cs => exact ⟨cs, hb, of_decide_eq_true hs⟩
    | Open => cases hs
    | Unknown => cases hs
  · rintro ⟨cs, hcs, hs⟩
    exact ⟨.Classes cs, hcs, decide_eq_true hs⟩

theorem mem_subclasses : c ∈ l.subclasses s ↔ l.IsBase s c := by
  rw [subclasses, List.mem_filter, List.mem_range, declares_iff]
  exact ⟨fun h => h.2, fun h => ⟨h.lt_right, h⟩⟩

theorem subclass_iff : l.Subclass s c ↔ ReflTransGen (closure.Next l.subclasses) c s := by
  rw [Subclass, ← reflTransGen_swap]
  have hstep : Function.swap (fun a b => l.IsBase b a) = closure.Next l.subclasses := by
    funext a b
    exact propext mem_subclasses.symm
  rw [hstep]

theorem Subclass.lt (h : l.Subclass s c) (hc : c < l.size) : s < l.size := by
  cases h.cases_head with
  | inl heq => exact heq ▸ hc
  | inr hstep =>
    obtain ⟨b, hb, -⟩ := hstep
    exact hb.lt_right

theorem mem_cone (hc : c < l.size) : s ∈ l.cone c ↔ l.Subclass s c := by
  have hreach : s ∈ closure.closure_of l.subclasses (List.range l.size) [c] ↔ l.Subclass s c := by
    rw [closure.mem_closure_of (by simpa using hc) fun x _ y hy =>
      List.mem_range.mpr (mem_subclasses.mp hy).lt_right, subclass_iff]
    simp
  rw [cone, List.mem_filter, List.mem_range, decide_eq_true_iff, hreach]
  exact ⟨fun h => h.2, fun h => ⟨h.lt hc, h⟩⟩

theorem mem_bases {b : Base} (h : b ∈ l.bases c) : ∃ row ∈ l.classes, b ∈ row.bases := by
  by_cases hc : c < l.size
  · refine ⟨_, List.getElem_mem hc, ?_⟩
    rwa [bases, row, List.getD_eq_getElem?_getD, List.getElem?_eq_getElem hc] at h
  · rw [bases_eq_nil hc] at h
    cases h

/-- A lattice that interns every class after its bases. -/
theorem acyclic_of_lt (h : ∀ c < l.size, ∀ s < l.size, l.declares c s = true → s < c) :
    l.Acyclic := by
  intro c hc
  have hlt : ∀ {a b : Nat}, TransGen l.IsBase a b → a < b := by
    intro a b hab
    induction hab with
    | single hbase => exact h _ hbase.lt_right _ hbase.lt_left (declares_iff.mpr hbase)
    | tail _ hbase ih =>
      exact ih.trans (h _ hbase.lt_right _ hbase.lt_left (declares_iff.mpr hbase))
  exact Nat.lt_irrefl c (hlt hc)

theorem floating_eq_nil (h : ∀ c, .Unknown ∉ l.bases c) : l.floating = [] := by
  rw [floating, List.filter_eq_nil_iff]
  intro x _
  simp [h]

end Lattice

end cgx.receiver
