import Mathlib.Data.Set.Lattice
import Cgx.Lib.Propagate
import Cgx.Resolve.Symtab

open propagate Relation

namespace cgx.receiver

/-! ### Type states -/

/-- A receiver's type state: classes of the repository, each alone or with its subclasses,
classes outside of it by name, or unknown. -/
structure TypeSet where
  types : Finset (UInt32 × Bool)
  ext : Finset (String × Bool)
  top : Bool
deriving DecidableEq

namespace TypeSet

def empty : TypeSet := ⟨∅, ∅, false⟩

def unknown : TypeSet := ⟨∅, ∅, true⟩

/-- Join `o` into `self`, and whether that changed it. -/
def join (self o : TypeSet) : TypeSet × Bool :=
  if self.top then (self, false)
  else if o.top then (unknown, true)
  else
    let types := self.types ∪ o.types
    let ext := self.ext ∪ o.ext
    (⟨types, ext, self.top⟩, decide ((self.types.card, self.ext.card) ≠ (types.card, ext.card)))

end TypeSet

/-! ### The propagation graph -/

/-- A name of a callable. -/
abbrev Key := String × String

/-- One node per key, with its type state, and the copies between nodes. The keys stand in
the order of their node ids. -/
structure Flow where
  ids : List Key
  state : List TypeSet
  copies : List (Nat × Nat)
deriving DecidableEq

namespace Flow

def new : Flow := ⟨[], [], []⟩

/-- The node of a key, which is added if it is new. -/
def node (flow : Flow) (key : Key) : Flow × Nat :=
  if key ∈ flow.ids then (flow, flow.ids.idxOf key)
  else ({ flow with ids := flow.ids ++ [key], state := flow.state ++ [.empty] }, flow.state.length)

def seed (flow : Flow) (node : Nat) (ts : TypeSet) : Flow :=
  { flow with state := flow.state.modify node fun held => (held.join ts).1 }

def copy (flow : Flow) (src dst : Nat) : Flow :=
  if src ≠ dst then { flow with copies := flow.copies ++ [(src, dst)] } else flow

/-- The state of a node. -/
def at_node (state : List TypeSet) (node : Nat) : TypeSet :=
  state.getD node .empty

/-- Join the source of a copy into its target. -/
def propagate_copy (acc : List TypeSet × Bool) (e : Nat × Nat) : List TypeSet × Bool :=
  let joined := (at_node acc.1 e.2).join (at_node acc.1 e.1)
  (acc.1.set e.2 joined.1, acc.2 || joined.2)

/-- Propagate along the copies until nothing changes; `none` when the rounds run out. -/
def solve : Nat → Flow → Option Flow
  | 0, _ => none
  | rounds + 1, flow =>
    let after := flow.copies.foldl propagate_copy (flow.state, false)
    if after.2 then solve rounds { flow with state := after.1 } else some { flow with state := after.1 }

def get (flow : Flow) (key : Key) : Option TypeSet :=
  if key ∈ flow.ids then some (at_node flow.state (flow.ids.idxOf key)) else none

end Flow

/-- What a fact says about a key: that it is there, a seed for it, or that another key is
copied into it. -/
inductive Binding where
  | Node (key : Key)
  | Seed (key : Key) (ts : TypeSet)
  | Copy (src dst : Key)

namespace Flow

def bind (flow : Flow) : Binding → Flow
  | .Node key => (flow.node key).1
  | .Seed key ts =>
    let (flow, n) := flow.node key
    flow.seed n ts
  | .Copy src dst =>
    let (flow, n) := flow.node dst
    let (flow, o) := flow.node src
    flow.copy o n

/-- The graph of a list of bindings. -/
def bound (bindings : List Binding) : Flow :=
  bindings.foldl bind new

end Flow

/-! ### What a type state holds -/

/-- What can be said of a receiver. -/
inductive Atom where
  | Unknown
  | Class (c : UInt32 × Bool)
  | Outside (c : String × Bool)

namespace TypeSet

def Admits (ts : TypeSet) : Atom → Prop
  | .Unknown => ts.top = true
  | .Class c => ts.top = true ∨ c ∈ ts.types
  | .Outside c => ts.top = true ∨ c ∈ ts.ext

/-- What a type state admits; an unknown one admits everything. -/
def admits (ts : TypeSet) : Set Atom :=
  {x | ts.Admits x}

@[simp] theorem mem_admits_unknown {ts : TypeSet} : .Unknown ∈ ts.admits ↔ ts.top = true := Iff.rfl

@[simp] theorem mem_admits_class {ts : TypeSet} {c : UInt32 × Bool} :
    .Class c ∈ ts.admits ↔ ts.top = true ∨ c ∈ ts.types := Iff.rfl

@[simp] theorem mem_admits_outside {ts : TypeSet} {c : String × Bool} :
    .Outside c ∈ ts.admits ↔ ts.top = true ∨ c ∈ ts.ext := Iff.rfl

/-- An unknown state lists no classes. -/
def Plain (ts : TypeSet) : Prop :=
  ts.top = true → ts = unknown

theorem plain_empty : empty.Plain := by
  intro h
  cases h

theorem plain_unknown : unknown.Plain := fun _ => rfl

theorem Plain.join {self : TypeSet} (h : self.Plain) (o : TypeSet) : (self.join o).1.Plain := by
  rw [TypeSet.join]
  split
  · exact h
  · rename_i hself
    split
    · exact plain_unknown
    · exact fun htop => absurd htop hself

theorem admits_empty : empty.admits = ∅ := by
  ext x
  cases x <;> simp [empty]

theorem admits_join (self o : TypeSet) : (self.join o).1.admits = self.admits ∪ o.admits := by
  ext x
  rw [TypeSet.join]
  split
  · rename_i hself
    cases x <;> simp [hself]
  · rename_i hself
    split
    · rename_i ho
      cases x <;> simp [unknown, ho]
    · rename_i ho
      cases x <;> simp [hself, ho]

theorem Plain.ext_admits {a b : TypeSet} (ha : a.Plain) (hb : b.Plain) (h : a.admits = b.admits) : a = b := by
  have hsame : ∀ x, x ∈ a.admits ↔ x ∈ b.admits := Set.ext_iff.mp h
  have htop : a.top = true ↔ b.top = true := hsame .Unknown
  by_cases hunknown : a.top = true
  · rw [ha hunknown, hb (htop.mp hunknown)]
  · have hb' : ¬ b.top = true := fun hb => hunknown (htop.mpr hb)
    have htypes : a.types = b.types := by
      ext c
      simpa [hunknown, hb'] using hsame (.Class c)
    have hext : a.ext = b.ext := by
      ext c
      simpa [hunknown, hb'] using hsame (.Outside c)
    have hflag : a.top = b.top := Bool.eq_iff_iff.mpr htop
    cases a
    cases b
    rw [TypeSet.mk.injEq]
    exact ⟨htypes, hext, hflag⟩

/-- The listed classes of a plain state are those it admits without being unknown. -/
theorem Plain.mem_types_iff {ts : TypeSet} (h : ts.Plain) {c : UInt32 × Bool} :
    c ∈ ts.types ↔ ts.top = false ∧ .Class c ∈ ts.admits := by
  cases htop : ts.top with
  | true => simp [h htop, unknown]
  | false => simp [htop]

theorem Plain.mem_ext_iff {ts : TypeSet} (h : ts.Plain) {c : String × Bool} :
    c ∈ ts.ext ↔ ts.top = false ∧ .Outside c ∈ ts.admits := by
  cases htop : ts.top with
  | true => simp [h htop, unknown]
  | false => simp [htop]

theorem card_union_eq_iff {γ : Type} [DecidableEq γ] (s t : Finset γ) : s.card = (s ∪ t).card ↔ t ⊆ s := by
  constructor
  · intro h
    have heq : s = s ∪ t := Finset.eq_of_subset_of_card_le Finset.subset_union_left h.ge
    exact heq ▸ Finset.subset_union_right
  · intro h
    rw [Finset.union_eq_left.mpr h]

/-- The flag of a join tells whether there was anything to add. -/
theorem join_flag_iff (self o : TypeSet) : (self.join o).2 = false ↔ o.admits ⊆ self.admits := by
  rw [TypeSet.join]
  split
  · rename_i hself
    simp only [true_iff]
    intro x _
    cases x <;> simp [hself]
  · rename_i hself
    split
    · rename_i ho
      simp only [Bool.true_eq_false, false_iff]
      exact fun hsub => hself (hsub (a := .Unknown) ho)
    · rename_i ho
      simp only [decide_eq_false_iff_not, not_not, Prod.mk.injEq, card_union_eq_iff]
      constructor
      · rintro ⟨htypes, hext⟩ x hx
        cases x with
        | Unknown => exact absurd hx ho
        | Class c => exact hx.imp (absurd · ho) (htypes ·)
        | Outside c => exact hx.imp (absurd · ho) (hext ·)
      · intro hsub
        constructor
        · intro c hc
          exact (hsub (a := .Class c) (.inr hc)).resolve_left hself
        · intro c hc
          exact (hsub (a := .Outside c) (.inr hc)).resolve_left hself

end TypeSet

end cgx.receiver
