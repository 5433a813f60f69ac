import Cgx.Lib.Cache
import Cgx.Receiver.Lattice

open memo

namespace cgx.receiver

/-- A lookup result: classes whose own definition of the method is a target. -/
structure Lookup where
  targets : Finset Nat := ∅
  is_open : Bool := false
  unknown : Bool := false
deriving DecidableEq

namespace Lookup

def merge (out r : Lookup) : Lookup where
  targets := out.targets ∪ r.targets
  is_open := out.is_open || r.is_open
  unknown := out.unknown || r.unknown

/-- Take the targets and `unknown` of `r`, but not its `open`. -/
def extend (out r : Lookup) : Lookup :=
  { out with targets := out.targets ∪ r.targets, unknown := out.unknown || r.unknown }

/-- `r` found on one class of a cone: `open` counts where it has no in-repo target. -/
def extend_cone (out r : Lookup) : Lookup where
  targets := out.targets ∪ r.targets
  is_open := out.is_open || (decide (r.targets = ∅) && r.is_open)
  unknown := out.unknown || r.unknown

/-- An intercepted access may find anything. -/
def intercept (out : Lookup) (hit : Bool) : Lookup :=
  if hit then { out with unknown := true } else out

end Lookup

def GETATTR : String := "__getattr__"

def GETATTRIBUTE : String := "__getattribute__"

namespace Lattice

variable (l : Lattice)

/-! ### The bodies of the lookups, over a way to look a method up on one class -/

section bodies

variable {m : Type → Type} [Monad m] (look : Nat → String → m Lookup)

/-- Fold one base into `out`, skipping classes in `exclude`. -/
def visit (method : String) (exclude : Option (List Nat)) (out : Lookup) : Base → m Lookup
  | .Open => pure { out with is_open := true }
  | .Unknown => pure { out with unknown := true }
  | .Classes cs =>
    (cs.filter fun s => exclude.all fun x => decide (s ∉ x)).foldlM (fun out s => do
      let r ← look s method
      pure (out.merge r)) out

/-- The class's own attribute or method, else what its bases give. -/
def nearest (c : Nat) (method : String) : m Lookup :=
  if method ∈ l.attrs c then pure { unknown := true }
  else if method ∈ l.own c then pure { targets := {c} }
  else (l.bases c).foldlM (visit look method none) { is_open := l.inherits_root c method }

/-- `__getattribute__` intercepts every access; `__getattr__` only a miss. -/
def intercepted (c : Nat) (method : String) (out : Lookup) : m Bool :=
  if method = GETATTR ∨ method = GETATTRIBUTE then pure false
  else do
    let r ← look c GETATTRIBUTE
    if r.targets ≠ ∅ then pure true
    else do
      let r ← look c GETATTR
      pure (decide (out.targets = ∅) && (decide (r.targets ≠ ∅) || r.unknown))

/-- A name stored through a base of unknown type may be an instance attribute of the class: a
miss is not proof of an out-of-repo method. -/
def note_foreign (method : String) (out : Lookup) : Lookup :=
  if out.targets = ∅ ∧ method ∈ l.foreign_attrs then { out with unknown := true } else out

def lookup_body (c : Nat) (method : String) : m Lookup := do
  let out ← l.nearest look c method
  let hit ← intercepted look c method out
  pure (l.note_foreign method (out.intercept hit))

/-- The classes the declared bases of `c` resolved to. -/
def base_classes (c : Nat) : List Nat :=
  (l.bases c).flatMap fun
    | .Classes cs => cs
    | _ => []

/-- One resolved base of a floating class. -/
def floating_base (method : String) (exclude : Option (List Nat)) (out : Lookup) (s : Nat) :
    m Lookup :=
  if s ∉ l.floating then do
    let r ← look s method
    pure (out.extend r)
  -- a floating sibling base can follow the class in the MRO
  else if exclude.isSome then
    if method ∈ l.attrs s then pure { out with unknown := true }
    else if method ∈ l.own s then pure { out with targets := insert s out.targets }
    else pure out
  else pure out

def floating_class (method : String) (exclude : Option (List Nat)) (out : Lookup) (f : Nat) :
    m Lookup :=
  if exclude.isNone ∧ method ∈ l.attrs f then pure { out with unknown := true }
  else if exclude.isNone ∧ method ∈ l.own f then pure { out with targets := insert f out.targets }
  else
    ((l.base_classes f).filter fun s => exclude.all fun x => decide (s ∉ x)).foldlM
      (l.floating_base look method exclude) out

/-- The floating closure's contribution to a lookup of `method`. `exclude` (a `super()` cone)
drops the classes themselves as targets and as bases to follow. -/
def floating_part (method : String) (exclude : Option (List Nat)) : m Lookup :=
  (l.floating.filter fun f => exclude.all fun x => decide (f ∉ x)).foldlM
    (l.floating_class look method exclude) {}

def cone_body (c : Nat) (method : String) : m Lookup := do
  let out ← (l.cone c).foldlM (fun out s => do
    let r ← look s method
    pure (out.extend_cone r)) ({} : Lookup)
  let floating ← l.floating_part look method none
  pure (out.extend floating)

/-- The bases of one class of a `super()` cone. -/
def super_class (c : Nat) (method : String) (out : Lookup) (s : Nat) : m Lookup :=
  (l.bases s).foldlM (visit look method (some (l.cone c)))
    { out with is_open := out.is_open || l.inherits_root s method }

def super_body (c : Nat) (method : String) : m Lookup := do
  let out ← (l.cone c).foldlM (l.super_class look c method) {}
  let floating ← l.floating_part look method (some (l.cone c))
  pure (out.extend floating)

def ext_body (cone_look : Nat → String → m Lookup) (method : String) : m Lookup := do
  let out ← l.ext_any.foldlM (fun out c => do
    let r ← cone_look c method
    pure (out.extend r)) ({ is_open := true } : Lookup)
  let floating ← l.floating_part look method none
  pure (out.extend floating)

end bodies

/-! ### The memoized lookups -/

/-- The entries of the memo tables: one table for each kind of lookup. -/
inductive Key where
  | lookup (c : Nat) (method : String)
  | cone (c : Nat) (method : String)
  | super (c : Nat) (method : String)
  | ext (method : String)
deriving DecidableEq, Repr

/-- A cycle reaching an entry again learns nothing it can trust. -/
def seed : Lookup :=
  { unknown := true }

def lookup_id : Nat → Nat → String → Memoized Key Lookup Lookup
  | 0, _, _ => fun _ => none
  | fuel + 1, c, method =>
    memoize (.lookup c method) (some seed) (l.lookup_body (lookup_id fuel) c method)

/-- Every nested lookup seeds an entry of its own, for the method, `__getattribute__` or
`__getattr__`. -/
def lookup (c : Nat) (method : String) : Memoized Key Lookup Lookup :=
  l.lookup_id (3 * (l.size + 1)) c method

/-- `⋃ lookup(S, m), S ∈ cone(C)`, plus the floating closure. -/
def cone_lookup (c : Nat) (method : String) : Memoized Key Lookup Lookup :=
  memoize (.cone c method) none (l.cone_body l.lookup c method)

/-- `super().m()` in the class: its own bases plus every base of a proper subclass that lies
outside its cone, plus the floating closure. -/
def super_lookup (c : Nat) (method : String) : Memoized Key Lookup Lookup :=
  memoize (.super c method) none (l.super_body l.lookup c method)

def ext_cone_lookup (method : String) : Memoized Key Lookup Lookup :=
  memoize (.ext method) none (l.ext_body l.lookup l.cone_lookup method)

def ask : Key → Memoized Key Lookup Lookup
  | .lookup c method => l.lookup c method
  | .cone c method => l.cone_lookup c method
  | .super c method => l.super_lookup c method
  | .ext method => l.ext_cone_lookup method

end Lattice

end cgx.receiver
