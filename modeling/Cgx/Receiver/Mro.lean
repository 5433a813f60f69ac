import Cgx.Lib.Linearize
import Cgx.Receiver.Nearest

open Relation linearize

namespace cgx.receiver

/-- A class at run time. -/
inductive RuntimeClass where
  /-- An in-repo class, by its number in the lattice. -/
  | repo (id : Nat)
  | ext (name : String)
deriving DecidableEq, Repr

/-- A runtime class that a resolved base can be. -/
inductive Base.Stands : Base → RuntimeClass → Prop
  | class {cs : List Nat} {s : Nat} : s ∈ cs → Stands (.Classes cs) (.repo s)
  | external (name : String) : Stands .Open (.ext name)
  | unknown (x : RuntimeClass) : Stands .Unknown x

/-- A class hierarchy that a lattice describes: what the declared bases are at run time, and
which methods the out-of-repo classes own. -/
structure Hierarchy (l : Lattice) where
  parents : RuntimeClass → List RuntimeClass
  owns : RuntimeClass → String → Bool
  /-- An in-repo class has its declared bases, then the language root where that is not
  among them. -/
  declared : ∀ c, ∃ ps roots, List.Forall₂ Base.Stands (l.bases c) ps ∧
    (∀ r ∈ roots, ∃ name, r = .ext name) ∧ parents (.repo c) = ps ++ roots
  /-- What an out-of-repo class inherits lives outside the repo too. -/
  outside : ∀ name, ∀ p ∈ parents (.ext name), ∃ name', p = .ext name'
  own_methods : ∀ c method, owns (.repo c) method = true ↔ method ∈ l.own c

namespace Hierarchy

variable {l : Lattice} (h : Hierarchy l)

/-- `order` is the method resolution order of `x`. -/
def Order (x : RuntimeClass) (order : List RuntimeClass) : Prop :=
  Mro h.parents x order

/-- The first class of `order` that owns `method`. -/
def first_owner (method : String) (order : List RuntimeClass) : Option RuntimeClass :=
  order.find? fun x => h.owns x method

variable {h} {c d s : Nat} {method : String}

omit h in
theorem exists_declared {bs : List Base} {ps : List RuntimeClass} {x : RuntimeClass}
    (hps : List.Forall₂ Base.Stands bs ps) (hx : x ∈ ps) : ∃ b ∈ bs, Base.Stands b x := by
  induction hps with
  | nil => cases hx
  | cons hstands _ ih =>
    cases List.mem_cons.mp hx with
    | inl heq => exact ⟨_, List.mem_cons_self, heq ▸ hstands⟩
    | inr hlater =>
      obtain ⟨b, hb, hb'⟩ := ih hlater
      exact ⟨b, List.mem_cons_of_mem _ hb, hb'⟩

theorem parent_spec (hs : RuntimeClass.repo s ∈ h.parents (.repo c)) :
    l.IsBase s c ∨ .Unknown ∈ l.bases c := by
  obtain ⟨ps, roots, hps, hroots, heq⟩ := h.declared c
  rw [heq] at hs
  cases List.mem_append.mp hs with
  | inl hmem =>
    obtain ⟨b, hb, hstands⟩ := exists_declared hps hmem
    cases hstands with
    | «class» hmem => exact .inl ⟨_, hb, hmem⟩
    | unknown => exact .inr hb
  | inr hmem =>
    obtain ⟨name, hname⟩ := hroots _ hmem
    cases hname

/-- Out of the repo no order comes back into it. -/
theorem not_mem_outside {fuel : Nat} {name : String} {order : List RuntimeClass}
    (horder : mro_within h.parents fuel (.ext name) = some order) : RuntimeClass.repo d ∉ order := by
  induction fuel generalizing name order with
  | zero => cases horder
  | succ fuel ih =>
    intro hd
    obtain ⟨rest, -, p, hp, o, ho, hdo, -⟩ := exists_parent_of_mem horder hd (by simp)
    obtain ⟨name', rfl⟩ := h.outside name p hp
    exact ih ho hdo

/-- A definition that nothing before it in the order owns is clear from the class. -/
theorem clear_of_first (hac : l.Acyclic) {fuel : Nat} {order : List RuntimeClass}
    (horder : mro_within h.parents fuel (.repo c) = some order)
    (hknown : (l.found c method : Lookup).unknown = false) (hd : RuntimeClass.repo d ∈ order)
    (hown : method ∈ l.own d)
    (hfirst : ∀ x, [x, RuntimeClass.repo d].Sublist order → h.owns x method = false) :
    l.Clear method c d := by
  induction fuel generalizing c order with
  | zero => cases horder
  | succ fuel ih =>
    by_cases heq : d = c
    · exact heq ▸ .here hown
    · obtain ⟨rest, rfl, p, hp, o, ho, hdo, hsub⟩ :=
        exists_parent_of_mem horder hd (by simpa using heq)
      have hc : method ∉ l.own c := by
        intro hmine
        have hnot := hfirst (.repo c) (List.Sublist.cons_cons _
          (List.singleton_sublist.mpr (hsub.subset hdo)))
        rw [(h.own_methods c method).mpr hmine] at hnot
        cases hnot
      obtain ⟨hresolved, hbases⟩ := Lattice.found_bases hac hknown hc
      cases p with
      | ext name => exact absurd hdo (not_mem_outside ho)
      | repo s =>
        have hs := (parent_spec hp).resolve_right hresolved
        exact .step hc hs (ih ho (hbases s hs) hdo fun x hx =>
          hfirst x ((hx.trans hsub).cons _))

/-- What a lookup that is not unknown misses is not the first owner in the class's order. -/
theorem first_owner_found (hac : l.Acyclic) {order : List RuntimeClass}
    (horder : h.Order (.repo c) order) (hknown : (l.found c method : Lookup).unknown = false)
    (hd : h.first_owner method order = some (.repo d)) :
    d ∈ (l.found c method : Lookup).targets := by
  obtain ⟨hmem, howns, hbefore⟩ := find_spec horder.nodup hd
  obtain ⟨fuel, horder⟩ := horder
  have hown := (h.own_methods d method).mp howns
  exact (Lattice.found_targets hac hknown).mpr
    (clear_of_first hac horder hknown hmem hown hbefore)

/-- The class that a base naming one class stands for. -/
def stand_in : Base → RuntimeClass
  | .Classes (s :: _) => .repo s
  | _ => .ext "outside"

/-- The hierarchy of a lattice whose every base names one class, or one out of the repo that
owns no method. -/
def named (l : Lattice)
    (hone : ∀ row ∈ l.classes, ∀ b ∈ row.bases, b = .Open ∨ ∃ s, b = .Classes [s]) :
    Hierarchy l where
  parents
    | .repo c => (l.bases c).map stand_in
    | .ext _ => []
  owns
    | .repo c, method => decide (method ∈ l.own c)
    | .ext _, _ => false
  declared c := by
    refine ⟨(l.bases c).map stand_in, [], ?_, by simp, (List.append_nil _).symm⟩
    rw [List.forall₂_map_right_iff, List.forall₂_same]
    intro b hb
    obtain ⟨row, hrow, hb⟩ := Lattice.mem_bases hb
    obtain rfl | ⟨s, rfl⟩ := hone row hrow b hb
    · exact .external _
    · exact .class List.mem_cons_self
  outside := by simp
  own_methods c method := decide_eq_true_iff

end Hierarchy

/-- Whatever was looked up before on an acyclic lattice, a lookup answers as it does first of
all; a lookup on a class that is not unknown has the first owner of the method in the class's
order, where that is in the repo; and a cone lookup that is not unknown has the first owner in
the order of every in-repo subclass. -/
theorem lookup_covers_order (l : Lattice) (hac : l.Acyclic) (h : Hierarchy l)
    (calls : List Lattice.Key) :
    ∃ table, l.after calls = some table ∧
      (∀ key, ∃ r table' first, l.ask key table = some (r, table') ∧
        l.ask key (fun _ => none) = some (r, first)) ∧
      ∀ c < l.size, ∀ method,
        (∃ r table', l.lookup c method table = some (r, table') ∧ (r.unknown = false →
          ∀ order, h.Order (.repo c) order → ∀ d, h.first_owner method order = some (.repo d) →
            d ∈ r.targets)) ∧
        ∃ r table', l.cone_lookup c method table = some (r, table') ∧ (r.unknown = false →
          ∀ s, l.Subclass s c → ∀ order, h.Order (.repo s) order →
            ∀ d, h.first_owner method order = some (.repo d) → d ∈ r.targets) := by
  have hafter := l.ask_after hac calls
  obtain ⟨table, htable, -⟩ := hafter (.ext "")
  have hask : ∀ key, ∃ table', l.ask key table = some (l.spec key, table') := by
    intro key
    obtain ⟨table₁, htable₁, table', hask⟩ := hafter key
    obtain rfl := Option.some.inj (htable.symm.trans htable₁)
    exact ⟨table', hask⟩
  refine ⟨table, htable, fun key => ?_, fun c hc method => ⟨?_, ?_⟩⟩
  · obtain ⟨table', hkey⟩ := hask key
    obtain ⟨start, hstart, first, hfirst⟩ := l.ask_after hac [] key
    cases hstart
    exact ⟨l.spec key, table', first, hkey, hfirst⟩
  · obtain ⟨table', hlookup⟩ := hask (.lookup c method)
    refine ⟨_, table', hlookup, fun hknown order horder d hd => ?_⟩
    exact Hierarchy.first_owner_found hac horder hknown hd
  · obtain ⟨table', hcone⟩ := hask (.cone c method)
    refine ⟨_, table', hcone, fun hknown s hs order horder d hd => ?_⟩
    obtain ⟨hs_known, htargets⟩ := Lattice.cone_targets ((Lattice.mem_cone hc).mpr hs) hknown
    exact htargets d (Hierarchy.first_owner_found hac horder hs_known hd)

/-- A diamond whose left side also has a base outside the repo; the top and the right side
define `m`. -/
def diamond : Lattice where
  classes := [{ own := ["m"] }, { bases := [.Classes [0], .Open] },
    { own := ["m"], bases := [.Classes [0]] }, { bases := [.Classes [1], .Classes [2]] }]
  bases_lt := by simp

def diamond_hierarchy : Hierarchy diamond :=
  .named diamond (by simp [diamond])

theorem lookup_covers_order_diamond :
    ∃ table, diamond.after [.super 1 "m", .cone 0 "m"] = some table ∧
      ∃ r table', diamond.lookup 3 "m" table = some (r, table') ∧ r.unknown = false ∧
        2 ∈ r.targets := by
  obtain ⟨table, htable, hsame, hcovers⟩ := lookup_covers_order diamond
    (Lattice.acyclic_of_lt (by decide)) diamond_hierarchy [.super 1 "m", .cone 0 "m"]
  obtain ⟨⟨r, table', hlookup, hfirst⟩, -⟩ := hcovers 3 (by decide) "m"
  obtain ⟨r', _, first, hagain, halone⟩ := hsame (.lookup 3 "m")
  have hknown : r.unknown = false := by
    rw [Lattice.ask, hlookup] at hagain
    cases hagain
    have hanswer : (diamond.ask (.lookup 3 "m") fun _ => none).map (·.1.unknown) = some false := by
      decide
    rw [halone] at hanswer
    exact Option.some.inj hanswer
  refine ⟨table, htable, r, table', hlookup, hknown, ?_⟩
  exact hfirst hknown [.repo 3, .repo 1, .repo 2, .repo 0, .ext "outside"] ⟨4, by decide⟩ 2 (by decide)

end cgx.receiver

namespace cgx.receiver

namespace Lattice

variable (l : Lattice) (given : Nat → String → Id Lookup) (c : Nat) (method : String)

/-- `d` is clear from a base, outside the cone of `c`, of a class in that cone. -/
def Beside (d : Nat) : Prop :=
  ∃ s ∈ l.cone c, ∃ b, l.IsBase b s ∧ b ∉ l.cone c ∧ l.Clear method b d

theorem adds_super_class (out : Lookup) (s : Nat) :
    Adds out (l.super_class given c method out s : Id Lookup)
      (fun d => ∃ b, l.IsBase b s ∧ ((some (l.cone c)).all fun x => decide (b ∉ x)) = true ∧
        d ∈ (given b method : Lookup).targets)
      (.Unknown ∈ l.bases s ∨ ∃ b, l.IsBase b s ∧
        ((some (l.cone c)).all fun x => decide (b ∉ x)) = true ∧
        (given b method : Lookup).unknown = true) :=
  have hbases := adds_bases (some (l.cone c))
    { out with is_open := out.is_open || l.inherits_root s method } s
  ⟨hbases.targets, hbases.unknown⟩

variable {l c method} {d : Nat}

/-- With every base resolved, the targets of a `super()` lookup that is not unknown. -/
theorem super_targets (hac : l.Acyclic) (hresolved : ∀ c, .Unknown ∉ l.bases c)
    (h : (l.spec (.super c method)).unknown = false) :
    d ∈ (l.spec (.super c method)).targets ↔ l.Beside c method d := by
  have hfold := Adds.foldlM (l.cone c) (fun acc s _ => l.adds_super_class l.found c method acc s) {}
  have hall := hfold.trans
    (Adds.extend _ (l.floating_part l.found method (some (l.cone c)) : Id Lookup))
  have hfloating : (l.floating_part l.found method (some (l.cone c)) : Id Lookup) = ({} : Lookup) := by
    rw [floating_part, floating_eq_nil hresolved]
    rfl
  have hknown := (hall.unknown_false h).2
  have hbase : ∀ s ∈ l.cone c, ∀ b, l.IsBase b s → b ∉ l.cone c →
      (l.found b method : Lookup).unknown = false := by
    intro s hs b hb hout
    exact Bool.eq_false_iff.mpr fun hk =>
      hknown (.inl ⟨s, hs, .inr ⟨b, hb, by simpa using hout, hk⟩⟩)
  refine (hall.targets d).trans ⟨?_, ?_⟩
  · rintro (hnone | ⟨s, hs, b, hb, hout, hd⟩ | hnone)
    · cases hnone
    · have hout : b ∉ l.cone c := by simpa using hout
      exact ⟨s, hs, b, hb, hout, (found_targets hac (hbase s hs b hb hout)).mp hd⟩
    · rw [hfloating] at hnone
      cases hnone
  · rintro ⟨s, hs, b, hb, hout, hclear⟩
    exact .inr (.inl ⟨s, hs, b, hb, by simpa using hout,
      (found_targets hac (hbase s hs b hb hout)).mpr hclear⟩)

end Lattice

namespace Hierarchy

variable {l : Lattice} (h : Hierarchy l)

/-- The first class after `c` in `order` that owns `method`. -/
def first_owner_after (c : Nat) (method : String) (order : List RuntimeClass) :
    Option RuntimeClass :=
  h.first_owner method (order.dropWhile fun x => decide (x ≠ .repo c)).tail

/-- `d` is what `super()` in `c` finds on an instance of some class in the cone of `c`. -/
def Follows (c : Nat) (method : String) (d : Nat) : Prop :=
  ∃ s ∈ l.cone c, ∃ order, h.Order (.repo s) order ∧
    h.first_owner_after c method order = some (.repo d)

end Hierarchy

/-- On an acyclic lattice with every base resolved, a `super()` lookup that is not unknown has
the first owner after the class in the order of every class of its cone exactly when each such
owner is clear from a base that leaves the cone. -/
theorem super_covers_iff (l : Lattice) (hac : l.Acyclic) (hresolved : ∀ c, .Unknown ∉ l.bases c)
    (h : Hierarchy l) (calls : List Lattice.Key) (c : Nat) (method : String) :
    ∃ table r table', l.after calls = some table ∧
      l.super_lookup c method table = some (r, table') ∧ (r.unknown = false →
        ((∀ d, h.Follows c method d → d ∈ r.targets) ↔
          ∀ d, h.Follows c method d → l.Beside c method d)) := by
  obtain ⟨table, htable, table', hask⟩ := l.ask_after hac calls (.super c method)
  refine ⟨table, _, table', htable, hask, fun hknown => ?_⟩
  exact forall₂_congr fun d _ => Lattice.super_targets hac hresolved hknown

/-- `C`, `E`, `D` with `m`, `A(E, D)` with `m`, `Y(C, E)` and `X(A, Y)`, in this order. -/
def siblings : Lattice where
  classes := [{}, {}, { own := ["m"] }, { own := ["m"], bases := [.Classes [1], .Classes [2]] },
    { bases := [.Classes [0], .Classes [1]] }, { bases := [.Classes [3], .Classes [4]] }]
  bases_lt := by simp

def siblings_hierarchy : Hierarchy siblings :=
  .named siblings (by simp [siblings])

theorem siblings_follows : siblings_hierarchy.Follows 0 "m" 2 :=
  ⟨5, by decide, [.repo 5, .repo 3, .repo 4, .repo 0, .repo 1, .repo 2], ⟨4, by decide⟩, by decide⟩

theorem siblings_answer :
    ∃ r table, siblings.super_lookup 0 "m" (fun _ => none) = some (r, table) ∧
      r.unknown = false ∧ 2 ∉ r.targets := by
  have hanswer : ((siblings.super_lookup 0 "m" fun _ => none).map fun a =>
      (a.1.unknown, decide (2 ∈ a.1.targets))) = some (false, false) := by
    decide
  obtain ⟨⟨r, table⟩, hr, hanswer⟩ := Option.map_eq_some_iff.mp hanswer
  simp only [Prod.mk.injEq, decide_eq_false_iff_not] at hanswer
  exact ⟨r, table, hr, hanswer⟩

/-- `A.m` stands before `C` in the order of `X` and `D.m` after it, but the branch of `A` ends
at `A.m`. -/
theorem super_misses_sibling :
    siblings.Acyclic ∧ (∀ c < siblings.size, ∃ order, siblings_hierarchy.Order (.repo c) order) ∧
      (∀ row ∈ siblings.classes, ∀ b ∈ row.bases, ∃ s, b = .Classes [s]) ∧
      siblings.floating = [] ∧ siblings_hierarchy.Follows 0 "m" 2 ∧
      ∃ r table, siblings.super_lookup 0 "m" (fun _ => none) = some (r, table) ∧
        r.unknown = false ∧ 2 ∉ r.targets := by
  refine ⟨Lattice.acyclic_of_lt (by decide), ?_, by simp [siblings], by decide, siblings_follows, ?_⟩
  · have horders : ∀ c < 6, (mro_within siblings_hierarchy.parents 4 (.repo c)).isSome = true := by
      decide
    intro c hc
    obtain ⟨order, horder⟩ := Option.isSome_iff_exists.mp (horders c hc)
    exact ⟨order, 4, horder⟩
  · exact siblings_answer

theorem super_covers_iff_siblings :
    ∃ r table, siblings.super_lookup 0 "m" (fun _ => none) = some (r, table) ∧
      r.unknown = false ∧ ¬ ∀ d, siblings_hierarchy.Follows 0 "m" d → siblings.Beside 0 "m" d := by
  have hresolved : ∀ c, .Unknown ∉ siblings.bases c := by
    intro c hc
    obtain ⟨row, hrow, hb⟩ := Lattice.mem_bases hc
    revert row
    simp [siblings]
  obtain ⟨table, r, table', htable, hlookup, hiff⟩ := super_covers_iff siblings
    (Lattice.acyclic_of_lt (by decide)) hresolved siblings_hierarchy [] 0 "m"
  cases htable
  obtain ⟨r', table₁, hanswer, hknown, hmissed⟩ := siblings_answer
  rw [hlookup] at hanswer
  cases hanswer
  exact ⟨r, table', hlookup, hknown, fun hbeside =>
    hmissed ((hiff hknown).mpr hbeside 2 siblings_follows)⟩

end cgx.receiver
