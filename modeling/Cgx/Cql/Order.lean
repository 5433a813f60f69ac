import Cgx.Cql.Ast
import Cgx.Lib.Binary64
import Cgx.Lib.SortBy

open cgx.core binary64 sorting Std

namespace cgx.cql

/-- The class of a value: integers and floats are one, every other type is its own. -/
def value_class : Value → Nat
  | .Float _ => 2
  | v => type_rank v

/-- Two values of one class. -/
inductive SameKind : Value → Value → Prop
  | null : SameKind .Null .Null
  | bool (x y : Bool) : SameKind (.Bool x) (.Bool y)
  | int_int (x y : Int) : SameKind (.Int x) (.Int y)
  | int_float (x : Int) (y : Float) : SameKind (.Int x) (.Float y)
  | float_int (x : Float) (y : Int) : SameKind (.Float x) (.Int y)
  | float_float (x y : Float) : SameKind (.Float x) (.Float y)
  | str (x y : String) : SameKind (.Str x) (.Str y)
  | list (xs ys : List Value) : SameKind (.List xs) (.List ys)
  | node (x y : NodeId) : SameKind (.Node x) (.Node y)
  | edge (x y : EdgeId) : SameKind (.Edge x) (.Edge y)
  | path (x y : PathValue) : SameKind (.Path x) (.Path y)

/-- Induction on a value, with the hypothesis for the items of a list. -/
theorem value_induction {P : Value → Prop}
    (hstep : ∀ a, (∀ items, a = .List items → ∀ x ∈ items, P x) → P a) (a : Value) : P a := by
  have hsize : ∀ n a, sizeOf a ≤ n → P a := by
    intro n
    induction n with
    | zero =>
      intro a ha
      cases a <;> simp at ha
    | succ n ih =>
      refine fun a ha => hstep a fun items heq x hx => ih x ?_
      have hitem := List.sizeOf_lt_of_mem hx
      rw [heq] at ha
      simp only [Value.List.sizeOf_spec] at ha
      omega
  exact hsize (sizeOf a) a le_rfl

theorem swap_of {α : Type} (cmp : α → α → Ordering) [OrientedCmp cmp] (x y : α) : cmp y x = (cmp x y).swap :=
  OrientedCmp.eq_swap

section kinds

variable {a b c : Value}

theorem same_kind (h : value_class a = value_class b) : SameKind a b := by
  cases a <;> cases b <;> first | constructor | simp [value_class, type_rank] at h

theorem compare_of_class_lt (h : value_class a < value_class b) : compare_values a b = .lt := by
  cases a <;> cases b <;> first | rfl | simp [value_class, type_rank] at h

theorem compare_of_class_gt (h : value_class b < value_class a) : compare_values a b = .gt := by
  cases a <;> cases b <;> first | rfl | simp [value_class, type_rank] at h

theorem class_le_of_isLE (h : (compare_values a b).isLE) : value_class a ≤ value_class b := by
  by_contra hlt
  rw [compare_of_class_gt (Nat.lt_of_not_le hlt)] at h
  cases h

/-- The order of floats is that of their keys. -/
theorem total_f64_eq (a b : Float) : total_f64 a b = key_cmp (key a) (key b) := by
  have hself : ∀ k, key_cmp k k = .eq := fun k => ReflCmp.compare_self
  have hswap : key_cmp (key b) (key a) = (key_cmp (key a) (key b)).swap := OrientedCmp.eq_swap
  unfold total_f64
  simp only [lt_iff, beq_iff, Bool.or_eq_false_iff]
  cases ha : a.isNaN with
  | false =>
    cases hb : b.isNaN with
    | false => cases hcmp : key_cmp (key a) (key b) <;> simp [hswap, hcmp]
    | true =>
      have hlt : (key a).1 < (key b).1 := by
        rw [key_of_isNaN hb]
        exact class_of_not_isNaN ha
      simp [key_cmp_of_class_lt hlt]
  | true =>
    cases hb : b.isNaN with
    | false =>
      have hlt : (key b).1 < (key a).1 := by
        rw [key_of_isNaN ha]
        exact class_of_not_isNaN hb
      have hgt : key_cmp (key a) (key b) = .gt := OrientedCmp.gt_of_lt (key_cmp_of_class_lt hlt)
      simp [hgt]
    | true => simp [key_of_isNaN ha, key_of_isNaN hb, hself]

theorem beq_iff_total_f64 {a b : Float} (hb : b.isNaN = false) : (a == b) = true ↔ total_f64 a b = .eq := by
  rw [beq_iff, total_f64_eq]
  refine ⟨And.right, fun heq => ⟨?_, heq⟩⟩
  cases ha : a.isNaN with
  | false => simpa only [Bool.false_or] using hb
  | true =>
    have hlt : (key b).1 < (key a).1 := by
      rw [key_of_isNaN ha]
      exact class_of_not_isNaN hb
    have hgt : key_cmp (key a) (key b) = .gt := OrientedCmp.gt_of_lt (key_cmp_of_class_lt hlt)
    rw [hgt] at heq
    cases heq

instance : TransCmp total_f64 := by
  have heq : total_f64 = fun a b => key_cmp (key a) (key b) := by
    funext a b
    exact total_f64_eq a b
  rw [heq]
  exact trans_on key_cmp key

instance : TransCmp cmp_path :=
  inferInstanceAs (TransCmp (compareLex (compareOn fun p : PathValue => p.nodes.map fun n => n.index)
    (compareOn fun p : PathValue => p.edges.map fun e => e.index)))

theorem cmp_path_eq_iff {x y : PathValue} : cmp_path x y = .eq ↔ x = y := by
  have hnodes : Function.Injective fun n : NodeId => n.index := fun _ _ h => NodeId.ext_index h
  have hedges : Function.Injective fun e : EdgeId => e.index := fun _ _ h => EdgeId.ext_index h
  simp only [cmp_path, Ordering.then_eq_eq, Std.compare_eq_iff_eq, hnodes.list_map.eq_iff, hedges.list_map.eq_iff]
  cases x
  cases y
  simp

/-- Lists compare oppositely when their elements do. -/
theorem cmp_list_swap {xs : List Value} (h : ∀ x ∈ xs, ∀ y, compare_values y x = (compare_values x y).swap)
    (ys : List Value) : cmp_list ys xs = (cmp_list xs ys).swap := by
  induction xs generalizing ys with
  | nil => cases ys <;> rfl
  | cons x xs ih =>
    cases ys with
    | nil => rfl
    | cons y ys =>
      simp only [cmp_list, h x List.mem_cons_self, ih (fun x hx => h x (List.mem_cons_of_mem _ hx)), Ordering.swap_then]

theorem compare_swap (a b : Value) : compare_values b a = (compare_values a b).swap := by
  induction a using value_induction generalizing b with
  | hstep a ih =>
    obtain hlt | hsame | hgt := Nat.lt_trichotomy (value_class a) (value_class b)
    · rw [compare_of_class_lt hlt, compare_of_class_gt hlt]
      rfl
    · cases same_kind hsame with
      | null => rfl
      | bool x y => exact swap_of compare x y
      | int_int x y => exact swap_of compare x y
      | int_float x y => exact swap_of total_f64 (Float.ofInt x) y
      | float_int x y => exact swap_of total_f64 x (Float.ofInt y)
      | float_float x y => exact swap_of total_f64 x y
      | str x y => exact swap_of compare x y
      | list xs ys => exact cmp_list_swap (fun x hx y => ih xs rfl x hx y) ys
      | node x y => exact swap_of compare x.raw y.raw
      | edge x y => exact swap_of compare x.raw y.raw
      | path x y => exact swap_of cmp_path x y
    · rw [compare_of_class_gt hgt, compare_of_class_lt hgt]
      rfl

theorem compare_refl (a : Value) : compare_values a a = .eq := by
  have hswap := compare_swap a a
  cases hcmp : compare_values a a <;> rw [hcmp] at hswap <;> first | rfl | cases hswap

theorem list_swap (xs ys : List Value) : cmp_list ys xs = (cmp_list xs ys).swap :=
  cmp_list_swap (fun x _ y => compare_swap x y) ys

end kinds

mutual

/-- Equal but for the type of numbers, at any depth. -/
def numerically_equal : Value → Value → Bool
  | .Int x, .Float y => Float.ofInt x == y
  | .Float y, .Int x => Float.ofInt x == y
  | .List xs, .List ys => all_numerically_equal xs ys
  | a, b => same_value a b

def all_numerically_equal : List Value → List Value → Bool
  | [], [] => true
  | x :: xs, y :: ys => numerically_equal x y && all_numerically_equal xs ys
  | _, _ => false

end

/-- Values of a set that holds the items of its lists and no NaN. -/
structure Closed (S : Value → Prop) : Prop where
  items : ∀ xs, S (.List xs) → ∀ x ∈ xs, S x
  numbers : ∀ f, S (.Float f) → f.isNaN = false

section closed

variable {S : Value → Prop} {a b c : Value}

/-- Values compare equal when they are numerically equal. -/
theorem compare_eq_iff (hS : Closed S) (ha : S a) (hb : S b) :
    compare_values a b = .eq ↔ numerically_equal a b = true := by
  induction a using value_induction generalizing b with
  | hstep a ih =>
    obtain hlt | hsame | hgt := Nat.lt_trichotomy (value_class a) (value_class b)
    · have hne : numerically_equal a b = false := by
        cases a <;> cases b <;> first | rfl | simp [value_class, type_rank] at hlt
      simp [compare_of_class_lt hlt, hne]
    · cases same_kind hsame with
      | null => exact ⟨fun _ => rfl, fun _ => rfl⟩
      | bool x y => simp [compare_values, numerically_equal, same_value]
      | int_int x y => simp [compare_values, numerically_equal, same_value]
      | int_float x y => exact (beq_iff_total_f64 (hS.numbers y hb)).symm
      | float_int x y =>
        have hswap : total_f64 x (Float.ofInt y) = .eq ↔ total_f64 (Float.ofInt y) x = .eq :=
          ⟨OrientedCmp.eq_symm, OrientedCmp.eq_symm⟩
        exact hswap.trans (beq_iff_total_f64 (hS.numbers x ha)).symm
      | float_float x y => exact (beq_iff_total_f64 (hS.numbers y hb)).symm
      | str x y => simp [compare_values, numerically_equal, same_value]
      | list xs ys =>
        have hitems : ∀ x ∈ xs, ∀ y ∈ ys, (compare_values x y = .eq ↔ numerically_equal x y = true) :=
          fun x hx y hy => ih xs rfl x hx (hS.items xs ha x hx) (hS.items ys hb y hy)
        clear ih ha hb hsame
        change cmp_list xs ys = .eq ↔ all_numerically_equal xs ys = true
        induction xs generalizing ys with
        | nil => cases ys <;> simp [cmp_list, all_numerically_equal]
        | cons x xs ihlist =>
          cases ys with
          | nil => simp [cmp_list, all_numerically_equal]
          | cons y ys =>
            have htail := ihlist ys fun x hx y hy => hitems x (List.mem_cons_of_mem _ hx) y (List.mem_cons_of_mem _ hy)
            simp only [cmp_list, all_numerically_equal, Ordering.then_eq_eq, Bool.and_eq_true, htail,
              hitems x List.mem_cons_self y List.mem_cons_self]
      | node x y =>
        cases x
        cases y
        simp [compare_values, numerically_equal, same_value]
      | edge x y =>
        cases x
        cases y
        simp [compare_values, numerically_equal, same_value]
      | path x y => simp [compare_values, numerically_equal, same_value, cmp_path_eq_iff]
    · have hne : numerically_equal a b = false := by
        cases a <;> cases b <;> first | rfl | simp [value_class, type_rank] at hgt
      simp [compare_of_class_gt hgt, hne]

/-- No float lies, in the order of floats, between the casts of two integers the wrong way
round. Casts keep the order of integers, so this is a float that both of them round to. -/
def CastsApart (S : Value → Prop) : Prop :=
  ∀ x y f, S (.Int x) → S (.Int y) → S (.Float f) → x < y →
    ¬ ((total_f64 (Float.ofInt y) f).isLE ∧ (total_f64 f (Float.ofInt x)).isLE)

theorem int_cycle (hcasts : CastsApart S) {x y : Int} {f : Float} (hx : S (.Int x)) (hy : S (.Int y))
    (hf : S (.Float f)) (hxy : (compare x y).isLE) (hyf : (total_f64 (Float.ofInt y) f).isLE)
    (hfx : (total_f64 f (Float.ofInt x)).isLE) :
    compare x y = .eq ∧ total_f64 (Float.ofInt y) f = .eq ∧ total_f64 f (Float.ofInt x) = .eq := by
  have heq : x = y := by
    have hle : x ≤ y := Std.isLE_compare.mp hxy
    by_contra hne
    exact hcasts x y f hx hy hf (by omega) ⟨hyf, hfx⟩
  subst heq
  exact ⟨ReflCmp.compare_self, OrientedCmp.isLE_antisymm hyf hfx, OrientedCmp.isLE_antisymm hfx hyf⟩

/-- Lists around a circle have heads and tails around a circle. -/
theorem list_cycle {xs ys zs : List Value}
    (hitems : ∀ x ∈ xs, ∀ y ∈ ys, ∀ z ∈ zs, (compare_values x y).isLE → (compare_values y z).isLE →
      (compare_values z x).isLE → compare_values x y = .eq ∧ compare_values y z = .eq ∧ compare_values z x = .eq)
    (hxy : (cmp_list xs ys).isLE) (hyz : (cmp_list ys zs).isLE) (hzx : (cmp_list zs xs).isLE) :
    cmp_list xs ys = .eq ∧ cmp_list ys zs = .eq ∧ cmp_list zs xs = .eq := by
  induction xs generalizing ys zs with
  | nil =>
    cases zs with
    | nil =>
      cases ys with
      | nil => exact ⟨rfl, rfl, rfl⟩
      | cons y ys => cases hyz
    | cons z zs => cases hzx
  | cons x xs ih =>
    cases ys with
    | nil => cases hxy
    | cons y ys =>
      cases zs with
      | nil => cases hyz
      | cons z zs =>
        simp only [cmp_list, Ordering.isLE_then_iff_and] at hxy hyz hzx
        obtain ⟨hx, hy, hz⟩ := hitems x List.mem_cons_self y List.mem_cons_self z List.mem_cons_self hxy.1 hyz.1 hzx.1
        simp only [hx, hy, hz, reduceCtorEq, false_or] at hxy hyz hzx
        obtain ⟨hxs, hys, hzs⟩ := ih (fun x hx y hy z hz => hitems x (List.mem_cons_of_mem _ hx) y
          (List.mem_cons_of_mem _ hy) z (List.mem_cons_of_mem _ hz)) hxy.2 hyz.2 hzx.2
        simp only [cmp_list, hx, hy, hz, hxs, hys, hzs]
        exact ⟨rfl, rfl, rfl⟩

theorem cycle_of {α : Type} (cmp : α → α → Ordering) [TransCmp cmp] {x y z : α} (hxy : (cmp x y).isLE)
    (hyz : (cmp y z).isLE) (hzx : (cmp z x).isLE) : cmp x y = .eq ∧ cmp y z = .eq ∧ cmp z x = .eq :=
  ⟨eq_of_isLE_cycle hxy hyz hzx, eq_of_isLE_cycle hyz hzx hxy, eq_of_isLE_cycle hzx hxy hyz⟩

/-- Values around a circle compare equal. -/
theorem compare_cycle (hitems : ∀ xs, S (.List xs) → ∀ x ∈ xs, S x) (hcasts : CastsApart S) :
    CirclesTie compare_values S := by
  intro a b c ha hb hc hab hbc hca
  induction a using value_induction generalizing b c with
  | hstep a ih =>
    have hclass_ab := class_le_of_isLE hab
    have hclass_bc := class_le_of_isLE hbc
    have hclass_ca := class_le_of_isLE hca
    have hkind_ab : SameKind a b := same_kind (by omega)
    have hkind_bc : SameKind b c := same_kind (by omega)
    clear hclass_ab hclass_bc hclass_ca
    cases hkind_ab with
    | null =>
      cases hkind_bc
      exact ⟨rfl, rfl, rfl⟩
    | bool x y =>
      cases hkind_bc
      exact cycle_of compare hab hbc hca
    | int_int x y =>
      cases hkind_bc with
      | int_int _ z => exact cycle_of compare hab hbc hca
      | int_float _ f => exact int_cycle hcasts ha hb hc hab hbc hca
    | int_float x f =>
      cases hkind_bc with
      | float_int _ y =>
        obtain ⟨hyx, hxf, hfy⟩ := int_cycle hcasts hc ha hb hca hab hbc
        exact ⟨hxf, hfy, hyx⟩
      | float_float _ g => exact cycle_of total_f64 hab hbc hca
    | float_int f x =>
      cases hkind_bc with
      | int_int _ y =>
        obtain ⟨hxy, hyf, hfx⟩ := int_cycle hcasts hb hc ha hbc hca hab
        exact ⟨hfx, hxy, hyf⟩
      | int_float _ g => exact cycle_of total_f64 hab hbc hca
    | float_float f g =>
      cases hkind_bc with
      | float_int _ y => exact cycle_of total_f64 hab hbc hca
      | float_float _ h => exact cycle_of total_f64 hab hbc hca
    | str x y =>
      cases hkind_bc
      exact cycle_of compare hab hbc hca
    | list xs ys =>
      cases hkind_bc with
      | list _ zs =>
        exact list_cycle (fun x hx y hy z hz => ih xs rfl x hx y z (hitems xs ha x hx) (hitems ys hb y hy)
          (hitems zs hc z hz)) hab hbc hca
    | node x y =>
      cases hkind_bc with
      | node _ z => exact @cycle_of UInt32 compare _ x.raw y.raw z.raw hab hbc hca
    | edge x y =>
      cases hkind_bc with
      | edge _ z => exact @cycle_of UInt32 compare _ x.raw y.raw z.raw hab hbc hca
    | path x y =>
      cases hkind_bc
      exact cycle_of cmp_path hab hbc hca

/-- The order of the values is transitive. -/
theorem compare_trans (hitems : ∀ xs, S (.List xs) → ∀ x ∈ xs, S x) (hcasts : CastsApart S) (ha : S a) (hb : S b) (hc : S c)
    (hab : (compare_values a b).isLE) (hbc : (compare_values b c).isLE) : (compare_values a c).isLE := by
  exact (compare_cycle hitems hcasts).trans compare_swap ha hb hc hab hbc

end closed

end cgx.cql
