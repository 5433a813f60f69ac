import Mathlib.Algebra.Order.Group.Int

/-! Floats in the order of a key. Infinities and zeros are points, and NaN is last. -/

namespace binary64

open Float.Model

/-- The class of a float, then its exponent and mantissa, negated below zero. -/
def unpacked_key : UnpackedFloat → Int × Int × Int
  | .infinity .negative => (-2, 0, 0)
  | .finite .negative m e _ => (-1, -e, -m)
  | .zero _ => (0, 0, 0)
  | .finite .positive m e _ => (1, e, m)
  | .infinity .positive => (2, 0, 0)
  | .notANumber => (3, 0, 0)

def key (f : Float) : Int × Int × Int :=
  unpacked_key f.toModel.unpack

/-- Keys in lexicographic order. -/
def key_cmp : Int × Int × Int → Int × Int × Int → Ordering :=
  compareLex (compareOn Prod.fst) (compareLex (compareOn fun k => k.2.1) (compareOn fun k => k.2.2))

instance : Std.TransCmp key_cmp :=
  inferInstanceAs (Std.TransCmp (compareLex _ (compareLex _ _)))

theorem compare_neg (a b : Int) : compare (-a) (-b) = (compare a b).swap := by
  obtain h | h | h := lt_trichotomy a b
  · rw [compare_lt_iff_lt.mpr h, compare_gt_iff_gt.mpr (Int.neg_lt_neg h)]
    rfl
  · rw [h, compare_eq_iff_eq.mpr rfl, compare_eq_iff_eq.mpr rfl]
    rfl
  · rw [compare_gt_iff_gt.mpr h, compare_lt_iff_lt.mpr (Int.neg_lt_neg h)]
    rfl

theorem compare_natCast (a b : Nat) : compare (a : Int) (b : Int) = compare a b := by
  obtain h | h | h := lt_trichotomy a b
  · rw [compare_lt_iff_lt.mpr h, compare_lt_iff_lt.mpr (Int.ofNat_lt.mpr h)]
  · rw [h, compare_eq_iff_eq.mpr rfl, compare_eq_iff_eq.mpr rfl]
  · rw [compare_gt_iff_gt.mpr h, compare_gt_iff_gt.mpr (Int.ofNat_lt.mpr h)]

/-- The order of numbers is that of their keys. -/
theorem unpacked_compare (a b : UnpackedFloat) :
    a.compare b = if a.isNaN || b.isNaN then none else some (key_cmp (unpacked_key a) (unpacked_key b)) := by
  cases a with
  | notANumber => cases b <;> rfl
  | infinity s =>
    cases b with
    | infinity s' => cases s <;> cases s' <;> rfl
    | notANumber => cases s <;> rfl
    | zero s' => cases s <;> rfl
    | finite s' m e hm => cases s <;> cases s' <;> rfl
  | zero s =>
    cases b with
    | infinity s' => cases s' <;> rfl
    | notANumber => rfl
    | zero s' => rfl
    | finite s' m e hm => cases s' <;> rfl
  | finite s m e hm =>
    cases b with
    | infinity s' => cases s <;> cases s' <;> rfl
    | notANumber => cases s <;> rfl
    | zero s' => cases s <;> rfl
    | finite s' m' e' hm' =>
      cases s with
      | negative =>
        cases s' with
        | negative =>
          have hkeys : key_cmp (-1, -e, -(m : Int)) (-1, -e', -(m' : Int)) = ((compare e e').then (compare m m')).swap := by
            simp only [key_cmp, compareLex, compareOn, compare_neg, compare_natCast, Ordering.swap_then]
            rfl
          exact congrArg some hkeys.symm
        | positive => rfl
      | positive =>
        cases s' with
        | negative => rfl
        | positive =>
          have hkeys : key_cmp (1, e, (m : Int)) (1, e', (m' : Int)) = (compare e e').then (compare m m') := by
            simp only [key_cmp, compareLex, compareOn, compare_natCast]
            rfl
          exact congrArg some hkeys.symm

section floats

variable {a b : Float}

theorem lt_iff : a < b ↔ (a.isNaN || b.isNaN) = false ∧ key_cmp (key a) (key b) = .lt := by
  have hdef : a < b ↔ (a.toModel.unpack.compare b.toModel.unpack == some .lt) = true := decide_eq_true_iff
  rw [hdef, unpacked_compare]
  change _ ↔ (a.toModel.unpack.isNaN || b.toModel.unpack.isNaN) = false ∧ _
  cases (a.toModel.unpack.isNaN || b.toModel.unpack.isNaN) <;> simp [key]

theorem beq_iff : (a == b) = true ↔ (a.isNaN || b.isNaN) = false ∧ key_cmp (key a) (key b) = .eq := by
  have hdef : (a == b) = true ↔ (a.toModel.unpack.compare b.toModel.unpack == some .eq) = true := Iff.rfl
  rw [hdef, unpacked_compare]
  change _ ↔ (a.toModel.unpack.isNaN || b.toModel.unpack.isNaN) = false ∧ _
  cases (a.toModel.unpack.isNaN || b.toModel.unpack.isNaN) <;> simp [key]

/-- NaN is above every number, and as high as itself. -/
theorem key_of_isNaN (h : a.isNaN = true) : key a = (3, 0, 0) := by
  have hunpack : a.toModel.unpack.isNaN = true := h
  unfold key
  cases hcase : a.toModel.unpack with
  | notANumber => rfl
  | _ => rw [hcase] at hunpack; cases hunpack

theorem class_of_not_isNaN (h : a.isNaN = false) : (key a).1 < 3 := by
  have hunpack : a.toModel.unpack.isNaN = false := h
  unfold key
  cases hcase : a.toModel.unpack with
  | notANumber => rw [hcase] at hunpack; cases hunpack
  | infinity s => cases s <;> decide
  | zero s => exact (by decide : (0 : Int) < 3)
  | finite s m e hm =>
    cases s with
    | negative => exact (by decide : (-1 : Int) < 3)
    | positive => exact (by decide : (1 : Int) < 3)

theorem key_cmp_of_class_lt {x y : Int × Int × Int} (h : x.1 < y.1) : key_cmp x y = .lt := by
  simp [key_cmp, compareLex, compareOn, compare_lt_iff_lt.mpr h]

end floats

end binary64
