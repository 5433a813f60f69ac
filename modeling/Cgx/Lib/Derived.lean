import Mathlib.Data.List.Sort

open Std

namespace derived

/-- A value spelled out: numbers, texts and the sequences of parts they make up. -/
inductive Term where
  | num (n : Nat)
  | text (s : String)
  | seq (items : List Term)

mutual

/-- The order of terms: numbers and texts by their own order, sequences
lexicographically. -/
def Term.cmp : Term → Term → Ordering
  | .num m, .num n => compare m n
  | .num _, _ => .lt
  | .text _, .num _ => .gt
  | .text s, .text t => compare s t
  | .text _, .seq _ => .lt
  | .seq _, .num _ => .gt
  | .seq _, .text _ => .gt
  | .seq l, .seq r => Term.cmp_all l r

def Term.cmp_all : List Term → List Term → Ordering
  | [], [] => .eq
  | [], _ :: _ => .lt
  | _ :: _, [] => .gt
  | a :: l, b :: r => (Term.cmp a b).then (Term.cmp_all l r)

end

mutual

theorem Term.eq_of_cmp : ∀ a b : Term, Term.cmp a b = .eq → a = b
  | .num m, b, h => by
    cases b with
    | num n => rw [Std.compare_eq_iff_eq.mp h]
    | text s => cases h
    | seq l => cases h
  | .text s, b, h => by
    cases b with
    | num n => cases h
    | text t => rw [Std.compare_eq_iff_eq.mp h]
    | seq l => cases h
  | .seq l, b, h => by
    cases b with
    | num n => cases h
    | text t => cases h
    | seq r => rw [Term.eq_of_cmp_all l r h]

theorem Term.eq_of_cmp_all : ∀ l r : List Term, Term.cmp_all l r = .eq → l = r
  | [], r, h => by
    cases r with
    | nil => rfl
    | cons b r => cases h
  | a :: l, r, h => by
    cases r with
    | nil => cases h
    | cons b r =>
      rw [Term.cmp_all, Ordering.then_eq_eq] at h
      rw [Term.eq_of_cmp a b h.1, Term.eq_of_cmp_all l r h.2]

end

mutual

theorem Term.cmp_swap : ∀ a b : Term, Term.cmp a b = (Term.cmp b a).swap
  | .num m, b => by
    cases b with
    | num n =>
      show compare m n = (compare n m).swap
      exact OrientedCmp.eq_swap
    | text s => rfl
    | seq l => rfl
  | .text s, b => by
    cases b with
    | num n => rfl
    | text t =>
      show compare s t = (compare t s).swap
      exact OrientedCmp.eq_swap
    | seq l => rfl
  | .seq l, b => by
    cases b with
    | num n => rfl
    | text t => rfl
    | seq r => exact Term.cmp_all_swap l r

theorem Term.cmp_all_swap : ∀ l r : List Term, Term.cmp_all l r = (Term.cmp_all r l).swap
  | [], r => by cases r <;> rfl
  | a :: l, r => by
    cases r with
    | nil => rfl
    | cons b r => rw [Term.cmp_all, Term.cmp_all, Ordering.swap_then, Term.cmp_swap a b, Term.cmp_all_swap l r]

end

theorem Term.cmp_self (a : Term) : Term.cmp a a = .eq := by
  have hswap := Term.cmp_swap a a
  cases h : Term.cmp a a <;> rw [h] at hswap <;> first | rfl | cases hswap

mutual

theorem Term.cmp_trans : ∀ a b c : Term, Term.cmp a b = .lt → Term.cmp b c = .lt → Term.cmp a c = .lt
  | .num m, b, c, hab, hbc => by
    cases c with
    | num p =>
      cases b with
      | num n =>
        show compare m p = .lt
        exact TransCmp.lt_trans hab hbc
      | text s => cases hbc
      | seq l => cases hbc
    | text s => rfl
    | seq l => rfl
  | .text s, b, c, hab, hbc => by
    cases c with
    | num p =>
      cases b with
      | num n => cases hab
      | text t => cases hbc
      | seq l => cases hbc
    | text u =>
      cases b with
      | num n => cases hab
      | text t =>
        show compare s u = .lt
        exact TransCmp.lt_trans hab hbc
      | seq l => cases hbc
    | seq l => rfl
  | .seq l, b, c, hab, hbc => by
    cases b with
    | num n => cases hab
    | text t => cases hab
    | seq r =>
      cases c with
      | num p => cases hbc
      | text u => cases hbc
      | seq q => exact Term.cmp_all_trans l r q hab hbc

theorem Term.cmp_all_trans :
    ∀ l r q : List Term, Term.cmp_all l r = .lt → Term.cmp_all r q = .lt → Term.cmp_all l q = .lt
  | [], r, q, hlr, hrq => by
    cases q with
    | nil => cases r <;> cases hrq
    | cons c q => rfl
  | a :: l, r, q, hlr, hrq => by
    cases r with
    | nil => cases hlr
    | cons b r =>
      cases q with
      | nil => cases hrq
      | cons c q =>
        rw [Term.cmp_all, Ordering.then_eq_lt] at hlr hrq ⊢
        obtain hab | ⟨hab, hlr⟩ := hlr
        · obtain hbc | ⟨hbc, hrq⟩ := hrq
          · exact .inl (Term.cmp_trans a b c hab hbc)
          · exact .inl (Term.eq_of_cmp b c hbc ▸ hab)
        · cases Term.eq_of_cmp a b hab
          obtain hbc | ⟨hbc, hrq⟩ := hrq
          · exact .inl hbc
          · exact .inr ⟨hbc, Term.cmp_all_trans l r q hlr hrq⟩

end

/-- A type whose order is derived: variants in their order, then the fields in theirs. -/
class Spelled (α : Type) where
  term : α → Term
  term_inj : ∀ a b, term a = term b → a = b

export Spelled (term)

section

variable {α : Type} [Spelled α]

@[simp] theorem term_eq_iff {a b : α} : term a = term b ↔ a = b :=
  ⟨Spelled.term_inj a b, congrArg term⟩

/-- The derived order. -/
def cmp (a b : α) : Ordering :=
  Term.cmp (term a) (term b)

instance : LawfulEqCmp (cmp (α := α)) where
  compare_self := Term.cmp_self _
  eq_of_compare h := Spelled.term_inj _ _ (Term.eq_of_cmp _ _ h)

instance : TransCmp (cmp (α := α)) where
  eq_swap := Term.cmp_swap _ _
  isLE_trans := by
    intro a b c hab hbc
    rw [cmp, Ordering.isLE_iff_eq_lt_or_eq_eq] at hab hbc ⊢
    obtain hab | hab := hab
    · obtain hbc | hbc := hbc
      · exact .inl (Term.cmp_trans _ _ _ hab hbc)
      · exact .inl (Term.eq_of_cmp _ _ hbc ▸ hab)
    · rw [Term.eq_of_cmp _ _ hab]
      exact hbc

end

/-- An enumeration is ordered by the positions of its variants. -/
@[reducible] def Spelled.of_index {α : Type} (index : α → Nat) (of : Nat → α) (h : ∀ a, of (index a) = a) :
    Spelled α where
  term a := .num (index a)
  term_inj a b heq := by rw [← h a, ← h b, Term.num.inj heq]

instance : Spelled Nat := ⟨.num, fun _ _ h => Term.num.inj h⟩
instance : Spelled String := ⟨.text, fun _ _ h => Term.text.inj h⟩
instance : Spelled Bool := ⟨fun b => .num b.toNat, fun a b h => by revert h; cases a <;> cases b <;> simp⟩
instance : Spelled UInt8 := ⟨fun n => .num n.toNat, fun _ _ h => UInt8.toNat_inj.mp (Term.num.inj h)⟩
instance : Spelled UInt16 := ⟨fun n => .num n.toNat, fun _ _ h => UInt16.toNat_inj.mp (Term.num.inj h)⟩
instance : Spelled UInt32 := ⟨fun n => .num n.toNat, fun _ _ h => UInt32.toNat_inj.mp (Term.num.inj h)⟩

instance {α : Type} [Spelled α] : Spelled (List α) where
  term l := .seq (l.map term)
  term_inj _ _ h := List.map_injective_iff.mpr (fun _ _ => Spelled.term_inj _ _) (Term.seq.inj h)

instance {α : Type} [Spelled α] : Spelled (Option α) where
  term o := .seq (o.toList.map term)
  term_inj a b h := by cases a <;> cases b <;> simp_all

end derived
