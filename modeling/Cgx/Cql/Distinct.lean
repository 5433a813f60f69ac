import Cgx.Cql.Order
import Cgx.Cql.Project

open cgx.core sorting Std

namespace cgx.cql

/-- A value occurs in rows as a cell, or inside a list that occurs. -/
inductive Occurs (rows : List Row) : Value → Prop
  | cell {row : Row} {v : Value} (hrow : row ∈ rows) (hv : v ∈ row) : Occurs rows v
  | item {xs : List Value} {v : Value} (hxs : Occurs rows (.List xs)) (hv : v ∈ xs) : Occurs rows v

/-- Two rows are equal column by column. -/
def RowsEqual (r r' : Row) : Prop :=
  List.Forall₂ (fun a b => values_equal a b = true) r r'

/-- The order of the values that occur is total, comparing equal is being equal, and the
`DISTINCT` step leaves one of every set of equal rows. -/
structure Deduplicates (rows : List Row) : Prop where
  reflexive : ∀ a, Occurs rows a → compare_values a a = .eq
  oriented : ∀ a b, Occurs rows a → Occurs rows b → compare_values b a = (compare_values a b).swap
  antisymmetric : ∀ a b, Occurs rows a → Occurs rows b → (compare_values a b).isLE → (compare_values b a).isLE →
    values_equal a b = true
  transitive : ∀ a b c, Occurs rows a → Occurs rows b → Occurs rows c → (compare_values a b).isLE →
    (compare_values b c).isLE → (compare_values a c).isLE
  equal_iff : ∀ a b, Occurs rows a → Occurs rows b → (compare_values a b = .eq ↔ values_equal a b = true)
  no_two_equal : (distinct_rows rows).Pairwise fun r r' => ¬ RowsEqual r r'
  covered : ∀ r ∈ rows, ∃ r' ∈ distinct_rows rows, RowsEqual r r'

/-- Integers and floats are told apart: rows that are equal have equal numbers of one type,
lists that are equal but for the type of numbers are the same, and no float is the cast of
two integers. -/
structure NumbersApart (rows : List Row) : Prop where
  columns : ∀ r ∈ rows, ∀ r' ∈ rows, RowsEqual r r' → same_values r r' = true
  lists : ∀ xs ys, Occurs rows (.List xs) → Occurs rows (.List ys) →
    numerically_equal (.List xs) (.List ys) = true → same_value (.List xs) (.List ys) = true
  casts : CastsApart (Occurs rows)

section same

variable {a b c : Value} {xs ys zs : List Value}

theorem float_beq_symm {x y : Float} (h : (x == y) = true) : (y == x) = true := by
  rw [binary64.beq_iff] at h ⊢
  exact ⟨by rw [Bool.or_comm]; exact h.1, OrientedCmp.eq_symm h.2⟩

theorem float_beq_trans {x y z : Float} (hxy : (x == y) = true) (hyz : (y == z) = true) : (x == z) = true := by
  rw [binary64.beq_iff] at hxy hyz ⊢
  obtain ⟨hnan, hxy⟩ := hxy
  obtain ⟨hnan', hyz⟩ := hyz
  rw [Bool.or_eq_false_iff] at hnan hnan'
  exact ⟨by rw [hnan.1, hnan'.2]; rfl, TransCmp.eq_trans hxy hyz⟩

/-- Same values are identical, equal floats, or lists of same values. -/
theorem same_value_cases (h : same_value a b = true) :
    a = b ∨ (∃ x y, a = .Float x ∧ b = .Float y ∧ (x == y) = true) ∨
      ∃ xs ys, a = .List xs ∧ b = .List ys ∧ same_values xs ys = true := by
  cases a <;> cases b <;> try simp [same_value] at h
  case Null.Null => exact .inl rfl
  case Float.Float x y => exact .inr (.inl ⟨x, y, rfl, rfl, h⟩)
  case List.List xs ys => exact .inr (.inr ⟨xs, ys, rfl, rfl, h⟩)
  all_goals exact .inl (congrArg _ h)

theorem same_values_cons {x : Value} :
    same_values (x :: xs) ys = true ↔ ∃ y ys', ys = y :: ys' ∧ same_value x y = true ∧ same_values xs ys' = true := by
  cases ys with
  | nil => simp [same_values]
  | cons y ys => simp [same_values]

theorem same_value_symm (h : same_value a b = true) : same_value b a = true := by
  induction a using value_induction generalizing b with
  | hstep a ih =>
    obtain rfl | ⟨x, y, rfl, rfl, hxy⟩ | ⟨xs, ys, rfl, rfl, hlists⟩ := same_value_cases h
    · exact h
    · exact float_beq_symm hxy
    · have hitems := ih xs rfl
      change same_values ys xs = true
      clear ih h
      induction xs generalizing ys with
      | nil => cases ys <;> first | rfl | cases hlists
      | cons x xs ihlist =>
        obtain ⟨y, ys', rfl, hx, hxs⟩ := same_values_cons.mp hlists
        exact same_values_cons.mpr ⟨x, xs, rfl, hitems x List.mem_cons_self hx,
          ihlist ys' hxs fun x hx => hitems x (List.mem_cons_of_mem _ hx)⟩

theorem same_value_trans (hab : same_value a b = true) (hbc : same_value b c = true) : same_value a c = true := by
  induction a using value_induction generalizing b c with
  | hstep a ih =>
    obtain rfl | ⟨x, y, rfl, rfl, hxy⟩ | ⟨xs, ys, rfl, rfl, hlists⟩ := same_value_cases hab
    · exact hbc
    · obtain rfl | ⟨_, z, heq, rfl, hyz⟩ | ⟨_, _, heq, _⟩ := same_value_cases hbc
      · exact hab
      · cases heq
        exact float_beq_trans hxy hyz
      · cases heq
    · obtain rfl | ⟨_, _, heq, _⟩ | ⟨_, zs, heq, rfl, hlists'⟩ := same_value_cases hbc
      · exact hab
      · cases heq
      · cases heq
        have hitems := ih xs rfl
        change same_values xs zs = true
        clear ih hab hbc
        induction xs generalizing ys zs with
        | nil =>
          cases ys with
          | nil => exact hlists'
          | cons y ys => cases hlists
        | cons x xs ihlist =>
          obtain ⟨y, ys', rfl, hx, hxs⟩ := same_values_cons.mp hlists
          obtain ⟨z, zs', rfl, hy, hys⟩ := same_values_cons.mp hlists'
          exact same_values_cons.mpr ⟨z, zs', rfl, hitems x List.mem_cons_self hx hy,
            ihlist ys' hxs zs' hys fun x hx => hitems x (List.mem_cons_of_mem _ hx)⟩

theorem same_values_symm (h : same_values xs ys = true) : same_values ys xs = true :=
  @same_value_symm (.List xs) (.List ys) h

theorem same_values_trans (hxy : same_values xs ys = true) (hyz : same_values ys zs = true) : same_values xs zs = true :=
  @same_value_trans (.List xs) (.List ys) (.List zs) hxy hyz

theorem values_equal_of_same (h : same_value a b = true) : values_equal a b = true := by
  cases a <;> cases b <;> first | exact h | cases h

theorem values_equal_symm (h : values_equal a b = true) : values_equal b a = true := by
  cases a <;> cases b <;> first | exact h | exact same_value_symm h

theorem total_f64_eq_of_beq {x y : Float} (h : (x == y) = true) : total_f64 x y = .eq := by
  rw [total_f64_eq]
  exact (binary64.beq_iff.mp h).2

theorem compare_eq_of_same (h : same_value a b = true) : compare_values a b = .eq := by
  induction a using value_induction generalizing b with
  | hstep a ih =>
    obtain rfl | ⟨x, y, rfl, rfl, hxy⟩ | ⟨xs, ys, rfl, rfl, hlists⟩ := same_value_cases h
    · exact compare_refl a
    · exact total_f64_eq_of_beq hxy
    · have hitems := ih xs rfl
      change cmp_list xs ys = .eq
      clear ih h
      induction xs generalizing ys with
      | nil => cases ys <;> first | rfl | cases hlists
      | cons x xs ihlist =>
        obtain ⟨y, ys', rfl, hx, hxs⟩ := same_values_cons.mp hlists
        simp only [cmp_list, hitems x List.mem_cons_self hx,
          ihlist ys' hxs fun x hx => hitems x (List.mem_cons_of_mem _ hx)]
        rfl

/-- Equal values compare equal. -/
theorem compare_eq_of_equal (h : values_equal a b = true) : compare_values a b = .eq := by
  obtain hlt | hsame | hgt := Nat.lt_trichotomy (value_class a) (value_class b)
  · cases a <;> cases b <;> first | (simp [value_class, type_rank] at hlt; done) | cases h
  · cases same_kind hsame with
    | int_float x y => exact total_f64_eq_of_beq h
    | float_int x y => exact @OrientedCmp.eq_symm _ total_f64 _ _ _ (total_f64_eq_of_beq h)
    | _ => exact compare_eq_of_same h
  · cases a <;> cases b <;> first | (simp [value_class, type_rank] at hgt; done) | cases h

theorem RowsEqual.symm {r r' : Row} (h : RowsEqual r r') : RowsEqual r' r :=
  (List.Forall₂.flip h).imp fun _ _ => values_equal_symm

theorem rowsEqual_of_same {r r' : Row} (h : same_values r r' = true) : RowsEqual r r' := by
  induction r generalizing r' with
  | nil => cases r' <;> first | exact .nil | cases h
  | cons x r ih =>
    obtain ⟨y, r', rfl, hx, hr⟩ := same_values_cons.mp h
    exact .cons (values_equal_of_same hx) (ih hr)

theorem cmp_list_eq_iff : cmp_list xs ys = .eq ↔ List.Forall₂ (fun a b => compare_values a b = .eq) xs ys := by
  induction xs generalizing ys with
  | nil => cases ys <;> simp [cmp_list]
  | cons x xs ih => cases ys <;> simp [cmp_list, ih]

end same

section dedup

variable {α : Type} {R : α → α → Prop} [DecidableRel R]

/-- What a destutter drops, it drops for an element it keeps. -/
theorem exists_kept (l : List α) (first : α) {a : α} (ha : a ∈ first :: l) :
    ∃ kept ∈ l.destutter' R first, a = kept ∨ ¬ R kept a := by
  induction l generalizing first with
  | nil => exact ⟨first, List.mem_destutter' [] R first, .inl (List.mem_singleton.mp ha)⟩
  | cons next rest ih =>
    rw [List.destutter'_cons]
    by_cases hR : R first next
    · rw [if_pos hR]
      obtain rfl | ha := List.mem_cons.mp ha
      · exact ⟨a, List.mem_cons_self, .inl rfl⟩
      · obtain ⟨kept, hkept, hcase⟩ := ih next ha
        exact ⟨kept, List.mem_cons_of_mem _ hkept, hcase⟩
    · rw [if_neg hR]
      obtain rfl | ha := List.mem_cons.mp ha
      · exact ih a List.mem_cons_self
      · obtain rfl | ha := List.mem_cons.mp ha
        · exact ⟨first, List.mem_destutter' rest R first, .inr hR⟩
        · exact ih first (List.mem_cons_of_mem _ ha)

theorem exists_same_kept {rows : List Row} {r : Row} (hr : r ∈ rows) :
    ∃ kept ∈ distinct_rows rows, r = kept ∨ same_values r kept = true := by
  have hsorted : r ∈ sort_by cmp_list rows := mem_sort_by.mpr hr
  unfold distinct_rows dedup_rows
  cases hlist : sort_by cmp_list rows with
  | nil => simp [hlist] at hsorted
  | cons first rest =>
    rw [hlist] at hsorted
    obtain ⟨kept, hkept, hcase⟩ := exists_kept (R := fun kept next => same_values next kept = false) rest first hsorted
    exact ⟨kept, hkept, hcase.imp_right fun h => by simpa using h⟩

theorem distinct_sublist (rows : List Row) : (distinct_rows rows).Sublist (sort_by cmp_list rows) :=
  List.destutter_sublist _ _

theorem mem_of_mem_distinct {rows : List Row} {r : Row} (hr : r ∈ distinct_rows rows) : r ∈ rows :=
  mem_sort_by.mp ((distinct_sublist rows).subset hr)

/-- Neighbours that are left differ. -/
theorem distinct_isChain (rows : List Row) :
    (distinct_rows rows).IsChain fun kept next => same_values next kept = false :=
  List.isChain_destutter _ _

end dedup

section order

variable {rows : List Row}

theorem occurs_closed (hnumbers : ∀ f, Occurs rows (.Float f) → f.isNaN = false) : Closed (Occurs rows) :=
  ⟨fun _ hxs _ hx => .item hxs hx, hnumbers⟩

/-- With numbers apart, comparing equal is being equal. -/
theorem NumbersApart.equal_iff (h : NumbersApart rows) (hS : Closed (Occurs rows)) {a b : Value}
    (ha : Occurs rows a) (hb : Occurs rows b) : compare_values a b = .eq ↔ values_equal a b = true := by
  refine ⟨fun heq => ?_, compare_eq_of_equal⟩
  have hnum := (compare_eq_iff hS ha hb).mp heq
  cases a <;> cases b <;> first | exact hnum | exact h.lists _ _ ha hb hnum

theorem NumbersApart.rows_eq (h : NumbersApart rows) (hS : Closed (Occurs rows)) {r r' : Row}
    (hr : r ∈ rows) (hr' : r' ∈ rows) (heq : cmp_list r r' = .eq) : RowsEqual r r' := by
  have hcells := cmp_list_eq_iff.mp heq
  have hoccurs : ∀ {xs ys : List Value}, (∀ x ∈ xs, Occurs rows x) → (∀ y ∈ ys, Occurs rows y) →
      List.Forall₂ (fun a b => compare_values a b = .eq) xs ys → RowsEqual xs ys := by
    intro xs ys hxs hys hall
    induction hall with
    | nil => exact .nil
    | cons hxy _ ih =>
      exact .cons ((h.equal_iff hS (hxs _ List.mem_cons_self) (hys _ List.mem_cons_self)).mp hxy)
        (ih (fun x hx => hxs x (List.mem_cons_of_mem _ hx)) fun y hy => hys y (List.mem_cons_of_mem _ hy))
  exact hoccurs (fun x hx => .cell hr hx) (fun y hy => .cell hr' hy) hcells

/-- The order of the rows. -/
theorem NumbersApart.row_cycle (h : NumbersApart rows) (hS : Closed (Occurs rows)) : CirclesTie cmp_list (· ∈ rows) :=
  fun _ _ _ hr hs ht => list_cycle fun _ hx _ hy _ hz =>
    compare_cycle hS.items h.casts _ _ _ (.cell hr hx) (.cell hs hy) (.cell ht hz)

theorem cmp_list_refl (r : Row) : cmp_list r r = .eq :=
  compare_refl (.List r)

/-- Sorted rows whose neighbours differ all differ. -/
theorem NumbersApart.pairwise_differ (h : NumbersApart rows) (hS : Closed (Occurs rows)) {kept : List Row}
    (hkept : ∀ r ∈ kept, r ∈ rows) (hsorted : kept.Pairwise fun r s => (cmp_list r s).isLE)
    (hchain : kept.IsChain fun r s => same_values s r = false) :
    kept.Pairwise fun r s => cmp_list r s ≠ .eq := by
  induction kept with
  | nil => exact .nil
  | cons r rest ih =>
    obtain ⟨hr, hrest⟩ := List.pairwise_cons.mp hsorted
    refine List.pairwise_cons.mpr ⟨fun t ht heq => ?_, ih (fun s hs => hkept s (List.mem_cons_of_mem r hs)) hrest hchain.tail⟩
    cases rest with
    | nil => simp at ht
    | cons s rest =>
      have hrmem := hkept r List.mem_cons_self
      have hsmem := hkept s (List.mem_cons_of_mem r List.mem_cons_self)
      have hst : (cmp_list s t).isLE := by
        obtain rfl | ht := List.mem_cons.mp ht
        · rw [cmp_list_refl]
          rfl
        · exact (List.pairwise_cons.mp hrest).1 t ht
      have htr : (cmp_list t r).isLE := by
        rw [list_swap r t, heq]
        rfl
      -- `s` is between two rows that compare equal, so it is the same as the first
      obtain ⟨hrs, _⟩ := h.row_cycle hS r s t hrmem hsmem (hkept t (List.mem_cons_of_mem r ht)) (hr s List.mem_cons_self) hst htr
      have hsame := h.columns r hrmem s hsmem (h.rows_eq hS hrmem hsmem hrs)
      have hdiffers := (List.isChain_cons_cons.mp hchain).1
      rw [same_values_symm hsame] at hdiffers
      cases hdiffers

theorem deduplicates_of_apart (h : NumbersApart rows) (hS : Closed (Occurs rows)) : Deduplicates rows where
  reflexive a _ := compare_refl a
  oriented a b _ _ := compare_swap a b
  antisymmetric a b ha hb hab hba := by
    refine (h.equal_iff hS ha hb).mp ?_
    rw [compare_swap a b] at hba
    cases hcmp : compare_values a b <;> simp [hcmp] at hab hba ⊢
  transitive a b c ha hb hc := compare_trans hS.items h.casts ha hb hc
  equal_iff a b ha hb := h.equal_iff hS ha hb
  no_two_equal := by
    have hsorted : (distinct_rows rows).Pairwise fun r s => (cmp_list r s).isLE := by
      refine (pairwise_sort_by_of_mem list_swap ?_).sublist (distinct_sublist rows)
      exact fun r hr s hs t ht => (h.row_cycle hS).trans list_swap hr hs ht
    have hdiffer := h.pairwise_differ hS (fun r => mem_of_mem_distinct) hsorted (distinct_isChain rows)
    exact hdiffer.imp fun hne hequal => hne (cmp_list_eq_iff.mpr (hequal.imp fun _ _ => compare_eq_of_equal))
  covered r hr := by
    obtain ⟨kept, hkept, rfl | hsame⟩ := exists_same_kept hr
    · exact ⟨r, hkept, h.rows_eq hS hr hr (cmp_list_refl r)⟩
    · exact ⟨kept, hkept, rowsEqual_of_same hsame⟩

theorem Deduplicates.values_equal_trans (h : Deduplicates rows) {a b c : Value} (ha : Occurs rows a)
    (hb : Occurs rows b) (hc : Occurs rows c) (hab : values_equal a b = true) (hbc : values_equal b c = true) :
    values_equal a c = true := by
  have hab' := (h.equal_iff a b ha hb).mpr hab
  have hbc' := (h.equal_iff b c hb hc).mpr hbc
  refine h.antisymmetric a c ha hc (h.transitive a b c ha hb hc (by rw [hab']; rfl) (by rw [hbc']; rfl)) ?_
  refine h.transitive c b a hc hb ha ?_ ?_
  · rw [compare_swap b c, hbc']
    rfl
  · rw [compare_swap a b, hab']
    rfl

theorem Deduplicates.rows_equal_trans (h : Deduplicates rows) {r s t : List Value} (hr : ∀ x ∈ r, Occurs rows x)
    (hs : ∀ x ∈ s, Occurs rows x) (ht : ∀ x ∈ t, Occurs rows x) (hrs : RowsEqual r s) (hst : RowsEqual s t) :
    RowsEqual r t := by
  induction hrs generalizing t with
  | nil => exact hst
  | cons hxy _ ih =>
    cases hst with
    | cons hyz htail =>
      exact .cons (h.values_equal_trans (hr _ List.mem_cons_self) (hs _ List.mem_cons_self) (ht _ List.mem_cons_self) hxy hyz)
        (ih (fun x hx => hr x (List.mem_cons_of_mem _ hx)) (fun x hx => hs x (List.mem_cons_of_mem _ hx))
          (fun x hx => ht x (List.mem_cons_of_mem _ hx)) htail)

/-- A row is the same as itself when its values are equal to themselves. -/
theorem Deduplicates.same_self (h : Deduplicates rows) {r : List Value} (hr : ∀ x ∈ r, Occurs rows x) :
    same_values r r = true := by
  induction r with
  | nil => rfl
  | cons x r ih =>
    have hx := hr x List.mem_cons_self
    have hself := (h.equal_iff x x hx hx).mp (compare_refl x)
    have hsame : same_value x x = true := by cases x <;> exact hself
    exact same_values_cons.mpr ⟨x, r, rfl, hsame, ih fun y hy => hr y (List.mem_cons_of_mem _ hy)⟩

theorem apart_of_deduplicates (h : Deduplicates rows) (hS : Closed (Occurs rows)) : NumbersApart rows where
  columns r hr r' hr' hequal := by
    have hkept : ∀ s ∈ rows, ∃ kept ∈ distinct_rows rows, same_values s kept = true := by
      intro s hs
      obtain ⟨kept, hkept, rfl | hsame⟩ := exists_same_kept hs
      · exact ⟨s, hkept, h.same_self fun x hx => .cell hs hx⟩
      · exact ⟨kept, hkept, hsame⟩
    obtain ⟨q, hq, hsame⟩ := hkept r hr
    obtain ⟨q', hq', hsame'⟩ := hkept r' hr'
    have hcells : ∀ {s : Row}, s ∈ rows → ∀ x ∈ s, Occurs rows x := fun hs x hx => .cell hs hx
    have hqmem := hcells (mem_of_mem_distinct hq)
    have hqmem' := hcells (mem_of_mem_distinct hq')
    have hkept_equal : RowsEqual q q' := h.rows_equal_trans hqmem (hcells hr) hqmem' (rowsEqual_of_same hsame).symm
      (h.rows_equal_trans (hcells hr) (hcells hr') hqmem' hequal (rowsEqual_of_same hsame'))
    -- no two different rows are left that are equal
    have heq : q = q' := by
      by_contra hne
      have hsymm : Std.Symm fun r s : Row => ¬ RowsEqual r s := ⟨fun _ _ hdiffer hequal => hdiffer hequal.symm⟩
      exact h.no_two_equal.forall hq hq' hne hkept_equal
    rw [← heq] at hsame'
    exact same_values_trans hsame (same_values_symm hsame')
  lists xs ys hxs hys hnum := (h.equal_iff _ _ hxs hys).mp ((compare_eq_iff hS hxs hys).mpr hnum)
  casts x y f hx hy hf hlt hbetween := by
    have hle := h.transitive (.Int y) (.Float f) (.Int x) hy hf hx hbetween.1 hbetween.2
    have hyx : y ≤ x := Std.isLE_compare.mp hle
    omega

end order

/-- Without NaN, `DISTINCT` really deduplicates rows exactly when it need not tell an integer
from a float: the order of values is total and agrees with equality, no two equal rows are
left, and every row is equal to one that is. -/
theorem distinct_deduplicates_iff {rows : List Row} (hnumbers : ∀ f, Occurs rows (.Float f) → f.isNaN = false) :
    Deduplicates rows ↔ NumbersApart rows :=
  ⟨fun h => apart_of_deduplicates h (occurs_closed hnumbers), fun h => deduplicates_of_apart h (occurs_closed hnumbers)⟩

/-- Rows with an integer, a float and a repeated string. -/
def mixed_rows : List Row :=
  [[.Int 1], [.Str "a"], [.Float 2.5], [.Str "a"]]

theorem distinct_deduplicates_iff_mixed : Deduplicates mixed_rows ↔ NumbersApart mixed_rows := by
  refine distinct_deduplicates_iff fun f hf => ?_
  have hoccurs : ∀ v, Occurs mixed_rows v → v = .Int 1 ∨ v = .Str "a" ∨ v = .Float 2.5 := by
    intro v hv
    induction hv with
    | cell hrow hv =>
      simp only [mixed_rows, List.mem_cons, List.not_mem_nil, or_false] at hrow
      obtain rfl | rfl | rfl | rfl := hrow <;> simp [List.mem_singleton.mp hv]
    | item _ _ ih => simp at ih
  obtain h | h | h := hoccurs _ hf
  · cases h
  · cases h
  · cases h
    decide +kernel

/-- `1` and `1.0` are equal, but both are left. -/
theorem one_and_one_point_zero_are_left :
    distinct_rows [[.Int 1], [.Float 1.0]] = [[.Int 1], [.Float 1.0]] ∧
      ¬ Deduplicates [[.Int 1], [.Float 1.0]] := by
  have hleft : distinct_rows [[.Int 1], [.Float 1.0]] = [[.Int 1], [.Float 1.0]] := by
    rfl
  refine ⟨hleft, fun h => ?_⟩
  have hpairwise := h.no_two_equal
  rw [hleft] at hpairwise
  refine (List.pairwise_cons.mp hpairwise).1 _ (List.mem_singleton_self _) (.cons ?_ .nil)
  decide +kernel

end cgx.cql
