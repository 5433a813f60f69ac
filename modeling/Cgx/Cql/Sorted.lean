import Cgx.Cql.Columns
import Cgx.Cql.Distinct

open cgx.core cgx.query results sorting

namespace cgx.cql

/-- The comparison of the values of an `ORDER BY` key. -/
def directed_cmp (key : OrderBy) (x y : Value) : Ordering :=
  if key.descending then (compare_values x y).swap else compare_values x y

section order

variable {key : OrderBy} {keys : List OrderBy}

@[simp] theorem order_cmp_nil (r s : Row) : order_cmp [] ([], r) ([], s) = cmp_list r s := rfl

@[simp] theorem order_cmp_cons (x y : Value) (xs ys r s : Row) :
    order_cmp (key :: keys) (x :: xs, r) (y :: ys, s) = (directed_cmp key x y).then (order_cmp keys (xs, r) (ys, s)) := by
  simp only [order_cmp, directed_cmp, List.zip_cons_cons, List.map_cons, List.foldr_cons, Ordering.then_assoc]

theorem directed_swap (x y : Value) : directed_cmp key y x = (directed_cmp key x y).swap := by
  unfold directed_cmp
  split
  · rw [compare_swap x y]
  · exact compare_swap x y

theorem order_swap (a b : Row × Row) : order_cmp keys b a = (order_cmp keys a b).swap := by
  obtain ⟨xs, r⟩ := a
  obtain ⟨ys, s⟩ := b
  induction keys generalizing xs ys with
  | nil => simp [order_cmp, list_swap r s]
  | cons key keys ih =>
    cases xs with
    | nil => simp [order_cmp, list_swap r s]
    | cons x xs =>
      cases ys with
      | nil => simp [order_cmp, list_swap r s]
      | cons y ys => rw [order_cmp_cons, order_cmp_cons, directed_swap x y, ih, Ordering.swap_then]

theorem directed_cycle {C : Value → Prop} (hC : CirclesTie compare_values C) : CirclesTie (directed_cmp key) C := by
  unfold directed_cmp
  split
  · exact hC.opposite compare_swap
  · exact hC

/-- Rows with their keys are in order where the keys are and the rows are. -/
theorem order_cycle (keys : List OrderBy) {C : OrderBy → Value → Prop} (hC : ∀ key, CirclesTie compare_values (C key))
    {R : Row → Prop} (hR : CirclesTie cmp_list R) : CirclesTie (order_cmp keys) fun e => List.Forall₂ C keys e.1 ∧ R e.2 := by
  rintro ⟨xs, r⟩ ⟨ys, s⟩ ⟨zs, t⟩ ⟨hxs, hr⟩ ⟨hys, hs⟩ ⟨hzs, ht⟩ hab hbc hca
  dsimp only at hxs hys hzs hr hs ht
  induction hxs generalizing ys zs with
  | nil =>
    cases hys
    cases hzs
    exact hR r s t hr hs ht hab hbc hca
  | cons hx _ ih =>
    cases hys with
    | cons hy hys =>
      cases hzs with
      | cons hz hzs =>
        simp only [order_cmp_cons, Ordering.isLE_then_iff_and] at hab hbc hca
        obtain ⟨hxy, hyz, hzx⟩ := directed_cycle (hC _) _ _ _ hx hy hz hab.1 hbc.1 hca.1
        simp only [hxy, hyz, hzx, reduceCtorEq, false_or] at hab hbc hca
        obtain ⟨hab', hbc', hca'⟩ := ih _ _ hys hzs hab.2 hbc.2 hca.2
        simp only [order_cmp_cons, hxy, hyz, hzx, hab', hbc', hca']
        exact ⟨rfl, rfl, rfl⟩

/-- Rows that tie with their keys tie. -/
theorem rows_tie_of_order {a b : Row × Row} (h : order_cmp keys a b = .eq) : cmp_list a.2 b.2 = .eq := by
  unfold order_cmp at h
  exact (Ordering.then_eq_eq.mp h).2

end order

section sort

variable {float_text : Float → String} {ret : ReturnClause} {C : ReturnItem → Value → Prop}

/-- An `ORDER BY` expression names this item. -/
def names_item (float_text : Float → String) (expr : Expr) (item : ReturnItem) : Bool :=
  column_name float_text item = order_expr_name float_text expr ∨
    render_expr float_text item.expr = order_expr_name float_text expr

theorem find_zip {items : List ReturnItem} {row : Row} (p : ReturnItem → Bool) (hrow : List.Forall₂ C items row)
    {entry : ReturnItem × Value} (h : (items.zip row).find? (fun e => p e.1) = some entry) :
    items.find? p = some entry.1 ∧ C entry.1 entry.2 := by
  induction hrow with
  | nil => cases h
  | @cons item v _ _ hv _ ih =>
    rw [List.zip_cons_cons, List.find?_cons] at h
    rw [List.find?_cons]
    cases hp : p item with
    | false =>
      simp only [hp] at h
      exact ih h
    | true =>
      simp only [hp, Option.some.injEq] at h
      subst h
      exact ⟨rfl, hv⟩

/-- An `ORDER BY` key is a value of the column that it names. -/
theorem eval_order_key_column {expr : Expr} {row : Row} {v : Value} (hrow : List.Forall₂ C ret.items row)
    (h : eval_order_key float_text ret expr row = .ok v) :
    ∃ item, ret.items.find? (names_item float_text expr) = some item ∧ C item v := by
  unfold eval_order_key at h
  dsimp only at h
  split at h
  · rename_i entry hfind
    cases h
    obtain ⟨hitem, hv⟩ := find_zip (names_item float_text expr) hrow hfind
    exact ⟨entry.1, hitem, hv⟩
  · cases h

/-- Sorting rows by keys forgets their order, where rows that tie are identical. -/
theorem sort_rows_perm (hC : ∀ item, CirclesTie compare_values (C item)) {rows rows' out : List Row}
    (hcolumns : ∀ r ∈ rows, List.Forall₂ C ret.items r) (htie : ∀ r ∈ rows, ∀ s ∈ rows, cmp_list r s = .eq → r = s)
    (hperm : rows.Perm rows') (h : sort_rows float_text ret rows = .ok out) :
    sort_rows float_text ret rows' = .ok out := by
  obtain ⟨keyed, hkeyed, h⟩ := bind_ok_iff.mp h
  obtain ⟨keyed', hkeyed', hkperm⟩ := mapM_perm hperm hkeyed
  -- each element has its row and the keys of its row
  have helement : ∀ e ∈ keyed, e.2 ∈ rows ∧
      (ret.order_by.mapM fun key => eval_order_key float_text ret key.expr e.2) = .ok e.1 := by
    intro e he
    obtain ⟨row, hrow, hround⟩ := exists_of_mem_mapM hkeyed he
    obtain ⟨ks, hks, hround⟩ := bind_ok_iff.mp hround
    cases hround
    exact ⟨hrow, hks⟩
  have hsorted : sort_by (order_cmp ret.order_by) keyed' = sort_by (order_cmp ret.order_by) keyed := by
    have hrows : CirclesTie cmp_list (List.Forall₂ C ret.items) := row_cycle hC
    have hkeys : ∀ key : OrderBy, CirclesTie compare_values fun v =>
        ∃ item, ret.items.find? (names_item float_text key.expr) = some item ∧ C item v := by
      rintro key a b c ⟨item, hitem, ha⟩ ⟨_, hb', hb⟩ ⟨_, hc', hc⟩
      rw [hitem] at hb' hc'
      cases hb'
      cases hc'
      exact hC item a b c ha hb hc
    refine (order_cycle ret.order_by hkeys hrows).sort_by_perm order_swap (fun e he => ?_) (fun e he e' he' htied => ?_) hkperm
    · obtain ⟨hrow, hks⟩ := helement e he
      exact ⟨(forall₂_of_mapM hks).imp fun _ _ => eval_order_key_column (hcolumns e.2 hrow), hcolumns e.2 hrow⟩
    · obtain ⟨hrow, hks⟩ := helement e he
      obtain ⟨hrow', hks'⟩ := helement e' he'
      have heq := htie e.2 hrow e'.2 hrow' (rows_tie_of_order htied)
      rw [heq, hks'] at hks
      exact Prod.ext (Except.ok.inj hks).symm heq
  rw [sort_rows, hkeyed', except_bind_ok, hsorted]
  exact h

end sort

end cgx.cql
