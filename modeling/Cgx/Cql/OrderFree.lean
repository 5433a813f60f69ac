import Cgx.Cql.Aggregates
import Cgx.Cql.Joins
import Cgx.Cql.Sorted

open cgx.core cgx.query results sorting

namespace cgx.cql

section ties

variable (engine : SelectorEngine) (view : GraphView) (ret : ReturnClause)

/-- The bindings with their keys. -/
def keyed_bindings (bindings : List Binding) : Except CqlError (List (Row × Binding)) :=
  bindings.mapM fun b => do
    return (← eval_row engine view (ret.items.filter fun item => !is_aggregate_expr item.expr) b, b)

/-- The row of a group. -/
def group_row (group : List Binding) : Except CqlError Row :=
  ret.items.mapM (eval_grouped_item engine view group)

/-- Groups in which nothing ties: keys that are the same are identical, aggregates do not
choose between bindings that tie, and rows that compare equal are identical. -/
structure GroupsApart (keyed : List (Row × Binding)) : Prop where
  self : ∀ e ∈ keyed, same_values e.1 e.1 = true
  keys : ∀ e ∈ keyed, ∀ e' ∈ keyed, same_values e.1 e'.1 = true → e.1 = e'.1
  aggregates : ∀ e ∈ keyed, ∀ item ∈ ret.items, ∀ name args, item.expr = .FunctionCall name args →
    AggregateAgrees engine view name args (members keyed e.1)
  rows : ∀ e ∈ keyed, ∀ e' ∈ keyed, ∀ r r', group_row engine view ret (members keyed e.1) = .ok r →
    group_row engine view ret (members keyed e'.1) = .ok r' → cmp_list r r' = .eq → r = r'

/-- Nothing that a clause gives on the bindings ties, and no float lies between the casts of
two integers the wrong way round. -/
structure NothingTies (bindings : List Binding) : Prop where
  groups : ∀ keyed, keyed_bindings engine view ret bindings = .ok keyed → GroupsApart engine view ret keyed
  casts : CastsApart (Produced engine view ret bindings)

end ties

section perm

variable {engine : SelectorEngine} {view : GraphView} {ret : ReturnClause} {bindings bindings' group group' : List Binding}
  {keyed keyed' : List (Row × Binding)} {e : Row × Binding}

theorem keyed_element (hkeyed : keyed_bindings engine view ret bindings = .ok keyed) (he : e ∈ keyed) :
    e.2 ∈ bindings ∧ eval_row engine view (ret.items.filter fun item => !is_aggregate_expr item.expr) e.2 = .ok e.1 := by
  obtain ⟨b, hb, hround⟩ := exists_of_mem_mapM hkeyed he
  obtain ⟨key, hkey, hround⟩ := bind_ok_iff.mp hround
  cases hround
  exact ⟨hb, hkey⟩

theorem GroupsApart.identical (h : GroupsApart engine view ret keyed) : KeysIdentical keyed := by
  intro e he e' he'
  refine ⟨h.keys e he e' he', fun heq => ?_⟩
  rw [← heq]
  exact h.self e he

theorem KeysIdentical.perm (h : KeysIdentical keyed) (hperm : keyed.Perm keyed') : KeysIdentical keyed' :=
  fun e he e' he' => h e (hperm.mem_iff.mpr he) e' (hperm.mem_iff.mpr he')

/-- A group with a key has a first binding, and its key is that of the group. -/
theorem members_head (h : KeysIdentical keyed) (he : e ∈ keyed) :
    ∃ first ∈ keyed, first.1 = e.1 ∧ (members keyed e.1).headD .empty = first.2 := by
  have hmem : e.2 ∈ members keyed e.1 := mem_members.mpr ⟨e, he, (h e he e he).mpr rfl, rfl⟩
  cases hgroup : members keyed e.1 with
  | nil => simp [hgroup] at hmem
  | cons b rest =>
    have hb : b ∈ members keyed e.1 := by
      rw [hgroup]
      exact List.mem_cons_self
    obtain ⟨first, hfirst, hsame, rfl⟩ := mem_members.mp hb
    exact ⟨first, hfirst, ((h e he first hfirst).mp hsame).symm, rfl⟩

/-- The row of a group does not depend on the order of the stream. -/
theorem group_row_perm (hkeyed : keyed_bindings engine view ret bindings = .ok keyed) (hkeys : KeysIdentical keyed)
    (haggregates : ∀ item ∈ ret.items, ∀ name args, item.expr = .FunctionCall name args →
      AggregateAgrees engine view name args (members keyed e.1))
    (hperm : keyed.Perm keyed') (he : e ∈ keyed) {r : Row}
    (hr : group_row engine view ret (members keyed e.1) = .ok r) :
    group_row engine view ret (members keyed' e.1) = .ok r := by
  obtain ⟨first, hfirst, hkey, hhead⟩ := members_head hkeys he
  obtain ⟨first', hfirst', hkey', hhead'⟩ := members_head (hkeys.perm hperm) (hperm.mem_iff.mp he)
  -- an item that is no aggregate is part of the key, which the first bindings share
  have hkeyitem : ∀ item ∈ ret.items, is_aggregate_expr item.expr = false →
      eval_expr engine view item.expr ((members keyed e.1).headD .empty) =
        eval_expr engine view item.expr ((members keyed' e.1).headD .empty) := by
    intro item hitem hplain
    have hrow := (keyed_element hkeyed hfirst).2
    have hrow' := (keyed_element hkeyed (hperm.mem_iff.mpr hfirst')).2
    rw [hkey] at hrow
    rw [hkey'] at hrow'
    rw [hhead, hhead']
    exact eq_on_of_mapM hrow hrow' item (List.mem_filter.mpr ⟨hitem, by simp [hplain]⟩)
  refine mapM_mono (fun item hitem v hv => ?_) hr
  unfold eval_grouped_item at hv ⊢
  split at hv
  · rename_i name args hcall
    split at hv
    · rename_i hname
      rw [if_pos hname]
      exact eval_aggregate_perm (haggregates item hitem name args hcall) (members_perm hperm e.1) hv
    · rename_i hname
      rw [if_neg hname, ← hkeyitem item hitem (by simpa [is_aggregate_expr, hcall] using hname)]
      exact hv
  · rename_i hcall
    rw [← hkeyitem item hitem ?_]
    · exact hv
    · unfold is_aggregate_expr
      split
      · rename_i name args heq
        exact absurd heq (hcall name args)
      · rfl

theorem GroupsApart.perm (h : GroupsApart engine view ret keyed) (hkeyed' : keyed_bindings engine view ret bindings' = .ok keyed')
    (hperm : keyed.Perm keyed') : GroupsApart engine view ret keyed' := by
  have hmem : ∀ {e}, e ∈ keyed' → e ∈ keyed := fun he => hperm.mem_iff.mpr he
  have haggregates : ∀ e ∈ keyed', ∀ item ∈ ret.items, ∀ name args, item.expr = .FunctionCall name args →
      AggregateAgrees engine view name args (members keyed' e.1) :=
    fun e he item hitem name args hcall => (h.aggregates e (hmem he) item hitem name args hcall).perm (members_perm hperm e.1)
  have hrow : ∀ e ∈ keyed', ∀ r, group_row engine view ret (members keyed' e.1) = .ok r →
      group_row engine view ret (members keyed e.1) = .ok r :=
    fun e he r hr => group_row_perm hkeyed' (h.identical.perm hperm) (haggregates e he) hperm.symm he hr
  exact
    { self := fun e he => h.self e (hmem he)
      keys := fun e he e' he' => h.keys e (hmem he) e' (hmem he')
      aggregates := haggregates
      rows := fun e he e' he' r r' hr hr' => h.rows e (hmem he) e' (hmem he') r r' (hrow e he r hr) (hrow e' he' r' hr') }

theorem Produced.perm {v : Value} (h : Produced engine view ret bindings v) (hperm : bindings.Perm bindings') :
    Produced engine view ret bindings' v := by
  induction h with
  | expr hitem hb hv => exact .expr hitem (hperm.mem_iff.mp hb) hv
  | arg hitem hcall hb hv => exact .arg hitem hcall (hperm.mem_iff.mp hb) hv
  | item _ hv ih => exact .item ih hv

theorem NothingTies.perm (h : NothingTies engine view ret bindings) (hperm : bindings.Perm bindings') :
    NothingTies engine view ret bindings' where
  groups keyed' hkeyed' := by
    obtain ⟨keyed, hkeyed, hkperm⟩ := mapM_perm hperm.symm hkeyed'
    exact (h.groups keyed hkeyed).perm hkeyed' hkperm.symm
  casts x y f hx hy hf := h.casts x y f (hx.perm hperm.symm) (hy.perm hperm.symm) (hf.perm hperm.symm)

/-- The row of a group has a value of each column. -/
theorem group_row_columns (hgroup : ∀ b ∈ group, b ∈ bindings) (hne : group ≠ []) {r : Row}
    (hr : group_row engine view ret group = .ok r) :
    List.Forall₂ (ColumnValue (ProducedOrNull engine view ret bindings)) ret.items r := by
  have hhead : group.headD .empty ∈ bindings := by
    cases group with
    | nil => exact absurd rfl hne
    | cons b rest => exact hgroup b List.mem_cons_self
  have hcolumn : ∀ item ∈ ret.items, ∀ v, eval_grouped_item engine view group item = .ok v →
      ColumnValue (ProducedOrNull engine view ret bindings) item v := by
    intro item hitem v hv
    unfold eval_grouped_item at hv
    split at hv
    · rename_i name args hcall
      split at hv
      · exact eval_aggregate_column hitem hcall hgroup hv
      · rename_i hname
        have hnone : column_aggregate item = none := by
          rw [column_aggregate, hcall]
          simpa using hname
        exact .value v (by simp [hnone]) (by simp [hnone]) (.inr (.expr hitem hhead hv))
    · rename_i hcall
      have hnone : column_aggregate item = none := by
        unfold column_aggregate
        split
        · rename_i name args heq
          exact absurd heq (hcall name args)
        · rfl
      exact .value v (by simp [hnone]) (by simp [hnone]) (.inr (.expr hitem hhead hv))
  have hall := forall₂_of_mapM hr
  rw [List.forall₂_iff_zip] at hall ⊢
  exact ⟨hall.1, fun {item v} hmem => hcolumn item (List.of_mem_zip hmem).1 v (hall.2 hmem)⟩

/-- The groups of a stream are those of its keys. -/
theorem group_bindings_eq (hkeyed : keyed_bindings engine view ret bindings = .ok keyed) (hne : keyed ≠ []) :
    group_bindings engine view ret bindings = .ok (keyed.foldl add_to_group []) := by
  have hgroups : (keyed.foldl add_to_group []).isEmpty = false := by
    have hlength := groups_length keyed
    cases hcase : keyed.foldl add_to_group [] with
    | nil =>
      rw [hcase] at hlength
      exact absurd (List.length_eq_zero_iff.mp hlength.symm) hne
    | cons g rest => rfl
  have hkeyed' : (bindings.mapM fun b => do
      return (← eval_row engine view (ret.items.filter fun item => !is_aggregate_expr item.expr) b, b)) = .ok keyed := hkeyed
  rw [group_bindings, hkeyed', except_bind_ok]
  dsimp only
  rw [hgroups, Bool.and_false, if_neg Bool.false_ne_true]
  rfl

/-- The rows of the groups of a rearranged stream are the rearranged rows. -/
theorem group_rows_perm (h : GroupsApart engine view ret keyed) (hkeyed : keyed_bindings engine view ret bindings = .ok keyed)
    (hperm : keyed.Perm keyed') {rows : List Row}
    (hrows : ((keyed.foldl add_to_group []).mapM fun group => group_row engine view ret group.2) = .ok rows) :
    ∃ rows', ((keyed'.foldl add_to_group []).mapM fun group => group_row engine view ret group.2) = .ok rows' ∧
      rows.Perm rows' := by
  obtain ⟨keys, hnodup, hmem, hgroups⟩ := groups_eq h.identical
  obtain ⟨keys', hnodup', hmem', hgroups'⟩ := groups_eq (h.identical.perm hperm)
  rw [hgroups, List.mapM_map] at hrows
  rw [hgroups', List.mapM_map]
  have hkeys : keys.Perm keys' := by
    refine (List.perm_ext_iff_of_nodup hnodup hnodup').mpr fun k => ?_
    rw [hmem, hmem']
    simp only [hperm.mem_iff]
  have hrows' : (keys.mapM fun k => group_row engine view ret (members keyed' k)) = .ok rows := by
    refine mapM_mono (fun k hk r hr => ?_) hrows
    obtain ⟨e, he, rfl⟩ := (hmem k).mp hk
    exact group_row_perm hkeyed h.identical (h.aggregates e he) hperm he hr
  exact mapM_perm hkeys hrows'

/-- Each row is that of the members of a key. -/
theorem exists_key_of_row (h : GroupsApart engine view ret keyed) {rows : List Row}
    (hrows : ((keyed.foldl add_to_group []).mapM fun group => group_row engine view ret group.2) = .ok rows)
    {r : Row} (hr : r ∈ rows) : ∃ e ∈ keyed, group_row engine view ret (members keyed e.1) = .ok r := by
  obtain ⟨keys, _, hmem, hgroups⟩ := groups_eq h.identical
  rw [hgroups, List.mapM_map] at hrows
  obtain ⟨k, hk, hround⟩ := exists_of_mem_mapM hrows hr
  obtain ⟨e, he, rfl⟩ := (hmem k).mp hk
  exact ⟨e, he, hround⟩

theorem project_grouped_perm {float_text : Float → String} {columns : List String} {truncation : Option TruncationReason}
    (h : NothingTies engine view ret bindings) (hperm : bindings.Perm bindings') {table : ResultTable}
    (htable : project_grouped engine view float_text ret columns bindings truncation = .ok table) :
    project_grouped engine view float_text ret columns bindings' truncation = .ok table := by
  by_cases hnil : bindings = []
  · rw [hnil] at hperm htable
    rw [hperm.nil_eq] at htable
    exact htable
  · unfold project_grouped at htable ⊢
    obtain ⟨groups, hgroups, htable⟩ := bind_ok_iff.mp htable
    obtain ⟨rows, hrows, hrest⟩ := bind_ok_iff.mp htable
    obtain ⟨keyed, hkeyed, _⟩ := bind_ok_iff.mp hgroups
    have hkeyed : keyed_bindings engine view ret bindings = .ok keyed := hkeyed
    obtain ⟨keyed', hkeyed', hkperm⟩ := mapM_perm hperm hkeyed
    have hne : keyed ≠ [] := by
      rintro rfl
      have hlength := (forall₂_of_mapM hkeyed).length_eq
      exact hnil (List.length_eq_zero_iff.mp hlength)
    have hne' : keyed' ≠ [] := fun heq => hne (List.perm_nil.mp (heq ▸ hkperm))
    have hapart := h.groups keyed hkeyed
    rw [group_bindings_eq hkeyed hne] at hgroups
    cases hgroups
    obtain ⟨rows', hrows', hrperm⟩ := group_rows_perm hapart hkeyed hkperm hrows
    have hrows'' : ((keyed'.foldl add_to_group []).mapM fun group =>
      ret.items.mapM (eval_grouped_item engine view group.2)) = .ok rows' := hrows'
    rw [group_bindings_eq hkeyed' hne', except_bind_ok, hrows'', except_bind_ok]
    -- the rows have values of their columns, and those that tie are identical
    have hcolumns : ∀ r ∈ rows, List.Forall₂ (ColumnValue (ProducedOrNull engine view ret bindings)) ret.items r := by
      intro r hr
      obtain ⟨e, he, hrow⟩ := exists_key_of_row hapart hrows hr
      refine group_row_columns (fun b hb => ?_) (fun hempty => ?_) hrow
      · obtain ⟨e', he', _, rfl⟩ := mem_members.mp hb
        exact (keyed_element hkeyed he').1
      · have hmem : e.2 ∈ members keyed e.1 := mem_members.mpr ⟨e, he, hapart.self e he, rfl⟩
        simp [hempty] at hmem
    have htie : ∀ r ∈ rows, ∀ s ∈ rows, cmp_list r s = .eq → r = s := by
      intro r hr s hs
      obtain ⟨e, he, hrow⟩ := exists_key_of_row hapart hrows hr
      obtain ⟨e', he', hrow'⟩ := exists_key_of_row hapart hrows hs
      exact hapart.rows e he e' he' r s hrow hrow'
    have hcycle : ∀ item, CirclesTie compare_values (ColumnValue (ProducedOrNull engine view ret bindings) item) :=
      fun item => column_cycle producedOrNull_items (producedOrNull_casts h.casts)
    have hsorted : sort_by cmp_list rows' = sort_by cmp_list rows :=
      (row_cycle hcycle).sort_by_perm list_swap hcolumns htie hrperm
    cases hdistinct : ret.distinct with
    | true =>
      simp only [hdistinct, if_true] at hrest ⊢
      have hdeduped : distinct_rows rows' = distinct_rows rows := by rw [distinct_rows, hsorted, distinct_rows]
      rw [hdeduped]
      exact hrest
    | false =>
      simp only [hdistinct, Bool.false_eq_true, if_false] at hrest ⊢
      obtain ⟨sorted, hsort, hrest⟩ := bind_ok_iff.mp hrest
      refine bind_ok_iff.mpr ⟨sorted, ?_, hrest⟩
      split at hsort
      · rename_i hempty
        rw [if_pos hempty, hsorted]
        exact hsort
      · rename_i hkeys
        rw [if_neg hkeys]
        exact sort_rows_perm hcycle hcolumns htie hrperm hsort

/-- The counts of `count(*)` over the groups of a stream sum to its length. -/
theorem counts_sum {groups : List (Row × List Binding)} (h : group_bindings engine view ret bindings = .ok groups) :
    (groups.map fun g => g.2.length).sum = bindings.length := by
  obtain ⟨keyed, hkeyed, h⟩ := bind_ok_iff.mp h
  have hlength := (forall₂_of_mapM hkeyed).length_eq
  rw [hlength, ← groups_length keyed, ← pure_ok_iff.mp h]
  split
  · rename_i hempty
    rw [List.isEmpty_iff.mp (Bool.and_eq_true_iff.mp hempty).2]
    rfl
  · rfl

end perm

/-- The variable `b`. -/
def var_b : Expr :=
  .Property ⟨"b", ⟨0, 1⟩⟩ []

/-- `RETURN collect(b)`. -/
def collect_b : ReturnClause where
  distinct := false
  items := [⟨.FunctionCall ⟨"collect", ⟨0, 7⟩⟩ [var_b], none⟩]
  order_by := []
  limit := none

/-- A callee, bound to `b` alone. -/
def callee (id : UInt32) : Binding :=
  Binding.empty.insert "b" (.Node ⟨id⟩)

/-- One caller, bound to `a` with each of its callees. -/
def caller_of (callee : UInt32) : Binding :=
  (Binding.empty.insert "a" (.Node ⟨0⟩)).insert "b" (.Node ⟨callee⟩)

end cgx.cql
