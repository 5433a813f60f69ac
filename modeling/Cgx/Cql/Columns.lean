import Cgx.Cql.Aggregates

open cgx.core cgx.query results sorting Std

namespace cgx.cql

/-- The values the items of a clause give on the bindings, themselves or as arguments of
aggregates, and the items of lists among them. -/
inductive Produced (engine : SelectorEngine) (view : GraphView) (ret : ReturnClause) (bindings : List Binding) :
    Value → Prop
  | expr {item : ReturnItem} {b : Binding} {v : Value} (hitem : item ∈ ret.items) (hb : b ∈ bindings)
      (hv : eval_expr engine view item.expr b = .ok v) : Produced engine view ret bindings v
  | arg {item : ReturnItem} {name : Spanned String} {args : List Expr} {b : Binding} {v : Value}
      (hitem : item ∈ ret.items) (hcall : item.expr = .FunctionCall name args) (hb : b ∈ bindings)
      (hv : eval_arg engine view args b = .ok v) : Produced engine view ret bindings v
  | item {xs : List Value} {v : Value} (hxs : Produced engine view ret bindings (.List xs)) (hv : v ∈ xs) :
      Produced engine view ret bindings v

/-- The aggregate of an item, if it is one. -/
def column_aggregate (item : ReturnItem) : Option String :=
  match item.expr with
  | .FunctionCall name _ => aggregate_name name.value
  | _ => none

/-- The values of the column of an item: counts, lists of values of `S`, or values of `S`. -/
inductive ColumnValue (S : Value → Prop) (item : ReturnItem) : Value → Prop
  | count (n : Nat) (hcount : column_aggregate item = some "count") : ColumnValue S item (.Int n)
  | collect (vs : List Value) (hcollect : column_aggregate item = some "collect") (hvs : ∀ v ∈ vs, S v) :
      ColumnValue S item (.List vs)
  | value (v : Value) (hcount : column_aggregate item ≠ some "count") (hcollect : column_aggregate item ≠ some "collect")
      (hv : S v) : ColumnValue S item v

section columns

variable {S : Value → Prop} {item : ReturnItem} 

/-- The values of a column are in order. -/
theorem column_cycle (hitems : ∀ xs, S (.List xs) → ∀ x ∈ xs, S x) (hcasts : CastsApart S) :
    CirclesTie compare_values (ColumnValue S item) := by
  intro a b c ha hb hc hab hbc hca
  cases ha with
  | count m hcount =>
    cases hb with
    | collect _ hcollect _ => simp [hcount] at hcollect
    | value _ hne _ _ => exact absurd hcount hne
    | count n _ =>
      cases hc with
      | collect _ hcollect _ => simp [hcount] at hcollect
      | value _ hne _ _ => exact absurd hcount hne
      | count k _ => exact cycle_of compare hab hbc hca
  | collect xs hcollect hxs =>
    cases hb with
    | count _ hcount => simp [hcollect] at hcount
    | value _ _ hne _ => exact absurd hcollect hne
    | collect ys _ hys =>
      cases hc with
      | count _ hcount => simp [hcollect] at hcount
      | value _ _ hne _ => exact absurd hcollect hne
      | collect zs _ hzs =>
        exact list_cycle (fun x hx y hy z hz => compare_cycle hitems hcasts x y z (hxs x hx) (hys y hy) (hzs z hz)) hab hbc hca
  | value _ hcount hcollect hSa =>
    cases hb with
    | count _ heq => exact absurd heq hcount
    | collect _ heq _ => exact absurd heq hcollect
    | value _ _ _ hSb =>
      cases hc with
      | count _ heq => exact absurd heq hcount
      | collect _ heq _ => exact absurd heq hcollect
      | value _ _ _ hSc => exact compare_cycle hitems hcasts a b c hSa hSb hSc hab hbc hca

/-- Rows whose columns are in order are in order. -/
theorem row_cycle {ι : Type} {C : ι → Value → Prop} (hC : ∀ i, CirclesTie compare_values (C i)) {columns : List ι} :
    CirclesTie cmp_list (List.Forall₂ C columns) := by
  intro r s t hr hs ht hrs hst htr
  induction hr generalizing s t with
  | nil =>
    cases hs
    cases ht
    exact ⟨rfl, rfl, rfl⟩
  | cons hx _ ih =>
    cases hs with
    | cons hy hs =>
      cases ht with
      | cons hz ht =>
        simp only [cmp_list, Ordering.isLE_then_iff_and] at hrs hst htr
        obtain ⟨hxy, hyz, hzx⟩ := hC _ _ _ _ hx hy hz hrs.1 hst.1 htr.1
        simp only [hxy, hyz, hzx, reduceCtorEq, false_or] at hrs hst htr
        obtain ⟨hrs', hst', htr'⟩ := ih _ _ hs ht hrs.2 hst.2 htr.2
        simp only [cmp_list, hxy, hyz, hzx, hrs', hst', htr']
        exact ⟨rfl, rfl, rfl⟩

end columns

section values

variable {engine : SelectorEngine} {view : GraphView} {ret : ReturnClause} {bindings group : List Binding}
  {item : ReturnItem} {name : Spanned String} {args : List Expr} {v : Value}

/-- A produced value, or the null of an extreme over nothing. -/
def ProducedOrNull (engine : SelectorEngine) (view : GraphView) (ret : ReturnClause) (bindings : List Binding)
    (v : Value) : Prop :=
  v = .Null ∨ Produced engine view ret bindings v

theorem producedOrNull_items : ∀ xs, ProducedOrNull engine view ret bindings (.List xs) → ∀ x ∈ xs,
    ProducedOrNull engine view ret bindings x := by
  rintro xs (heq | hxs) x hx
  · cases heq
  · exact .inr (.item hxs hx)

theorem producedOrNull_casts (h : CastsApart (Produced engine view ret bindings)) :
    CastsApart (ProducedOrNull engine view ret bindings) := by
  rintro x y f (heq | hx) (heq' | hy) (heq'' | hf) hlt
  all_goals first | exact h x y f hx hy hf hlt | simp_all

theorem foldl_choice_mem {pick : Value → Value → Value} (hchoice : ∀ a b, pick a b = a ∨ pick a b = b)
    (rest : List Value) (best : Value) : rest.foldl pick best ∈ best :: rest := by
  induction rest generalizing best with
  | nil => exact List.mem_singleton_self best
  | cons y rest ih =>
    rw [List.foldl_cons]
    obtain heq | hmem := List.mem_cons.mp (ih (pick best y))
    · rw [heq]
      obtain hpick | hpick := hchoice best y
      · rw [hpick]
        exact List.mem_cons_self
      · rw [hpick]
        exact List.mem_cons_of_mem _ List.mem_cons_self
    · exact List.mem_cons_of_mem _ (List.mem_cons_of_mem _ hmem)

theorem min_by_mem {cmp : Value → Value → Ordering} {l : List Value} (h : min_by cmp l = some v) : v ∈ l := by
  cases l with
  | nil => cases h
  | cons x rest =>
    rw [← Option.some.inj h]
    refine foldl_choice_mem (fun a b => ?_) rest x
    split
    · exact .inr rfl
    · exact .inl rfl

theorem max_by_mem {cmp : Value → Value → Ordering} {l : List Value} (h : max_by cmp l = some v) : v ∈ l := by
  cases l with
  | nil => cases h
  | cons x rest =>
    rw [← Option.some.inj h]
    refine foldl_choice_mem (fun a b => ?_) rest x
    split
    · exact .inl rfl
    · exact .inr rfl

/-- The elements of an extreme are produced. -/
theorem produced_of_element {values : List Value} (hvalues : ∀ v ∈ values, Produced engine view ret bindings v)
    (hv : v ∈ values.flatMap elements_of) : Produced engine view ret bindings v := by
  obtain ⟨value, hvalue, hv⟩ := List.mem_flatMap.mp hv
  unfold elements_of at hv
  split at hv
  · exact .item (hvalues _ hvalue) (List.mem_of_mem_filter hv)
  · cases hv
  · rw [List.mem_singleton.mp hv]
    exact hvalues _ hvalue

/-- An aggregate gives a value of its column. -/
theorem eval_aggregate_column (hitem : item ∈ ret.items) (hcall : item.expr = .FunctionCall name args)
    (hgroup : ∀ b ∈ group, b ∈ bindings) (h : eval_aggregate engine view name args group = .ok v) :
    ColumnValue (ProducedOrNull engine view ret bindings) item v := by
  have hcolumn : column_aggregate item = aggregate_name name.value := by rw [column_aggregate, hcall]
  have hproduced : ∀ (l : List Binding) (values : List Value), (∀ b ∈ l, b ∈ group) →
      l.mapM (eval_arg engine view args) = .ok values → ∀ v ∈ values, Produced engine view ret bindings v := by
    intro l values hl hvalues v hv
    obtain ⟨b, hb, hb'⟩ := exists_of_mem_mapM hvalues hv
    exact .arg hitem hcall (hgroup b (hl b hb)) hb'
  unfold eval_aggregate at h
  split at h
  · rename_i hname
    split at h
    · cases h
      exact .count _ (hcolumn.trans hname)
    · obtain ⟨_, _, h⟩ := bind_ok_iff.mp h
      obtain ⟨values, _, h⟩ := bind_ok_iff.mp h
      cases h
      exact .count _ (hcolumn.trans hname)
  · rename_i hname
    obtain ⟨_, _, h⟩ := bind_ok_iff.mp h
    obtain ⟨values, hvalues, h⟩ := bind_ok_iff.mp h
    cases h
    refine .collect _ (hcolumn.trans hname) fun v hv => .inr ?_
    exact hproduced _ values (fun b hb => mem_sort_by.mp hb) hvalues v (List.mem_of_mem_filter hv)
  · rename_i extreme hcount hcollect hname
    obtain ⟨_, _, h⟩ := bind_ok_iff.mp h
    obtain ⟨values, hvalues, h⟩ := bind_ok_iff.mp h
    have hvalue := pure_ok_iff.mp h
    refine .value v (fun heq => hcount ?_) (fun heq => hcollect ?_) ?_
    · exact Option.some.inj (hname.symm.trans (hcolumn.symm.trans heq))
    · exact Option.some.inj (hname.symm.trans (hcolumn.symm.trans heq))
    · rw [← hvalue]
      cases hpick : (if extreme = "min" then min_by aggregate_value_cmp (values.flatMap elements_of)
          else max_by aggregate_value_cmp (values.flatMap elements_of)) with
      | none => exact .inl rfl
      | some w =>
        have hw : w ∈ values.flatMap elements_of := by
          split at hpick
          · exact min_by_mem hpick
          · exact max_by_mem hpick
        exact .inr (produced_of_element (hproduced group values (fun b hb => hb) hvalues) hw)
  · rename_i hname
    cases h
    refine .value _ (fun heq => ?_) (fun heq => ?_) (.inl rfl) <;>
      rw [hcolumn, hname] at heq <;> cases heq

end values

end cgx.cql
