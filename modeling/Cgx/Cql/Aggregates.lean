import Mathlib.Data.List.Nodup
import Cgx.Cql.Order
import Cgx.Cql.Project
import Cgx.Lib.Result

open cgx.core cgx.query results sorting Std

namespace cgx.cql

/-- The bindings with this key, in the order of the stream. -/
def members (keyed : List (Row × Binding)) (key : Row) : List Binding :=
  (keyed.filter fun e => same_values key e.1).map Prod.snd

/-- Keys that are the same are identical. -/
def KeysIdentical (keyed : List (Row × Binding)) : Prop :=
  ∀ e ∈ keyed, ∀ e' ∈ keyed, same_values e.1 e'.1 = true ↔ e.1 = e'.1

section grouping

variable {keyed keyed' : List (Row × Binding)} {e : Row × Binding} {key : Row}

theorem members_perm (h : keyed.Perm keyed') (key : Row) : (members keyed key).Perm (members keyed' key) :=
  (h.filter _).map _

theorem members_append (key : Row) :
    members (keyed ++ [e]) key = members keyed key ++ if same_values key e.1 then [e.2] else [] := by
  unfold members
  rw [List.filter_append, List.map_append]
  by_cases hsame : same_values key e.1 = true <;> simp [hsame]

theorem mem_members {b : Binding} : b ∈ members keyed key ↔ ∃ e ∈ keyed, same_values key e.1 = true ∧ e.2 = b := by
  simp [members, and_assoc]

/-- A binding whose key is not seen yet opens a group at the end. -/
theorem add_to_group_new {groups : List (Row × List Binding)}
    (hnew : ∀ g ∈ groups, same_values g.1 e.1 = false) :
    add_to_group groups e = groups ++ [(e.1, [e.2])] := by
  induction groups with
  | nil => rfl
  | cons g rest ih =>
    have hg := hnew g List.mem_cons_self
    rw [add_to_group, hg, if_neg Bool.false_ne_true, ih fun g' hg' => hnew g' (List.mem_cons_of_mem g hg')]
    rfl

/-- A binding whose key is seen goes to the end of its group. -/
theorem add_to_group_seen {keys : List Row} (of_key : Row → List Binding) (hnodup : keys.Nodup)
    (hseen : e.1 ∈ keys) (hsame : ∀ k ∈ keys, same_values k e.1 = true ↔ k = e.1) :
    add_to_group (keys.map fun k => (k, of_key k)) e =
      keys.map fun k => (k, of_key k ++ if same_values k e.1 then [e.2] else []) := by
  induction keys with
  | nil => cases hseen
  | cons k rest ih =>
    obtain ⟨hk, hrest⟩ := List.nodup_cons.mp hnodup
    rw [List.map_cons, List.map_cons, add_to_group]
    by_cases hke : same_values k e.1 = true
    · have heq : k = e.1 := (hsame k List.mem_cons_self).mp hke
      rw [if_pos hke]
      simp only [hke, if_true]
      congr 1
      -- no later key is the same
      refine List.map_congr_left fun k' hk' => ?_
      have hne : same_values k' e.1 = false := by
        cases hcase : same_values k' e.1 with
        | false => rfl
        | true =>
          have heq' := (hsame k' (List.mem_cons_of_mem k hk')).mp hcase
          rw [← heq] at heq'
          exact absurd (heq' ▸ hk') hk
      simp [hne]
    · have hrest_seen : e.1 ∈ rest := by
        obtain heq | hmem := List.mem_cons.mp hseen
        · exact absurd ((hsame k List.mem_cons_self).mpr heq.symm) hke
        · exact hmem
      rw [if_neg hke, ih hrest hrest_seen fun k' hk' => hsame k' (List.mem_cons_of_mem k hk')]
      simp [hke]

/-- The groups of a stream: one for each key that occurs, with its members. -/
theorem groups_eq (h : KeysIdentical keyed) :
    ∃ keys : List Row, keys.Nodup ∧ (∀ k, k ∈ keys ↔ ∃ e ∈ keyed, e.1 = k) ∧
      keyed.foldl add_to_group [] = keys.map fun k => (k, members keyed k) := by
  induction keyed using List.reverseRecOn with
  | nil => exact ⟨[], List.nodup_nil, by simp, rfl⟩
  | append_singleton keyed e ih =>
    have hkeyed : KeysIdentical keyed := fun a ha b hb =>
      h a (List.mem_append_left _ ha) b (List.mem_append_left _ hb)
    obtain ⟨keys, hnodup, hmem, heq⟩ := ih hkeyed
    have hlast : e ∈ keyed ++ [e] := List.mem_append_right _ (List.mem_singleton_self e)
    have hsame : ∀ k ∈ keys, same_values k e.1 = true ↔ k = e.1 := by
      intro k hk
      obtain ⟨e', he', rfl⟩ := (hmem k).mp hk
      exact h e' (List.mem_append_left _ he') e hlast
    rw [List.foldl_append, List.foldl_cons, List.foldl_nil, heq]
    by_cases hseen : e.1 ∈ keys
    · refine ⟨keys, hnodup, fun k => ?_, ?_⟩
      · rw [hmem k]
        constructor
        · rintro ⟨e', he', rfl⟩
          exact ⟨e', List.mem_append_left _ he', rfl⟩
        · rintro ⟨e', he', rfl⟩
          obtain he' | he' := List.mem_append.mp he'
          · exact ⟨e', he', rfl⟩
          · rw [List.mem_singleton.mp he']
            exact (hmem _).mp hseen
      · rw [add_to_group_seen (members keyed) hnodup hseen hsame]
        simp only [members_append]
    · have hnew : ∀ k ∈ keys, same_values k e.1 = false := by
        intro k hk
        cases hcase : same_values k e.1 with
        | false => rfl
        | true => exact absurd ((hsame k hk).mp hcase ▸ hk) hseen
      refine ⟨keys ++ [e.1], ?_, fun k => ?_, ?_⟩
      · rw [List.nodup_append]
        refine ⟨hnodup, List.nodup_singleton _, fun k hk k' hk' => ?_⟩
        rw [List.mem_singleton.mp hk']
        exact fun heq => hseen (heq ▸ hk)
      · simp only [List.mem_append, List.mem_singleton, hmem k, or_and_right, exists_or, exists_eq_left]
        exact or_congr_right eq_comm
      · rw [add_to_group_new (by simpa using hnew), List.map_append, List.map_singleton]
        congr 1
        · refine List.map_congr_left fun k hk => ?_
          simp [members_append, hnew k hk]
        · have hself : same_values e.1 e.1 = true := (h e hlast e hlast).mpr rfl
          have hnone : members keyed e.1 = [] := by
            refine List.eq_nil_iff_forall_not_mem.mpr fun b hb => ?_
            obtain ⟨e', he', hsame', _⟩ := mem_members.mp hb
            have heq' := (h e hlast e' (List.mem_append_left _ he')).mp hsame'
            exact hseen ((hmem _).mpr ⟨e', he', heq'.symm⟩)
          simp [members_append, hself, hnone]

theorem add_to_group_length (groups : List (Row × List Binding)) (e : Row × Binding) :
    ((add_to_group groups e).map fun g => g.2.length).sum = (groups.map fun g => g.2.length).sum + 1 := by
  induction groups with
  | nil => rfl
  | cons g rest ih =>
    rw [add_to_group]
    split
    · simp only [List.map_cons, List.sum_cons, List.length_append, List.length_singleton]
      omega
    · simp only [List.map_cons, List.sum_cons, ih]
      omega

/-- The groups hold every binding once. -/
theorem groups_length (keyed : List (Row × Binding)) :
    ((keyed.foldl add_to_group []).map fun g => g.2.length).sum = keyed.length := by
  induction keyed using List.reverseRecOn with
  | nil => rfl
  | append_singleton keyed e ih =>
    rw [List.foldl_append, List.foldl_cons, List.foldl_nil, add_to_group_length, ih, List.length_append]
    rfl

end grouping

/-- `MIN` takes one element however the lists are arranged: in each of them, any other
element lies strictly above it, or ties with it and stands behind it. -/
def FirstTaken (cmp : Value → Value → Ordering) (lists : List (List Value)) : Prop :=
  lists.flatten = [] ∨ ∃ m ∈ lists.flatten, ∀ l ∈ lists, ∀ before y after, l = before ++ y :: after → y ≠ m →
    cmp m y = .lt ∨ cmp m y = .eq ∧ m ∈ before

/-- The same of `MAX`, where of elements that tie the last is taken. -/
def LastTaken (cmp : Value → Value → Ordering) (lists : List (List Value)) : Prop :=
  lists.flatten = [] ∨ ∃ m ∈ lists.flatten, ∀ l ∈ lists, ∀ before y after, l = before ++ y :: after → y ≠ m →
    cmp m y = .gt ∨ cmp m y = .eq ∧ m ∈ after

section extremes

variable {cmp : Value → Value → Ordering} {l l' : List Value} {m : Value}

theorem aggregate_swap (a b : Value) : aggregate_value_cmp b a = (aggregate_value_cmp a b).swap := by
  unfold aggregate_value_cmp
  split
  · rename_i x y
    cases hx : confidence_rank x <;> cases hy : confidence_rank y
    · exact compare_swap _ _
    · exact compare_swap _ _
    · exact compare_swap _ _
    · exact swap_of compare _ _
  · rename_i hnot
    split
    · rename_i x y
      exact absurd rfl (hnot y x rfl)
    · exact compare_swap a b

/-- The next best element. -/
def take_next (pick : Value → Value → Value) (best : Option Value) (y : Value) : Option Value :=
  some (best.elim y fun b => pick b y)

theorem foldl_take_next (pick : Value → Value → Value) (rest : List Value) (x : Value) :
    rest.foldl (take_next pick) (some x) = some (rest.foldl pick x) := by
  induction rest generalizing x with
  | nil => rfl
  | cons y rest ih =>
    rw [List.foldl_cons, List.foldl_cons, ← ih]
    rfl

/-- A search that finds `m` in each list that holds it, and keeps it through the others. -/
theorem foldl_flatten_eq {step : Option Value → Value → Option Value} {B : Value → Prop} {lists : List (List Value)}
    (hlist : ∀ l ∈ lists, ∀ best : Option Value, (∀ b ∈ best, b = m ∨ B b) →
      (∀ b ∈ l.foldl step best, b = m ∨ B b) ∧ (best = some m ∨ m ∈ l → l.foldl step best = some m))
    {best : Option Value} (hbest : ∀ b ∈ best, b = m ∨ B b) (hm : best = some m ∨ m ∈ lists.flatten) :
    lists.flatten.foldl step best = some m := by
  induction lists generalizing best with
  | nil => exact hm.resolve_right List.not_mem_nil
  | cons l rest ih =>
    obtain ⟨hnext, hfound⟩ := hlist l List.mem_cons_self best hbest
    rw [List.flatten_cons, List.foldl_append]
    refine ih (fun l hl => hlist l (List.mem_cons_of_mem _ hl)) hnext ?_
    rw [List.flatten_cons, List.mem_append, ← or_assoc] at hm
    exact hm.imp_left hfound

/-- `MIN` finds the element that is taken first. -/
theorem foldl_min_eq (hswap : ∀ a b, cmp b a = (cmp a b).swap) (before : List Value)
    (hfirst : ∀ pre y post, l = pre ++ y :: post → y ≠ m → cmp m y = .lt ∨ cmp m y = .eq ∧ m ∈ before ++ pre)
    {best : Option Value} (hbest : ∀ b ∈ best, b = m ∨ cmp m b = .lt) (hbefore : m ∈ before → best = some m) :
    (∀ b ∈ l.foldl (take_next fun b y => if cmp b y = .gt then y else b) best, b = m ∨ cmp m b = .lt) ∧
      (best = some m ∨ m ∈ l → l.foldl (take_next fun b y => if cmp b y = .gt then y else b) best = some m) := by
  induction l generalizing before best with
  | nil => exact ⟨hbest, fun hm => hm.resolve_right List.not_mem_nil⟩
  | cons y rest ih =>
    have htail : ∀ pre z post, rest = pre ++ z :: post → z ≠ m → cmp m z = .lt ∨ cmp m z = .eq ∧ m ∈ (before ++ [y]) ++ pre := by
      intro pre z post heq hne
      rw [List.append_assoc]
      exact hfirst (y :: pre) z post (by rw [heq, List.cons_append]) hne
    rw [List.foldl_cons]
    by_cases hym : y = m
    · -- `m` replaces what lies above it
      have hnext : take_next (fun b y => if cmp b y = .gt then y else b) best y = some m := by
        rw [hym, take_next]
        cases best with
        | none => rfl
        | some b =>
          obtain rfl | hlt := hbest b rfl
          · simp only [Option.elim_some, ite_self]
          · have hgt : cmp b m = .gt := by
              rw [hswap m b, hlt]
              rfl
            simp only [Option.elim_some, hgt, if_true]
      rw [hnext]
      have hself : ∀ b ∈ some m, b = m ∨ cmp m b = .lt := by simp
      have hfound := ih (before ++ [y]) htail hself fun _ => rfl
      exact ⟨hfound.1, fun _ => hfound.2 (.inl rfl)⟩
    · have hy := hfirst [] y rest rfl hym
      rw [List.append_nil] at hy
      have hkeeps : best = some m → take_next (fun b y => if cmp b y = .gt then y else b) best y = some m := by
        rintro rfl
        obtain hlt | heq := hy
        · simp [take_next, hlt]
        · simp [take_next, heq.1]
      have hnext : ∀ b ∈ take_next (fun b y => if cmp b y = .gt then y else b) best y, b = m ∨ cmp m b = .lt := by
        by_cases hseen : best = some m
        · rw [hkeeps hseen]
          simp
        · have hlt : cmp m y = .lt := hy.resolve_right fun heq => hseen (hbefore heq.2)
          cases best with
          | none => simpa [take_next] using .inr hlt
          | some b =>
            simp only [take_next, Option.elim_some, Option.mem_some_iff, forall_eq']
            split
            · exact .inr hlt
            · exact hbest b rfl
      have hfound := ih (before ++ [y]) htail hnext fun hm => hkeeps (hbefore ((List.mem_append.mp hm).resolve_right
        fun hy => hym (List.mem_singleton.mp hy).symm))
      refine ⟨hfound.1, fun hm => hfound.2 ?_⟩
      obtain hm | hm := hm
      · exact .inl (hkeeps hm)
      · exact .inr ((List.mem_cons.mp hm).resolve_left fun heq => hym heq.symm)

/-- `MAX` finds the element that is taken last: what ties with it gives way to it later. -/
theorem foldl_max_eq (hswap : ∀ a b, cmp b a = (cmp a b).swap)
    (hlast : ∀ pre y post, l = pre ++ y :: post → y ≠ m → cmp m y = .gt ∨ cmp m y = .eq ∧ m ∈ post)
    {best : Option Value} (hbest : ∀ b ∈ best, b = m ∨ cmp m b = .gt ∨ cmp m b = .eq ∧ m ∈ l) :
    (∀ b ∈ l.foldl (take_next fun b y => if cmp b y = .gt then b else y) best, b = m ∨ cmp m b = .gt) ∧
      (best = some m ∨ m ∈ l → l.foldl (take_next fun b y => if cmp b y = .gt then b else y) best = some m) := by
  induction l generalizing best with
  | nil => exact ⟨by simpa using hbest, fun hm => hm.resolve_right List.not_mem_nil⟩
  | cons y rest ih =>
    have htail : ∀ pre z post, rest = pre ++ z :: post → z ≠ m → cmp m z = .gt ∨ cmp m z = .eq ∧ m ∈ post := by
      intro pre z post heq hne
      exact hlast (y :: pre) z post (by rw [heq, List.cons_append]) hne
    rw [List.foldl_cons]
    by_cases hym : y = m
    · -- `m` replaces what does not lie above it
      have hnext : take_next (fun b y => if cmp b y = .gt then b else y) best y = some m := by
        rw [hym, take_next]
        cases best with
        | none => rfl
        | some b =>
          have hne : b ≠ m → cmp b m ≠ .gt := by
            intro hne
            rw [hswap m b]
            obtain hgt | heq := (hbest b rfl).resolve_left hne
            · simp [hgt]
            · simp [heq.1]
          by_cases hbm : b = m
          · rw [hbm]
            simp only [Option.elim_some, ite_self]
          · simp only [Option.elim_some, if_neg (hne hbm)]
      rw [hnext]
      have hself : ∀ b ∈ some m, b = m ∨ cmp m b = .gt ∨ cmp m b = .eq ∧ m ∈ rest := by simp
      have hfound := ih htail hself
      exact ⟨hfound.1, fun _ => hfound.2 (.inl rfl)⟩
    · have hy := hlast [] y rest rfl hym
      have hlater : m ∈ y :: rest → m ∈ rest := fun hm => (List.mem_cons.mp hm).resolve_left fun heq => hym heq.symm
      have hnext : ∀ b ∈ take_next (fun b y => if cmp b y = .gt then b else y) best y,
          b = m ∨ cmp m b = .gt ∨ cmp m b = .eq ∧ m ∈ rest := by
        cases best with
        | none => simpa [take_next] using .inr hy
        | some b =>
          simp only [take_next, Option.elim_some, Option.mem_some_iff, forall_eq']
          split
          · exact (hbest b rfl).imp_right fun h => h.imp_right fun h => ⟨h.1, hlater h.2⟩
          · exact .inr hy
      have hfound := ih htail hnext
      refine ⟨hfound.1, fun hm => hfound.2 ?_⟩
      obtain rfl | hm := hm
      · obtain hgt | heq := hy
        · exact .inl (by simp [take_next, hgt])
        · exact .inr heq.2
      · exact .inr (hlater hm)

theorem min_by_eq_foldl (l : List Value) :
    min_by cmp l = l.foldl (take_next fun b y => if cmp b y = .gt then y else b) none := by
  cases l with
  | nil => rfl
  | cons x rest => exact (foldl_take_next _ rest x).symm

theorem max_by_eq_foldl (l : List Value) :
    max_by cmp l = l.foldl (take_next fun b y => if cmp b y = .gt then b else y) none := by
  cases l with
  | nil => rfl
  | cons x rest => exact (foldl_take_next _ rest x).symm

theorem flatten_eq_nil_of_perm {lists lists' : List (List Value)} (hperm : lists.Perm lists') (h : lists.flatten = []) :
    lists'.flatten = [] := by
  rw [← List.perm_nil, ← h]
  exact hperm.symm.flatten

theorem FirstTaken.perm {lists lists' : List (List Value)} (h : FirstTaken cmp lists) (hperm : lists.Perm lists') :
    FirstTaken cmp lists' := by
  obtain hnil | ⟨m, hm, hfirst⟩ := h
  · exact .inl (flatten_eq_nil_of_perm hperm hnil)
  · exact .inr ⟨m, hperm.flatten.mem_iff.mp hm, fun l hl => hfirst l (hperm.mem_iff.mpr hl)⟩

theorem LastTaken.perm {lists lists' : List (List Value)} (h : LastTaken cmp lists) (hperm : lists.Perm lists') :
    LastTaken cmp lists' := by
  obtain hnil | ⟨m, hm, hlast⟩ := h
  · exact .inl (flatten_eq_nil_of_perm hperm hnil)
  · exact .inr ⟨m, hperm.flatten.mem_iff.mp hm, fun l hl => hlast l (hperm.mem_iff.mpr hl)⟩

/-- Where one element is taken first, the order of the lists does not matter. -/
theorem min_by_perm {lists lists' : List (List Value)} (hfirst : FirstTaken aggregate_value_cmp lists)
    (hperm : lists.Perm lists') : min_by aggregate_value_cmp lists'.flatten = min_by aggregate_value_cmp lists.flatten := by
  obtain hnil | ⟨m, hm, hfirst⟩ := hfirst
  · rw [hnil, flatten_eq_nil_of_perm hperm hnil]
  · have hfound : ∀ lists'', lists.Perm lists'' → min_by aggregate_value_cmp lists''.flatten = some m := by
      intro lists'' hperm
      rw [min_by_eq_foldl]
      refine foldl_flatten_eq (B := fun b => aggregate_value_cmp m b = .lt) (fun l hl best hbest => ?_) (by simp)
        (.inr (hperm.flatten.mem_iff.mp hm))
      have htaken := hfirst l (hperm.mem_iff.mpr hl)
      exact foldl_min_eq aggregate_swap [] (by simpa using htaken) hbest (by simp)
    rw [hfound lists' hperm, hfound lists (.refl _)]

theorem max_by_perm {lists lists' : List (List Value)} (hlast : LastTaken aggregate_value_cmp lists)
    (hperm : lists.Perm lists') : max_by aggregate_value_cmp lists'.flatten = max_by aggregate_value_cmp lists.flatten := by
  obtain hnil | ⟨m, hm, hlast⟩ := hlast
  · rw [hnil, flatten_eq_nil_of_perm hperm hnil]
  · have hfound : ∀ lists'', lists.Perm lists'' → max_by aggregate_value_cmp lists''.flatten = some m := by
      intro lists'' hperm
      rw [max_by_eq_foldl]
      refine foldl_flatten_eq (B := fun b => aggregate_value_cmp m b = .gt) (fun l hl best hbest => ?_) (by simp)
        (.inr (hperm.flatten.mem_iff.mp hm))
      have htaken := hlast l (hperm.mem_iff.mpr hl)
      exact foldl_max_eq aggregate_swap htaken fun b hb => (hbest b hb).imp_right .inl
    rw [hfound lists' hperm, hfound lists (.refl _)]

end extremes

section aggregates

variable (engine : SelectorEngine) (view : GraphView)

/-- The argument of an aggregate call on a binding. -/
def eval_arg (args : List Expr) (b : Binding) : Except CqlError Value :=
  eval_expr engine view (args.headD (.Literal .Null)) b

/-- Bindings tied on their representative node give identical values, where they give any. -/
def CollectAgrees (args : List Expr) (group : List Binding) : Prop :=
  ∀ b ∈ group, ∀ b' ∈ group, representative_node b = representative_node b' →
    ∀ v v', eval_arg engine view args b = .ok v → eval_arg engine view args b' = .ok v' →
      is_null v = false → is_null v' = false → v = v'

/-- Nothing in the group ties for the aggregate. -/
def AggregateAgrees (name : Spanned String) (args : List Expr) (group : List Binding) : Prop :=
  match aggregate_name name.value with
  | some "count" => True
  | some "collect" => CollectAgrees engine view args group
  | some extreme => ∀ values, group.mapM (eval_arg engine view args) = .ok values →
      if extreme = "min" then FirstTaken aggregate_value_cmp (values.map elements_of)
      else LastTaken aggregate_value_cmp (values.map elements_of)
  | none => True

variable {engine view} {name : Spanned String} {args : List Expr} {group group' : List Binding}

theorem AggregateAgrees.perm (h : AggregateAgrees engine view name args group) (hperm : group.Perm group') :
    AggregateAgrees engine view name args group' := by
  unfold AggregateAgrees at h ⊢
  split at h
  · trivial
  · exact fun b hb b' hb' => h b (hperm.mem_iff.mpr hb) b' (hperm.mem_iff.mpr hb')
  · intro values' hvalues'
    obtain ⟨values, hvalues, hvperm⟩ := mapM_perm hperm.symm hvalues'
    have htaken := h values hvalues
    have hlists := (hvperm.map elements_of).symm
    split at htaken
    · rename_i hmin
      rw [if_pos hmin]
      exact htaken.perm hlists
    · rename_i hmax
      rw [if_neg hmax]
      exact htaken.perm hlists
  · trivial

/-- The key `collect` sorts by. -/
def node_key (b : Binding) : Option UInt32 :=
  (representative_node b).map NodeId.raw

theorem node_key_inj {b b' : Binding} (h : node_key b = node_key b') : representative_node b = representative_node b' := by
  refine Option.map_injective (fun m n hmn => ?_) h
  cases m
  cases n
  exact congrArg NodeId.mk hmn

/-- The value of the argument, where it has one. -/
def arg_value (engine : SelectorEngine) (view : GraphView) (args : List Expr) (b : Binding) : Value :=
  match eval_arg engine view args b with
  | .ok v => v
  | .error _ => .Null

theorem mapM_arg_value {values : List Value} (h : group.mapM (eval_arg engine view args) = .ok values) :
    values = group.map (arg_value engine view args) ∧
      ∀ b ∈ group, eval_arg engine view args b = .ok (arg_value engine view args b) := by
  have hall := forall₂_of_mapM h
  clear h
  induction hall with
  | nil => simp
  | @cons b v _ _ hb _ ih =>
    have hvalue : arg_value engine view args b = v := by rw [arg_value, hb]
    refine ⟨by rw [List.map_cons, hvalue, ← ih.1], fun b' hb' => ?_⟩
    obtain rfl | hb' := List.mem_cons.mp hb'
    · rw [hvalue, hb]
    · exact ih.2 b' hb'

/-- What `collect` gives does not depend on the order of the group. -/
theorem collect_perm (hagrees : CollectAgrees engine view args group) (hperm : group.Perm group') {values : List Value}
    (hvalues : (sort_by (compareOn node_key) group).mapM (eval_arg engine view args) = .ok values) :
    ∃ values', (sort_by (compareOn node_key) group').mapM (eval_arg engine view args) = .ok values' ∧
        values'.filter (fun v => !is_null v) = values.filter fun v => !is_null v := by
  have hsorted : (sort_by (compareOn node_key) group).Perm (sort_by (compareOn node_key) group') :=
    (perm_sort_by group).trans (hperm.trans (perm_sort_by group').symm)
  obtain ⟨values', hvalues', _⟩ := mapM_perm hsorted hvalues
  refine ⟨values', hvalues', ?_⟩
  obtain ⟨rfl, hok⟩ := mapM_arg_value hvalues
  obtain ⟨rfl, _⟩ := mapM_arg_value hvalues'
  -- with its key, a value that is given has one place in the sorted list
  let given (l : List Binding) : List (Option UInt32 × Value) :=
    (l.filter fun b => !is_null (arg_value engine view args b)).map fun b => (node_key b, arg_value engine view args b)
  have hgiven : ∀ l : List Binding, (l.map (arg_value engine view args)).filter (fun v => !is_null v) =
      (given l).map Prod.snd := by
    intro l
    rw [List.filter_map, List.map_map]
    rfl
  have hpairwise : ∀ l : List Binding, (given (sort_by (compareOn node_key) l)).Pairwise fun e e' =>
      (compareOn Prod.fst e e').isLE := by
    intro l
    rw [List.pairwise_map]
    have hpairwise : (sort_by (compareOn node_key) l).Pairwise fun b b' => (compareOn node_key b b').isLE :=
      pairwise_sort_by l
    exact hpairwise.filter _
  have hsame : given (sort_by (compareOn node_key) group') = given (sort_by (compareOn node_key) group) := by
    refine List.Perm.eq_of_pairwise (fun e e' he he' hle hge => ?_) (hpairwise group') (hpairwise group)
      ((hsorted.symm.filter _).map _)
    obtain ⟨b, hb, rfl⟩ := List.mem_map.mp he
    obtain ⟨b', hb', rfl⟩ := List.mem_map.mp he'
    obtain ⟨hb, hgives⟩ := List.mem_filter.mp hb
    obtain ⟨hb', hgives'⟩ := List.mem_filter.mp hb'
    have hkey : node_key b = node_key b' := by
      have heq : compare (node_key b) (node_key b') = .eq := OrientedCmp.isLE_antisymm hle hge
      exact LawfulEqCmp.eq_of_compare heq
    have hbmem := hsorted.symm.mem_iff.mp hb
    have hvalue := hagrees b (mem_sort_by.mp hbmem) b' (mem_sort_by.mp hb') (node_key_inj hkey) _ _
      (hok b hbmem) (hok b' hb') (by simpa using hgives) (by simpa using hgives')
    rw [hkey, hvalue]
  rw [hgiven, hgiven, hsame]

/-- An aggregate in which nothing ties does not depend on the order of its group. -/
theorem eval_aggregate_perm (hagrees : AggregateAgrees engine view name args group) (hperm : group.Perm group')
    {v : Value} (h : eval_aggregate engine view name args group = .ok v) :
    eval_aggregate engine view name args group' = .ok v := by
  unfold AggregateAgrees at hagrees
  unfold eval_aggregate at h ⊢
  split at hagrees
  · rename_i hname
    simp only [hname] at h ⊢
    split at h
    · rename_i hstar
      rw [if_pos hstar, ← hperm.length_eq]
      exact h
    · rename_i hstar
      rw [if_neg hstar]
      obtain ⟨_, harity, h⟩ := bind_ok_iff.mp h
      obtain ⟨values, hvalues, h⟩ := bind_ok_iff.mp h
      obtain ⟨values', hvalues', hvperm⟩ := mapM_perm hperm hvalues
      rw [harity, hvalues']
      rw [hvperm.countP_eq] at h
      exact h
  · rename_i hname
    simp only [hname] at h ⊢
    obtain ⟨_, harity, h⟩ := bind_ok_iff.mp h
    obtain ⟨values, hvalues, h⟩ := bind_ok_iff.mp h
    obtain ⟨values', hvalues', hsame⟩ := collect_perm hagrees hperm hvalues
    have hvalues'' : (sort_by (compareOn fun b => (representative_node b).map NodeId.raw) group').mapM
      (fun b => eval_expr engine view (args.headD (.Literal .Null)) b) = .ok values' := hvalues'
    rw [harity, except_bind_ok, hvalues'', except_bind_ok, hsame]
    exact h
  · rename_i extreme hcount hcollect hname
    simp only [hname] at h ⊢
    obtain ⟨_, harity, h⟩ := bind_ok_iff.mp h
    obtain ⟨values, hvalues, h⟩ := bind_ok_iff.mp h
    obtain ⟨values', hvalues', hvperm⟩ := mapM_perm hperm hvalues
    have helems : (values.map elements_of).Perm (values'.map elements_of) := hvperm.map _
    have hextreme := hagrees values hvalues
    rw [harity, except_bind_ok, hvalues', except_bind_ok, ← h, List.flatMap_def, List.flatMap_def]
    split
    · rename_i hmin
      rw [if_pos hmin] at hextreme
      rw [min_by_perm hextreme helems]
    · rename_i hmax
      rw [if_neg hmax] at hextreme
      rw [max_by_perm hextreme helems]
  · rename_i hname
    simp only [hname] at h ⊢
    exact h

end aggregates

end cgx.cql
