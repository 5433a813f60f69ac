import Mathlib.Data.List.Induction
import Mathlib.Data.List.Pairwise
import Mathlib.Order.Basic

/-! Maps as lists of entries in ascending order of their keys. -/

namespace sorted_map

open Std

variable {α β γ : Type}

section

variable (cmp : α → α → Ordering)

/-- Insert an entry, replacing the one under the same key. -/
def insert (k : α) (v : β) : List (α × β) → List (α × β)
  | [] => [(k, v)]
  | (k', v') :: rest =>
    match cmp k k' with
    | .lt => (k, v) :: (k', v') :: rest
    | .eq => (k, v) :: rest
    | .gt => (k', v') :: insert k v rest

/-- The value under a key. -/
def get? (k : α) (m : List (α × β)) : Option β :=
  (m.find? fun e => cmp k e.1 == .eq).map Prod.snd

/-- The map of a list of entries; of several under one key the last one stays. -/
def of_list (entries : List (α × β)) : List (α × β) :=
  entries.foldl (fun m e => insert cmp e.1 e.2 m) []

/-- The keys ascend. -/
def Sorted (m : List (α × β)) : Prop :=
  m.Pairwise fun a b => cmp a.1 b.1 = .lt

end

variable {cmp : α → α → Ordering}

theorem of_list_concat (entries : List (α × β)) (e : α × β) :
    of_list cmp (entries ++ [e]) = insert cmp e.1 e.2 (of_list cmp entries) := by
  rw [of_list, List.foldl_append]
  rfl

theorem get?_eq_none [LawfulEqCmp cmp] {m : List (α × β)} {k : α} : get? cmp k m = none ↔ ∀ v, (k, v) ∉ m := by
  have hself : cmp k k = .eq := ReflCmp.compare_self
  rw [get?, Option.map_eq_none_iff, List.find?_eq_none]
  constructor
  · intro h v hmem
    have hnot := h _ hmem
    simp [hself] at hnot
  · intro h e he heq
    have hkey : k = e.1 := by simpa using heq
    subst hkey
    exact h e.2 he

theorem get?_insert [DecidableEq α] [LawfulEqCmp cmp] (k : α) (v : β) (m : List (α × β)) (k' : α) :
    get? cmp k' (insert cmp k v m) = if k' = k then some v else get? cmp k' m := by
  have hbeq : ∀ a b : α, (cmp a b == .eq) = decide (a = b) := by
    intro a b
    rw [Bool.eq_iff_iff, beq_iff_eq, decide_eq_true_iff]
    exact ⟨LawfulEqCmp.eq_of_compare, fun h => h ▸ ReflCmp.compare_self⟩
  have hcons : ∀ (e : α × β) (rest : List (α × β)),
      get? cmp k' (e :: rest) = if k' = e.1 then some e.2 else get? cmp k' rest := by
    intro e rest
    rw [get?, get?, List.find?_cons, hbeq]
    by_cases heq : k' = e.1 <;> simp [heq]
  induction m with
  | nil => rw [insert, hcons]
  | cons head rest ih =>
    obtain ⟨k₁, v₁⟩ := head
    rw [insert]
    split
    · rw [hcons]
    · rename_i heq
      have hk : k = k₁ := LawfulEqCmp.eq_of_compare heq
      rw [hcons, hcons, ← hk]
      by_cases h : k' = k <;> simp [h]
    · rename_i hgt
      have hk : k ≠ k₁ := by
        rintro rfl
        have hself : cmp k k = .eq := ReflCmp.compare_self
        rw [hself] at hgt
        cases hgt
      rw [hcons, hcons, ih]
      by_cases h : k' = k₁
      · simp [h, hk.symm]
      · simp [h]

variable [TransCmp cmp]

theorem ne_of_lt {a b : α} (h : cmp a b = .lt) : a ≠ b := by
  rintro rfl
  have hself : cmp a a = .eq := ReflCmp.compare_self
  rw [hself] at h
  cases h

/-- Two entries under one key are the same. -/
theorem Sorted.eq_of_key {m : List (α × β)} (hm : Sorted cmp m) {a b : α × β} (ha : a ∈ m) (hb : b ∈ m)
    (hkey : a.1 = b.1) : a = b := by
  induction m with
  | nil => cases ha
  | cons head rest ih =>
    obtain ⟨hhead, hrest⟩ := List.pairwise_cons.mp hm
    cases List.mem_cons.mp ha with
    | inl hafirst =>
      subst hafirst
      cases List.mem_cons.mp hb with
      | inl hbfirst => exact hbfirst.symm
      | inr hblater => exact absurd hkey (ne_of_lt (hhead b hblater))
    | inr halater =>
      cases List.mem_cons.mp hb with
      | inl hbfirst =>
        subst hbfirst
        exact absurd hkey.symm (ne_of_lt (hhead a halater))
      | inr hblater => exact ih hrest halater hblater

/-- Lists that ascend by a key and have the same elements are the same. -/
theorem eq_of_ascending {f : γ → α} {l l' : List γ} (hl : l.Pairwise fun a b => cmp (f a) (f b) = .lt)
    (hl' : l'.Pairwise fun a b => cmp (f a) (f b) = .lt) (h : ∀ c, c ∈ l ↔ c ∈ l') : l = l' := by
  have hnodup : ∀ {l : List γ}, (l.Pairwise fun a b => cmp (f a) (f b) = .lt) → l.Nodup :=
    fun hl => hl.imp fun hlt heq => ne_of_lt hlt (congrArg f heq)
  refine ((List.perm_ext_iff_of_nodup (hnodup hl) (hnodup hl')).mpr h).eq_of_pairwise ?_ hl hl'
  intro a b _ _ hab hba
  exact absurd rfl (ne_of_lt (TransCmp.lt_trans hab hba))

variable [LawfulEqCmp cmp]

theorem mem_insert {k : α} {v : β} {m : List (α × β)} (hm : Sorted cmp m) {e : α × β} :
    e ∈ insert cmp k v m ↔ e = (k, v) ∨ e ∈ m ∧ e.1 ≠ k := by
  induction m with
  | nil => simp [insert]
  | cons head rest ih =>
    obtain ⟨k', v'⟩ := head
    obtain ⟨hhead, hrest⟩ := List.pairwise_cons.mp hm
    rw [insert]
    split
    · rename_i hlt
      have hothers : ∀ e ∈ (k', v') :: rest, e.1 ≠ k := by
        intro e he
        cases List.mem_cons.mp he with
        | inl hfirst =>
          rw [hfirst]
          exact (ne_of_lt hlt).symm
        | inr hlater => exact (ne_of_lt (TransCmp.lt_trans hlt (hhead e hlater))).symm
      rw [List.mem_cons]
      exact ⟨fun h => h.imp_right fun he => ⟨he, hothers e he⟩, fun h => h.imp_right And.left⟩
    · rename_i heq
      have hk : k = k' := LawfulEqCmp.eq_of_compare heq
      subst hk
      have hothers : ∀ e ∈ rest, e.1 ≠ k := fun e he => (ne_of_lt (hhead e he)).symm
      rw [List.mem_cons, List.mem_cons]
      constructor
      · exact fun h => h.imp_right fun he => ⟨.inr he, hothers e he⟩
      · rintro (h | ⟨h | h, hne⟩)
        · exact .inl h
        · rw [h] at hne
          exact absurd rfl hne
        · exact .inr h
    · rename_i hgt
      have hne : k' ≠ k := ne_of_lt (OrientedCmp.lt_of_gt hgt)
      rw [List.mem_cons, ih hrest, List.mem_cons]
      constructor
      · rintro (h | h | h)
        · rw [h]
          exact .inr ⟨.inl rfl, hne⟩
        · exact .inl h
        · exact .inr ⟨.inr h.1, h.2⟩
      · rintro (h | ⟨h | h, hne'⟩)
        · exact .inr (.inl h)
        · exact .inl h
        · exact .inr (.inr ⟨h, hne'⟩)

theorem sorted_insert {k : α} {v : β} {m : List (α × β)} (hm : Sorted cmp m) :
    Sorted cmp (insert cmp k v m) := by
  induction m with
  | nil => exact List.pairwise_singleton ..
  | cons head rest ih =>
    obtain ⟨k', v'⟩ := head
    obtain ⟨hhead, hrest⟩ := List.pairwise_cons.mp hm
    rw [insert]
    split
    · rename_i hlt
      refine List.pairwise_cons.mpr ⟨?_, hm⟩
      intro e he
      cases List.mem_cons.mp he with
      | inl hfirst =>
        rw [hfirst]
        exact hlt
      | inr hlater => exact TransCmp.lt_trans hlt (hhead e hlater)
    · rename_i heq
      have hk : k = k' := LawfulEqCmp.eq_of_compare heq
      subst hk
      exact List.pairwise_cons.mpr ⟨hhead, hrest⟩
    · rename_i hgt
      refine List.pairwise_cons.mpr ⟨?_, ih hrest⟩
      intro e he
      cases (mem_insert hrest).mp he with
      | inl hnew =>
        rw [hnew]
        exact OrientedCmp.lt_of_gt hgt
      | inr hold => exact hhead e hold.1

theorem sorted_of_list (entries : List (α × β)) : Sorted cmp (of_list cmp entries) := by
  suffices h : ∀ m : List (α × β), Sorted cmp m →
      Sorted cmp (entries.foldl (fun m e => insert cmp e.1 e.2 m) m) from h [] .nil
  induction entries with
  | nil => exact fun m hm => hm
  | cons e rest ih => exact fun m hm => ih _ (sorted_insert hm)

/-- What a map of a list holds under a key is the last entry under it. -/
theorem mem_of_list [DecidableEq α] {entries : List (α × β)} {e : α × β} :
    e ∈ of_list cmp entries ↔ (entries.filter fun e' => e'.1 = e.1).getLast? = some e := by
  induction entries using List.reverseRecOn with
  | nil => simp [of_list]
  | append_singleton entries last ih =>
    rw [of_list_concat, mem_insert (sorted_of_list entries), ih, List.filter_append]
    by_cases hkey : last.1 = e.1
    · rw [List.filter_cons_of_pos (by simpa using hkey), List.filter_nil, List.getLast?_concat,
        Option.some_inj]
      constructor
      · rintro (h | ⟨_, hne⟩)
        · exact h.symm
        · exact absurd hkey.symm hne
      · exact fun h => .inl h.symm
    · rw [List.filter_cons_of_neg (by simpa using hkey), List.filter_nil, List.append_nil]
      constructor
      · rintro (h | ⟨h, _⟩)
        · rw [h] at hkey
          exact absurd rfl hkey
        · exact h
      · exact fun h => .inr ⟨h, fun heq => hkey heq.symm⟩

theorem exists_mem_of_list [DecidableEq α] {entries : List (α × β)} {k : α} :
    (∃ v, (k, v) ∈ of_list cmp entries) ↔ ∃ e ∈ entries, e.1 = k := by
  simp only [mem_of_list]
  constructor
  · rintro ⟨v, hv⟩
    obtain ⟨hmem, hkey⟩ := List.mem_filter.mp (List.mem_of_getLast? hv)
    exact ⟨(k, v), hmem, rfl⟩
  · rintro ⟨e, he, rfl⟩
    have hne : (entries.filter fun e' => e'.1 = e.1) ≠ [] :=
      List.ne_nil_of_mem (List.mem_filter.mpr ⟨he, decide_eq_true rfl⟩)
    have hlast := List.getLast?_eq_some_getLast hne
    obtain ⟨_, hkey⟩ := List.mem_filter.mp (List.getLast_mem hne)
    exact ⟨(List.getLast _ hne).2, hlast.trans (congrArg some (Prod.ext (of_decide_eq_true hkey) rfl))⟩

theorem get?_eq_some {m : List (α × β)} (hm : Sorted cmp m) {k : α} {v : β} :
    get? cmp k m = some v ↔ (k, v) ∈ m := by
  rw [get?, Option.map_eq_some_iff]
  constructor
  · rintro ⟨e, hfind, rfl⟩
    have hkey : k = e.1 := by simpa using List.find?_some hfind
    subst hkey
    exact List.mem_of_find?_eq_some hfind
  · intro hmem
    have hself : cmp k k = .eq := ReflCmp.compare_self
    cases hfind : m.find? fun e => cmp k e.1 == .eq with
    | none =>
      have hnot := List.find?_eq_none.mp hfind _ hmem
      simp [hself] at hnot
    | some e =>
      have hkey : k = e.1 := by simpa using List.find?_some hfind
      have heq := hm.eq_of_key hmem (List.mem_of_find?_eq_some hfind) hkey
      exact ⟨e, rfl, by rw [← heq]⟩

end sorted_map
