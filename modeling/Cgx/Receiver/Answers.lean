import Mathlib.Data.Finset.Card
import Cgx.Receiver.Lookup

open memo Relation

namespace cgx.receiver.Lattice

variable (l : Lattice)

/-! ### Levels -/

open Classical in
/-- The number of classes above `c`. -/
noncomputable def rank (c : Nat) : Nat :=
  ((Finset.range l.size).filter fun s => TransGen l.IsBase s c).card

/-- The key's level: on one class the interceptors are looked up below the other methods, and
the lookups over several classes stand above those on one. -/
noncomputable def level : Key → Nat
  | .lookup c method => 2 * l.rank c + if method = GETATTR ∨ method = GETATTRIBUTE then 0 else 1
  | .cone _ _ => 2 * l.size + 2
  | .super _ _ => 2 * l.size + 2
  | .ext _ => 2 * l.size + 3

variable {l} {c s : Nat} {method : String}

open Classical in
theorem rank_lt (hac : l.Acyclic) (h : l.IsBase s c) : l.rank s < l.rank c := by
  refine Finset.card_lt_card ⟨fun x hx => ?_, fun hsub => ?_⟩
  · rw [Finset.mem_filter] at hx ⊢
    exact ⟨hx.1, hx.2.tail h⟩
  · have hs := hsub (Finset.mem_filter.mpr ⟨Finset.mem_range.mpr h.lt_left, .single h⟩)
    exact hac s (Finset.mem_filter.mp hs).2

open Classical in
theorem rank_le (c : Nat) : l.rank c ≤ l.size :=
  (Finset.card_filter_le _ _).trans_eq (Finset.card_range _)

theorem level_lookup_le (c : Nat) (method : String) : l.level (.lookup c method) < 2 * l.size + 2 := by
  have hrank := l.rank_le c
  rw [level]
  split <;> omega

theorem level_base (hac : l.Acyclic) (h : l.IsBase s c) :
    l.level (.lookup s method) < l.level (.lookup c method) := by
  have hrank := rank_lt hac h
  rw [level, level]
  omega

theorem level_interceptor {name : String} (hname : name = GETATTR ∨ name = GETATTRIBUTE)
    (h : ¬ (method = GETATTR ∨ method = GETATTRIBUTE)) :
    l.level (.lookup c name) < l.level (.lookup c method) := by
  rw [level, level, if_pos hname, if_neg h]
  omega

/-! ### The lookups without a table -/

/-- The nested lookups of one class and method. -/
def Nested (l : Lattice) (c : Nat) (method : String) (s : Nat) (name : String) : Prop :=
  l.IsBase s c ∧ name = method ∨
    s = c ∧ (name = GETATTR ∨ name = GETATTRIBUTE) ∧ ¬ (method = GETATTR ∨ method = GETATTRIBUTE)

theorem level_nested (hac : l.Acyclic) {name : String} (h : l.Nested c method s name) :
    l.level (.lookup s name) < l.level (.lookup c method) := by
  obtain ⟨hbase, rfl⟩ | ⟨rfl, hname, hmethod⟩ := h
  · exact level_base hac hbase
  · exact level_interceptor hname hmethod

def answer (l : Lattice) : Nat → Nat → String → Id Lookup
  | 0, _, _ => seed
  | fuel + 1, c, method => l.lookup_body (answer l fuel) c method

/-- What a lookup answers on one class. -/
def found (l : Lattice) (c : Nat) (method : String) : Id Lookup :=
  l.answer (3 * (l.size + 1)) c method

def found_in_cone (l : Lattice) (c : Nat) (method : String) : Id Lookup :=
  l.cone_body l.found c method

def spec (l : Lattice) : Key → Lookup
  | .lookup c method => l.found c method
  | .cone c method => l.found_in_cone c method
  | .super c method => l.super_body (m := Id) l.found c method
  | .ext method => l.ext_body (m := Id) l.found l.found_in_cone method

/-! ### The bodies use the nested lookups only -/

section bodies

variable {level : Key → Nat} {spec : Key → Lookup} {n : Nat}
  {look : Nat → String → Memoized Key Lookup Lookup} {given : Nat → String → Id Lookup}

theorem answers_visit {exclude : Option (List Nat)} {b : Base} (out : Lookup)
    (h : ∀ cs, b = .Classes cs → ∀ s ∈ cs, Answers level spec n (look s method) (given s method)) :
    Answers level spec n (visit look method exclude out b) (visit given method exclude out b) := by
  cases b with
  | Open => exact .pure _
  | Unknown => exact .pure _
  | Classes cs =>
    refine Answers.foldlM (fun acc s hs => ?_) out
    exact (h cs rfl s (List.mem_of_mem_filter hs)).bind (.pure _)

theorem answers_nearest (l : Lattice) (c : Nat)
    (h : ∀ s, l.IsBase s c → Answers level spec n (look s method) (given s method)) :
    Answers level spec n (l.nearest look c method) (l.nearest given c method) := by
  rw [nearest, nearest]
  split
  · exact .pure _
  split
  · exact .pure _
  refine Answers.foldlM (fun acc b hb => answers_visit acc ?_) _
  intro cs hcs s hs
  exact h s ⟨cs, hcs ▸ hb, hs⟩

theorem answers_intercepted (c : Nat) (out : Lookup)
    (h : ∀ name, l.Nested c method c name → Answers level spec n (look c name) (given c name)) :
    Answers level spec n (intercepted look c method out) (intercepted given c method out) := by
  rw [intercepted, intercepted]
  split
  · exact .pure _
  rename_i hmethod
  refine (h _ (.inr ⟨rfl, .inr rfl, hmethod⟩)).bind ?_
  change Answers level spec n _
    (if (given c GETATTRIBUTE : Lookup).targets ≠ ∅ then Pure.pure true else _ : Id Bool)
  split
  · exact .pure _
  · exact (h _ (.inr ⟨rfl, .inl rfl, hmethod⟩)).bind (.pure _)

theorem answers_lookup_body (c : Nat) (method : String)
    (h : ∀ s name, l.Nested c method s name → Answers level spec n (look s name) (given s name)) :
    Answers level spec n (l.lookup_body look c method) (l.lookup_body given c method) :=
  (answers_nearest l c fun s hs => h s method (.inl ⟨hs, rfl⟩)).bind
    ((answers_intercepted c _ fun name hname => h c name hname).bind (.pure _))

theorem answers_floating_base (exclude : Option (List Nat)) (out : Lookup) (s : Nat)
    (h : Answers level spec n (look s method) (given s method)) :
    Answers level spec n (l.floating_base look method exclude out s)
      (l.floating_base given method exclude out s) := by
  rw [floating_base, floating_base]
  split
  · exact h.bind (.pure _)
  split
  · split
    · exact .pure _
    · split <;> exact .pure _
  · exact .pure _

theorem answers_floating_part (exclude : Option (List Nat))
    (h : ∀ s, Answers level spec n (look s method) (given s method)) :
    Answers level spec n (l.floating_part look method exclude)
      (l.floating_part given method exclude) := by
  refine Answers.foldlM (fun acc f _ => ?_) _
  rw [floating_class, floating_class]
  split
  · exact .pure _
  split
  · exact .pure _
  · exact Answers.foldlM (fun acc s _ => answers_floating_base exclude acc s (h s)) acc

theorem answers_cone_body (c : Nat)
    (h : ∀ s, Answers level spec n (look s method) (given s method)) :
    Answers level spec n (l.cone_body look c method) (l.cone_body given c method) := by
  refine (Answers.foldlM (fun acc s _ => ?_) _).bind ((answers_floating_part none h).bind (.pure _))
  exact (h s).bind (.pure (acc.extend_cone (given s method)))

theorem answers_super_body (c : Nat)
    (h : ∀ s, Answers level spec n (look s method) (given s method)) :
    Answers level spec n (l.super_body look c method) (l.super_body given c method) :=
  (Answers.foldlM (fun _ _ _ =>
      Answers.foldlM (fun acc _ _ => answers_visit acc fun _ _ s _ => h s) _) _).bind
    ((answers_floating_part _ h).bind (.pure _))

theorem answers_ext_body {cone_look : Nat → String → Memoized Key Lookup Lookup}
    {cone_given : Nat → String → Id Lookup}
    (h : ∀ s, Answers level spec n (look s method) (given s method))
    (hcone : ∀ s, Answers level spec n (cone_look s method) (cone_given s method)) :
    Answers level spec n (l.ext_body look cone_look method)
      (l.ext_body given cone_given method) := by
  refine (Answers.foldlM (fun acc s _ => ?_) _).bind ((answers_floating_part none h).bind (.pure _))
  exact (hcone s).bind (.pure (acc.extend (cone_given s method)))

end bodies

/-! ### The memoized lookups answer the same whatever was looked up before -/

theorem foldlM_given_congr {α : Type} {f g : Lookup → α → Id Lookup} {xs : List α}
    (h : ∀ acc, ∀ x ∈ xs, f acc x = g acc x) (acc : Lookup) : xs.foldlM f acc = xs.foldlM g acc := by
  induction xs generalizing acc with
  | nil => rfl
  | cons x rest ih =>
    rw [List.foldlM_cons, List.foldlM_cons, h acc x List.mem_cons_self]
    exact ih (fun acc y hy => h acc y (List.mem_cons_of_mem x hy)) (g acc x)

theorem lookup_body_congr {given given' : Nat → String → Id Lookup}
    (h : ∀ s name, l.Nested c method s name → given s name = given' s name) :
    l.lookup_body given c method = l.lookup_body given' c method := by
  have hnearest : l.nearest given c method = l.nearest given' c method := by
    rw [nearest, nearest]
    split
    · rfl
    split
    · rfl
    refine foldlM_given_congr (fun acc b hb => ?_) _
    cases b with
    | Open => rfl
    | Unknown => rfl
    | Classes cs =>
      refine foldlM_given_congr (fun acc s hs => ?_) acc
      rw [h s method (.inl ⟨⟨cs, hb, List.mem_of_mem_filter hs⟩, rfl⟩)]
  have hhit : ∀ out, intercepted given c method out = intercepted given' c method out := by
    intro out
    rw [intercepted, intercepted]
    split
    · rfl
    rename_i hmethod
    rw [h c GETATTRIBUTE (.inr ⟨rfl, .inr rfl, hmethod⟩), h c GETATTR (.inr ⟨rfl, .inl rfl, hmethod⟩)]
  simp only [lookup_body, hnearest, hhit]

/-- More fuel than the level changes nothing. -/
theorem answer_congr (hac : l.Acyclic) {fuel fuel' : Nat}
    (hfuel : l.level (.lookup c method) < fuel) (hfuel' : l.level (.lookup c method) < fuel') :
    l.answer fuel c method = l.answer fuel' c method := by
  induction fuel generalizing fuel' c method with
  | zero => omega
  | succ fuel ih =>
    obtain ⟨fuel', rfl⟩ : ∃ k, fuel' = k + 1 := ⟨fuel' - 1, by omega⟩
    rw [answer, answer]
    refine lookup_body_congr fun s name hnested => ?_
    have hlt := level_nested hac hnested
    exact ih (by omega) (by omega)

theorem level_lt_fuel (c : Nat) (method : String) :
    l.level (.lookup c method) < 3 * (l.size + 1) := by
  have hlevel := l.level_lookup_le c method
  omega

/-- A lookup answers what its body makes of the nested lookups' answers. -/
theorem found_eq (hac : l.Acyclic) (c : Nat) (method : String) :
    l.found c method = l.lookup_body l.found c method := by
  have hlt := l.level_lt_fuel c method
  rw [found, answer_congr hac hlt (Nat.lt_succ_of_lt hlt), answer]
  rfl

theorem answers_lookup_id (hac : l.Acyclic) {fuel : Nat}
    (hfuel : l.level (.lookup c method) < fuel) :
    Answers l.level l.spec (l.level (.lookup c method) + 1) (l.lookup_id fuel c method)
      (l.found c method) := by
  induction fuel generalizing c method with
  | zero => omega
  | succ fuel ih =>
    refine Answers.memoize (Key.lookup c method) (some seed) ?_
    change Answers l.level l.spec _ _ (l.found c method)
    rw [found_eq hac]
    refine answers_lookup_body c method fun s name hnested => ?_
    have hlt := level_nested hac hnested
    exact (ih (by omega)).mono (by omega)

theorem answers_lookup (hac : l.Acyclic) (c : Nat) (method : String) :
    Answers l.level l.spec (2 * l.size + 2) (l.lookup c method) (l.found c method) :=
  (answers_lookup_id hac (l.level_lt_fuel c method)).mono (l.level_lookup_le c method)

theorem answers_cone_lookup (hac : l.Acyclic) (c : Nat) (method : String) :
    Answers l.level l.spec (2 * l.size + 3) (l.cone_lookup c method) (l.found_in_cone c method) :=
  Answers.memoize (Key.cone c method) none
    (answers_cone_body c fun s => answers_lookup hac s method)

theorem answers_ask (hac : l.Acyclic) (key : Key) :
    Answers l.level l.spec (2 * l.size + 4) (l.ask key) (l.spec key) := by
  cases key with
  | lookup c method => exact (answers_lookup hac c method).mono (by omega)
  | cone c method => exact (answers_cone_lookup hac c method).mono (by omega)
  | super c method =>
    refine Answers.mono (n := 2 * l.size + 3) (by omega)
      (Answers.memoize (Key.super c method) none ?_)
    exact answers_super_body c fun s => answers_lookup hac s method
  | ext method =>
    refine Answers.memoize (Key.ext method) none ?_
    exact answers_ext_body (fun s => (answers_lookup hac s method).mono (Nat.le_succ _))
      fun s => answers_cone_lookup hac s method

/-- The tables of a lattice on which `calls` were made, from the empty ones. -/
def after (l : Lattice) (calls : List Key) : Option (Table Key Lookup) :=
  ((calls.mapM l.ask).run fun _ => none).map Prod.snd

/-- After any lookups, a lookup answers as it does from the empty tables. -/
theorem ask_after (hac : l.Acyclic) (calls : List Key) (key : Key) :
    ∃ table, l.after calls = some table ∧ ∃ table', l.ask key table = some (l.spec key, table') := by
  obtain ⟨table, hrun, hright⟩ := answers_after fun key (_ : key ∈ calls) => answers_ask hac key
  obtain ⟨table', hask, -⟩ := answers_ask hac key table hright
  exact ⟨table, by rw [after, hrun]; rfl, table', hask⟩

end cgx.receiver.Lattice
