import Mathlib.Data.List.Basic

namespace results

variable {ε α β : Type}

/-- A sequenced computation succeeds when both of its parts do. -/
theorem bind_ok_iff {x : Except ε α} {f : α → Except ε β} {r : β} :
    (x >>= f) = .ok r ↔ ∃ a, x = .ok a ∧ f a = .ok r := by
  cases x with
  | error e => simp [bind, Except.bind]
  | ok a => simp [bind, Except.bind]

theorem except_bind_ok (a : α) (f : α → Except ε β) : (Except.ok a >>= f) = f a := rfl

theorem pure_ok_iff {a r : α} : (pure a : Except ε α) = .ok r ↔ a = r := by
  simp [pure, Except.pure]

/-- A loop whose every round succeeds collects the results. -/
theorem mapM_ok {f : α → Except ε β} {h : α → β} {l : List α} (hf : ∀ a ∈ l, f a = .ok (h a)) :
    l.mapM f = .ok (l.map h) := by
  induction l with
  | nil => rfl
  | cons a rest ih =>
    rw [List.mapM_cons, hf a List.mem_cons_self, ih fun b hb => hf b (List.mem_cons_of_mem a hb)]
    rfl

/-- The same for a loop over images. -/
theorem mapM_map_ok {γ : Type} {f : α → Except ε β} {k : γ → α} {h : γ → β} {l : List γ}
    (hf : ∀ a ∈ l, f (k a) = .ok (h a)) : (l.map k).mapM f = .ok (l.map h) := by
  rw [List.mapM_map]
  exact mapM_ok hf

/-- A loop whose every round succeeds with a result related to its input. -/
theorem mapM_forall₂ {f : α → Except ε β} {R : α → β → Prop} {l : List α}
    (hf : ∀ a ∈ l, ∃ b, f a = .ok b ∧ R a b) : ∃ bs, l.mapM f = .ok bs ∧ List.Forall₂ R l bs := by
  induction l with
  | nil => exact ⟨[], rfl, .nil⟩
  | cons a rest ih =>
    obtain ⟨b, hb, hR⟩ := hf a List.mem_cons_self
    obtain ⟨bs, hbs, hRs⟩ := ih fun a ha => hf a (List.mem_cons_of_mem _ ha)
    exact ⟨b :: bs, by rw [List.mapM_cons, hb, hbs]; rfl, .cons hR hRs⟩

/-- A loop that succeeds has the results of its rounds. -/
theorem forall₂_of_mapM {f : α → Except ε β} {l : List α} {r : List β} (h : l.mapM f = .ok r) :
    List.Forall₂ (fun a b => f a = .ok b) l r := by
  induction l generalizing r with
  | nil =>
    cases h
    exact .nil
  | cons a rest ih =>
    rw [List.mapM_cons] at h
    obtain ⟨b, hb, h⟩ := bind_ok_iff.mp h
    obtain ⟨bs, hbs, h⟩ := bind_ok_iff.mp h
    cases h
    exact .cons hb (ih hbs)

theorem exists_of_mem_mapM {f : α → Except ε β} {l : List α} {r : List β} (h : l.mapM f = .ok r) {b : β} (hb : b ∈ r) :
    ∃ a ∈ l, f a = .ok b := by
  have hall := forall₂_of_mapM h
  clear h
  induction hall with
  | nil => cases hb
  | @cons a _ _ _ ha _ ih =>
    obtain rfl | hb := List.mem_cons.mp hb
    · exact ⟨a, List.mem_cons_self, ha⟩
    · obtain ⟨a', ha', hround⟩ := ih hb
      exact ⟨a', List.mem_cons_of_mem _ ha', hround⟩

theorem result_of_mem_mapM {f : α → Except ε β} {l : List α} {r : List β} (h : l.mapM f = .ok r) {a : α} (ha : a ∈ l) :
    ∃ b ∈ r, f a = .ok b := by
  have hall := forall₂_of_mapM h
  clear h
  induction hall with
  | nil => cases ha
  | @cons a' b _ _ hround _ ih =>
    obtain rfl | ha := List.mem_cons.mp ha
    · exact ⟨b, List.mem_cons_self, hround⟩
    · obtain ⟨b', hb', hround'⟩ := ih ha
      exact ⟨b', List.mem_cons_of_mem _ hb', hround'⟩

/-- Loops with the same results have the same rounds. -/
theorem eq_on_of_mapM {f g : α → Except ε β} {l : List α} {r : List β} (hf : l.mapM f = .ok r) (hg : l.mapM g = .ok r) :
    ∀ a ∈ l, f a = g a := by
  induction l generalizing r with
  | nil => exact fun a ha => absurd ha List.not_mem_nil
  | cons first rest ih =>
    rw [List.mapM_cons] at hf hg
    obtain ⟨b, hb, hf⟩ := bind_ok_iff.mp hf
    obtain ⟨bs, hbs, hf⟩ := bind_ok_iff.mp hf
    obtain ⟨b', hb', hg⟩ := bind_ok_iff.mp hg
    obtain ⟨bs', hbs', hg⟩ := bind_ok_iff.mp hg
    cases hf
    cases hg
    intro a ha
    obtain rfl | ha := List.mem_cons.mp ha
    · rw [hb, hb']
    · exact ih hbs hbs' a ha

/-- A loop whose rounds give at least the results of another gives its results. -/
theorem mapM_mono {f g : α → Except ε β} {l : List α} {r : List β} (hg : ∀ a ∈ l, ∀ b, f a = .ok b → g a = .ok b)
    (h : l.mapM f = .ok r) : l.mapM g = .ok r := by
  induction l generalizing r with
  | nil => exact h
  | cons a rest ih =>
    rw [List.mapM_cons] at h
    obtain ⟨b, hb, h⟩ := bind_ok_iff.mp h
    obtain ⟨bs, hbs, h⟩ := bind_ok_iff.mp h
    rw [List.mapM_cons, hg a List.mem_cons_self b hb, ih (fun a ha => hg a (List.mem_cons_of_mem _ ha)) hbs]
    exact h

/-- The order of a loop decides the order of its results only. -/
theorem mapM_perm {f : α → Except ε β} {l l' : List α} (hperm : l.Perm l') {r : List β}
    (h : l.mapM f = .ok r) : ∃ r', l'.mapM f = .ok r' ∧ r.Perm r' := by
  induction hperm generalizing r with
  | nil => exact ⟨r, h, .refl r⟩
  | cons a _ ih =>
    rw [List.mapM_cons] at h
    obtain ⟨b, hb, h⟩ := bind_ok_iff.mp h
    obtain ⟨rest, hrest, h⟩ := bind_ok_iff.mp h
    cases h
    obtain ⟨rest', hrest', hperm⟩ := ih hrest
    exact ⟨b :: rest', by rw [List.mapM_cons, hb, hrest']; rfl, hperm.cons b⟩
  | swap a a' l =>
    simp only [List.mapM_cons] at h
    obtain ⟨b', hb', h⟩ := bind_ok_iff.mp h
    obtain ⟨tail, htail, h⟩ := bind_ok_iff.mp h
    obtain ⟨b, hb, htail⟩ := bind_ok_iff.mp htail
    obtain ⟨rest, hrest, htail⟩ := bind_ok_iff.mp htail
    cases htail
    cases h
    exact ⟨b :: b' :: rest, by simp only [List.mapM_cons, hb, hb', hrest]; rfl, .swap b b' rest⟩
  | trans _ _ ih ih' =>
    obtain ⟨mid, hmid, hperm⟩ := ih h
    obtain ⟨r', hr', hperm'⟩ := ih' hmid
    exact ⟨r', hr', hperm.trans hperm'⟩

end results
