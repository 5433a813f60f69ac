import Cgx.Lib.Result

namespace parsing

variable {τ ε α β : Type}

/-- A parser takes tokens off the front of its input. -/
abbrev Parser (τ ε α : Type) := StateT (List τ) (Except ε) α

/-! ### Shapes of texts -/

/-- Texts of the items, one behind the other. -/
inductive Many (R : α → List τ → Prop) : List α → List τ → Prop
  | nil : Many R [] []
  | cons {a : α} {as : List α} {u v : List τ} (head : R a u) (tail : Many R as v) : Many R (a :: as) (u ++ v)

/-- An optional part. -/
inductive Opt (R : α → List τ → Prop) : Option α → List τ → Prop
  | none : Opt R none []
  | some {a : α} {u : List τ} (part : R a u) : Opt R (some a) u

/-- A text behind a token. -/
inductive After (opens : τ → Prop) (R : α → List τ → Prop) : α → List τ → Prop
  | intro {t : τ} {a : α} {u : List τ} (token : opens t) (part : R a u) : After opens R a (t :: u)

/-- At least one item, with a token between each two. -/
inductive Separated (comma : τ → Prop) (R : α → List τ → Prop) : List α → List τ → Prop
  | intro {a : α} {as : List α} {u v : List τ} (head : R a u) (tail : Many (After comma R) as v) :
    Separated comma R (a :: as) (u ++ v)

/-- A run of steps, each of which reads a text. -/
inductive Run (R : α → List τ → α → Prop) : α → List τ → α → Prop
  | done {a : α} : Run R a [] a
  | step {a b c : α} {u v : List τ} (head : R a u b) (tail : Run R b v c) : Run R a (u ++ v) c

theorem Many.imp {R S : α → List τ → Prop} (h : ∀ a u, R a u → S a u) {as : List α} {u : List τ} (hm : Many R as u) :
    Many S as u := by
  induction hm with
  | nil => exact .nil
  | cons head _ ih => exact .cons (h _ _ head) ih

theorem After.imp {opens : τ → Prop} {R S : α → List τ → Prop} (h : ∀ a u, R a u → S a u) {a : α} {u : List τ}
    (ha : After opens R a u) : After opens S a u := by
  cases ha with
  | intro token part => exact .intro token (h _ _ part)

theorem Run.imp {R S : α → List τ → α → Prop} (h : ∀ a u b, R a u b → S a u b) {a b : α} {u : List τ}
    (hr : Run R a u b) : Run S a u b := by
  induction hr with
  | done => exact .done
  | step head _ ih => exact .step (h _ _ _ head) ih

/-! ### Loops -/

/-- Items as long as the guard holds. Every item takes a token, which bounds the rounds. -/
def many_within (guard : List τ → Bool) (item : Parser τ ε α) : Nat → Parser τ ε (List α)
  | 0 => pure []
  | fuel + 1 => do
    if guard (← get) then
      let a ← item
      let as ← many_within guard item fuel
      return a :: as
    else return []

def many (guard : List τ → Bool) (item : Parser τ ε α) : Parser τ ε (List α) :=
  fun input => many_within guard item input.length input

/-- Steps from a value as long as the guard holds. -/
def loop_within (guard : List τ → Bool) (step : α → Parser τ ε α) : Nat → α → Parser τ ε α
  | 0, a => pure a
  | fuel + 1, a => do
    if guard (← get) then
      let b ← step a
      loop_within guard step fuel b
    else return a

def loop (guard : List τ → Bool) (step : α → Parser τ ε α) (a : α) : Parser τ ε α :=
  fun input => loop_within guard step input.length a input

/-! ### What a parser reads -/

/-- What the parser takes off this input is a text that `R` gives its result. -/
def ReadsAt (p : Parser τ ε α) (R : α → List τ → Prop) (input : List τ) : Prop :=
  ∀ ⦃a : α⦄ ⦃rest : List τ⦄, p input = .ok (a, rest) → ∃ used, input = used ++ rest ∧ R a used

def Reads (p : Parser τ ε α) (R : α → List τ → Prop) : Prop :=
  ∀ input, ReadsAt p R input

theorem bind_run (p : Parser τ ε α) (f : α → Parser τ ε β) (input : List τ) :
    (p >>= f) input = p input >>= fun r => f r.1 r.2 := rfl

theorem get_run (f : List τ → Parser τ ε α) (input : List τ) : (get >>= f) input = f input input := rfl

theorem pure_run (a : α) (input : List τ) : (pure a : Parser τ ε α) input = .ok (a, input) := rfl

theorem map_run (g : α → β) (p : Parser τ ε α) (input : List τ) :
    (g <$> p) input = p input >>= fun r => .ok (g r.1, r.2) := rfl

namespace ReadsAt

variable {input : List τ}

theorem imp {p : Parser τ ε α} {R S : α → List τ → Prop} (hp : ReadsAt p R input) (h : ∀ a u, R a u → S a u) :
    ReadsAt p S input := by
  intro a rest hrun
  obtain ⟨used, hused, hR⟩ := hp hrun
  exact ⟨used, hused, h a used hR⟩

theorem bind {p : Parser τ ε α} {f : α → Parser τ ε β} {R : α → List τ → Prop} {S : β → List τ → Prop}
    (hp : ReadsAt p R input) (hf : ∀ a u, R a u → Reads (f a) fun b v => S b (u ++ v)) : ReadsAt (p >>= f) S input := by
  intro b rest hrun
  rw [bind_run] at hrun
  obtain ⟨⟨a, mid⟩, ha, hb⟩ := results.bind_ok_iff.mp hrun
  obtain ⟨u, hu, hR⟩ := hp ha
  obtain ⟨v, hv, hS⟩ := hf a u hR mid hb
  have hmid : mid = v ++ rest := hv
  exact ⟨u ++ v, by rw [hu, hmid, List.append_assoc], hS⟩

theorem ite {c : Prop} [Decidable c] {p q : Parser τ ε α} {R : α → List τ → Prop} (hp : c → ReadsAt p R input)
    (hq : ¬ c → ReadsAt q R input) : ReadsAt (if c then p else q) R input := by
  by_cases hc : c
  · rw [if_pos hc]
    exact hp hc
  · rw [if_neg hc]
    exact hq hc

theorem get {f : List τ → Parser τ ε α} {R : α → List τ → Prop} (h : ReadsAt (f input) R input) :
    ReadsAt (get >>= f) R input :=
  h

end ReadsAt

namespace Reads

theorem pure {R : α → List τ → Prop} {a : α} (h : R a []) : Reads (pure a : Parser τ ε α) R := by
  intro input b rest hrun
  cases hrun
  exact ⟨[], rfl, h⟩

theorem imp {p : Parser τ ε α} {R S : α → List τ → Prop} (hp : Reads p R) (h : ∀ a u, R a u → S a u) : Reads p S :=
  fun input => (hp input).imp h

theorem bind {p : Parser τ ε α} {f : α → Parser τ ε β} {R : α → List τ → Prop} {S : β → List τ → Prop}
    (hp : Reads p R) (hf : ∀ a u, R a u → Reads (f a) fun b v => S b (u ++ v)) : Reads (p >>= f) S :=
  fun input => (hp input).bind hf

theorem map {p : Parser τ ε α} {g : α → β} {R : α → List τ → Prop} {S : β → List τ → Prop} (hp : Reads p R)
    (h : ∀ a u, R a u → S (g a) u) : Reads (g <$> p) S := by
  intro input b rest hrun
  rw [map_run] at hrun
  obtain ⟨⟨a, mid⟩, ha, hb⟩ := results.bind_ok_iff.mp hrun
  cases hb
  obtain ⟨used, hused, hR⟩ := hp input ha
  exact ⟨used, hused, h a used hR⟩

theorem get {f : List τ → Parser τ ε α} {R : α → List τ → Prop} (h : ∀ input, ReadsAt (f input) R input) :
    Reads (get >>= f) R :=
  fun input => .get (h input)

theorem ite {c : Prop} [Decidable c] {p q : Parser τ ε α} {R : α → List τ → Prop} (hp : c → Reads p R)
    (hq : ¬ c → Reads q R) : Reads (if c then p else q) R :=
  fun input => .ite (fun hc => hp hc input) fun hc => hq hc input

/-- The items of a loop are read where its guard holds. -/
theorem many {guard : List τ → Bool} {item : Parser τ ε α} {R : α → List τ → Prop}
    (h : ∀ input, guard input = true → ReadsAt item R input) : Reads (many guard item) (Many R) := by
  have hwithin : ∀ fuel, Reads (many_within guard item fuel) (Many R) := by
    intro fuel
    induction fuel with
    | zero => exact .pure .nil
    | succ fuel ih =>
      refine .get fun input => .ite (fun hguard => ?_) fun _ => (Reads.pure .nil) input
      refine (h input hguard).bind fun a u hu => ih.bind fun as v hv => .pure ?_
      rw [List.append_nil]
      exact .cons hu hv
  exact fun input => hwithin _ input

theorem loop {guard : List τ → Bool} {step : α → Parser τ ε α} {R : α → List τ → α → Prop}
    (h : ∀ a input, guard input = true → ReadsAt (step a) (fun b u => R a u b) input) (a : α) :
    Reads (loop guard step a) fun b u => Run R a u b := by
  have hwithin : ∀ fuel a, Reads (loop_within guard step fuel a) fun b u => Run R a u b := by
    intro fuel
    induction fuel with
    | zero => exact fun a => .pure .done
    | succ fuel ih =>
      intro a
      refine .get fun input => .ite (fun hguard => ?_) fun _ => (Reads.pure .done) input
      exact (h a input hguard).bind fun b u hu => (ih b).imp fun c v hv => .step hu hv
  exact fun input => hwithin _ a input

end Reads

/-! ### Which texts a parser takes -/

/-- The parser takes the text for the value in front of every rest that may follow. -/
def Takes (p : Parser τ ε α) (a : α) (used : List τ) (N : List τ → Prop) : Prop :=
  ∀ rest, N rest → p (used ++ rest) = .ok (a, rest)

namespace Takes

theorem pure {a : α} {N : List τ → Prop} : Takes (pure a : Parser τ ε α) a [] N := by
  intro rest _
  rfl

theorem imp {p : Parser τ ε α} {a : α} {used : List τ} {N N' : List τ → Prop} (hp : Takes p a used N)
    (h : ∀ rest, N' rest → N rest) : Takes p a used N' :=
  fun rest hrest => hp rest (h rest hrest)

theorem bind {p : Parser τ ε α} {f : α → Parser τ ε β} {a : α} {b : β} {u v : List τ} {Mid N : List τ → Prop}
    (hp : Takes p a u Mid) (hf : Takes (f a) b v N) (hmid : ∀ rest, N rest → Mid (v ++ rest)) :
    Takes (p >>= f) b (u ++ v) N := by
  intro rest hrest
  rw [bind_run, List.append_assoc, hp _ (hmid rest hrest)]
  exact hf rest hrest

/-- A further parser that reads nothing. -/
theorem bind_nil {p : Parser τ ε α} {f : α → Parser τ ε β} {a : α} {b : β} {u : List τ} {Mid N : List τ → Prop}
    (hp : Takes p a u Mid) (hf : Takes (f a) b [] N) (hmid : ∀ rest, N rest → Mid rest) :
    Takes (p >>= f) b u N := by
  rw [← List.append_nil u]
  exact hp.bind hf hmid

/-- The last step of a parser, which reads nothing more. -/
theorem bind_pure {p : Parser τ ε α} {g : α → β} {a : α} {u : List τ} {N : List τ → Prop} (hp : Takes p a u N) :
    Takes (p >>= fun a => (Pure.pure (g a) : Parser τ ε β)) (g a) u N := by
  intro rest hrest
  rw [bind_run, hp rest hrest]
  rfl

theorem get {f : List τ → Parser τ ε α} {a : α} {u : List τ} {N : List τ → Prop}
    (h : ∀ rest, N rest → f (u ++ rest) (u ++ rest) = .ok (a, rest)) : Takes (get >>= f) a u N :=
  h

/-- Items whose texts the guard and the follow condition see coming. -/
theorem many_within {guard : List τ → Bool} {item : Parser τ ε α} {N : List τ → Prop} {as : List α} {used : List τ}
    (h : Many (fun a u => u ≠ [] ∧ (∀ rest, guard (u ++ rest) = true ∧ N (u ++ rest)) ∧ Takes item a u N) as used)
    (fuel : Nat) (hfuel : used.length ≤ fuel) :
    Takes (many_within guard item fuel) as used fun rest => guard rest = false ∧ N rest := by
  induction h generalizing fuel with
  | nil =>
    intro rest hrest
    cases fuel with
    | zero => rfl
    | succ fuel =>
      rw [parsing.many_within, get_run, List.nil_append, hrest.1]
      rfl
  | @cons a as u v head tail ih =>
    obtain ⟨hne, hstart, htake⟩ := head
    have hpos := List.length_pos_iff.mpr hne
    rw [List.length_append] at hfuel
    obtain ⟨fuel, rfl⟩ : ∃ n, fuel = n + 1 := ⟨fuel - 1, by omega⟩
    intro rest hrest
    rw [parsing.many_within, get_run, List.append_assoc, (hstart _).1, if_pos rfl]
    have hnext : N (v ++ rest) := by
      cases tail with
      | nil => exact hrest.2
      | cons head _ =>
        rw [List.append_assoc]
        exact (head.2.1 _).2
    rw [bind_run, htake _ hnext, results.except_bind_ok, bind_run, ih fuel (by omega) rest hrest]
    rfl

theorem many {guard : List τ → Bool} {item : Parser τ ε α} {N : List τ → Prop} {as : List α} {used : List τ}
    (h : Many (fun a u => u ≠ [] ∧ (∀ rest, guard (u ++ rest) = true ∧ N (u ++ rest)) ∧ Takes item a u N) as used) :
    Takes (many guard item) as used fun rest => guard rest = false ∧ N rest := by
  intro rest hrest
  refine many_within h _ ?_ rest hrest
  rw [List.length_append]
  omega

/-- The same for a run of steps. -/
theorem loop {guard : List τ → Bool} {step : α → Parser τ ε α} {N : List τ → Prop} {a b : α} {used : List τ}
    (h : Run (fun a u b => u ≠ [] ∧ (∀ rest, guard (u ++ rest) = true ∧ N (u ++ rest)) ∧ Takes (step a) b u N)
      a used b) :
    Takes (loop guard step a) b used fun rest => guard rest = false ∧ N rest := by
  have hwithin : ∀ fuel, used.length ≤ fuel →
      Takes (loop_within guard step fuel a) b used fun rest => guard rest = false ∧ N rest := by
    induction h with
    | done =>
      intro fuel _ rest hrest
      cases fuel with
      | zero => rfl
      | succ fuel =>
        rw [loop_within, get_run, List.nil_append, hrest.1]
        rfl
    | @step a b c u v head tail ih =>
      intro fuel hfuel rest hrest
      obtain ⟨hne, hstart, htake⟩ := head
      have hpos := List.length_pos_iff.mpr hne
      rw [List.length_append] at hfuel
      obtain ⟨fuel, rfl⟩ : ∃ n, fuel = n + 1 := ⟨fuel - 1, by omega⟩
      rw [loop_within, get_run, List.append_assoc, (hstart _).1, if_pos rfl]
      have hnext : N (v ++ rest) := by
        cases tail with
        | done => exact hrest.2
        | step head _ =>
          rw [List.append_assoc]
          exact (head.2.1 _).2
      rw [bind_run, htake _ hnext, results.except_bind_ok]
      exact ih fuel (by omega) rest hrest
  intro rest hrest
  refine hwithin _ ?_ rest hrest
  rw [List.length_append]
  omega

end Takes

end parsing
