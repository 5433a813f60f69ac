import Cgx.Select.Simulate

namespace cgx.select

/-! ### What a pattern means -/

/-- What a pattern segment consumes: any segments for `**`, and one that the matcher accepts
otherwise. -/
def PatternSeg.Consumes : PatternSeg → List String → Prop
  | .Globstar, _ => True
  | .Segment m, part => ∃ seg, part = [seg] ∧ m.matches seg = true

/-- The segments fall into parts, one for each pattern segment in order, which consumes it. -/
def Splits (pattern : List PatternSeg) (segments : List String) : Prop :=
  ∃ parts : List (List String), parts.flatten = segments ∧ List.Forall₂ PatternSeg.Consumes pattern parts

theorem splits_nil {segments : List String} : Splits [] segments ↔ segments = [] := by
  constructor
  · rintro ⟨parts, rfl, hparts⟩
    cases hparts
    rfl
  · rintro rfl
    exact ⟨[], rfl, .nil⟩

theorem Splits.cons {seg : PatternSeg} {rest : List PatternSeg} (part : List String) {segments : List String}
    (hpart : seg.Consumes part) (h : Splits rest segments) : Splits (seg :: rest) (part ++ segments) := by
  obtain ⟨parts, rfl, hparts⟩ := h
  exact ⟨part :: parts, rfl, .cons hpart hparts⟩

theorem splits_cons {seg : PatternSeg} {rest : List PatternSeg} {segments : List String} :
    Splits (seg :: rest) segments ↔ ∃ part tail, segments = part ++ tail ∧ seg.Consumes part ∧ Splits rest tail := by
  constructor
  · rintro ⟨parts, rfl, hparts⟩
    cases hparts with
    | @cons _ part _ parts hpart hparts => exact ⟨part, parts.flatten, rfl, hpart, parts, rfl, hparts⟩
  · rintro ⟨part, tail, rfl, hpart, htail⟩
    exact Splits.cons part hpart htail

/-- A `**` can consume one segment more. -/
theorem Splits.globstar_cons {rest : List PatternSeg} {segments : List String} (seg : String)
    (h : Splits (.Globstar :: rest) segments) : Splits (.Globstar :: rest) (seg :: segments) := by
  obtain ⟨part, tail, rfl, _, htail⟩ := splits_cons.mp h
  exact splits_cons.mpr ⟨seg :: part, tail, rfl, trivial, htail⟩

/-! ### The compiled automaton -/

/-- The state from which the `i`-th pattern segment is consumed. -/
def seg_state (i : Nat) : PatternSeg → State
  | .Globstar => ⟨[i + 1], [(.Any, i)]⟩
  | .Segment m => ⟨[], [(.Seg m, i + 1)]⟩

theorem modify_length {γ : Type} (l : List γ) (a : γ) (rest : List γ) (f : γ → γ) :
    (l ++ a :: rest).modify l.length f = l ++ f a :: rest := by
  induction l with
  | nil => rfl
  | cons b l ih => rw [List.cons_append, List.length_cons, List.modify_succ_cons, ih, List.cons_append]

/-- Compiling a segment replaces the empty last state by the state of the segment. -/
theorem compile_seg_concat (states : List State) (seg : PatternSeg) :
    Nfa.compile_seg (states ++ [.default], states.length) seg =
      (states ++ [seg_state states.length seg] ++ [.default], states.length + 1) := by
  have hlen : (states ++ [State.default]).length = states.length + 1 := List.length_append
  cases seg with
  | Globstar =>
    simp only [Nfa.compile_seg, hlen, modify_length, List.append_assoc, List.cons_append, List.nil_append]
    rfl
  | Segment m =>
    simp only [Nfa.compile_seg, hlen, modify_length, List.append_assoc, List.cons_append, List.nil_append]
    rfl

theorem compile_eq (segments : List PatternSeg) :
    segments.foldl Nfa.compile_seg ([.default], 0) = (segments.mapIdx seg_state ++ [.default], segments.length) := by
  induction segments using List.reverseRecOn with
  | nil => rfl
  | append_singleton segments seg ih =>
    have hlen : (segments.mapIdx seg_state).length = segments.length := List.length_mapIdx
    have hstep := compile_seg_concat (segments.mapIdx seg_state) seg
    rw [hlen] at hstep
    rw [List.foldl_append, ih, List.foldl_cons, List.foldl_nil, hstep, List.mapIdx_append, List.length_append]
    simp

variable {pattern : Pattern}

theorem compile_states (pattern : Pattern) :
    (Nfa.compile pattern).states = pattern.segments.mapIdx seg_state ++ [.default] := by
  simp only [Nfa.compile, compile_eq]

theorem compile_accept (pattern : Pattern) : (Nfa.compile pattern).accept = pattern.segments.length := by
  simp only [Nfa.compile, compile_eq]

theorem length_compile (pattern : Pattern) : (Nfa.compile pattern).states.length = pattern.segments.length + 1 := by
  rw [compile_states, List.length_append, List.length_mapIdx]
  rfl

theorem state_compile {i : Nat} {seg : PatternSeg} (h : pattern.segments[i]? = some seg) :
    (Nfa.compile pattern).state i = seg_state i seg := by
  obtain ⟨hi, _⟩ := List.getElem?_eq_some_iff.mp h
  have hlen : i < (pattern.segments.mapIdx seg_state).length := by rwa [List.length_mapIdx]
  rw [Nfa.state, compile_states, List.getD_eq_getElem?_getD, List.getElem?_append_left hlen, List.getElem?_mapIdx, h]
  rfl

theorem state_compile_of_none {i : Nat} (h : pattern.segments[i]? = none) :
    (Nfa.compile pattern).state i = .default := by
  have hlen : (pattern.segments.mapIdx seg_state).length ≤ i := by
    rw [List.length_mapIdx]
    exact List.getElem?_eq_none_iff.mp h
  rw [Nfa.state, compile_states, List.getD_eq_getElem?_getD, List.getElem?_append_right hlen]
  cases i - (pattern.segments.mapIdx seg_state).length <;> rfl

/-- The transitions of a compiled automaton without a segment: from a `**` forward. -/
theorem mem_eps_compile {i t : Nat} :
    t ∈ ((Nfa.compile pattern).state i).eps ↔ pattern.segments[i]? = some .Globstar ∧ t = i + 1 := by
  cases h : pattern.segments[i]? with
  | none => simp [state_compile_of_none h, State.default]
  | some seg =>
    rw [state_compile h]
    cases seg <;> simp [seg_state]

/-- Those on a segment: a `**` stays, and a matcher that accepts it goes forward. -/
theorem mem_edges_compile {i t : Nat} {m : EdgeMatcher} :
    (m, t) ∈ ((Nfa.compile pattern).state i).edges ↔
      pattern.segments[i]? = some .Globstar ∧ m = .Any ∧ t = i ∨
        ∃ sm, pattern.segments[i]? = some (.Segment sm) ∧ m = .Seg sm ∧ t = i + 1 := by
  cases h : pattern.segments[i]? with
  | none => simp [state_compile_of_none h, State.default]
  | some seg =>
    rw [state_compile h]
    cases seg <;> simp [seg_state]

theorem lt_of_getElem?_eq_some {i : Nat} {seg : PatternSeg} (h : pattern.segments[i]? = some seg) :
    i + 1 < (Nfa.compile pattern).states.length := by
  rw [length_compile]
  obtain ⟨hi, _⟩ := List.getElem?_eq_some_iff.mp h
  omega

theorem forward_compile (pattern : Pattern) : (Nfa.compile pattern).Forward := by
  refine ⟨?_, fun s t ht => ?_, fun s e he => ?_⟩
  · rw [length_compile]
    exact Nat.succ_pos _
  · obtain ⟨hs, rfl⟩ := mem_eps_compile.mp ht
    exact ⟨Nat.lt_succ_self s, lt_of_getElem?_eq_some hs⟩
  · obtain ⟨hs, _, ht⟩ | ⟨sm, hs, _, ht⟩ := mem_edges_compile.mp he
    · rw [ht]
      exact Nat.lt_of_succ_lt (lt_of_getElem?_eq_some hs)
    · rw [ht]
      exact lt_of_getElem?_eq_some hs

/-! ### It accepts what the pattern means -/

theorem step_none {i t : Nat} :
    t ∈ (Nfa.compile pattern).machine.step i none ↔ pattern.segments[i]? = some .Globstar ∧ t = i + 1 :=
  mem_eps_compile

theorem step_some {i t : Nat} {seg : String} :
    t ∈ (Nfa.compile pattern).machine.step i (some seg) ↔
      pattern.segments[i]? = some .Globstar ∧ t = i ∨
        ∃ sm, pattern.segments[i]? = some (.Segment sm) ∧ sm.matches seg = true ∧ t = i + 1 := by
  have hstep : t ∈ (Nfa.compile pattern).machine.step i (some seg) ↔
      ∃ m, (m, t) ∈ ((Nfa.compile pattern).state i).edges ∧ m.matches seg = true := Iff.rfl
  rw [hstep]
  constructor
  · rintro ⟨m, hm, hmatch⟩
    obtain ⟨hi, _, ht⟩ | ⟨sm, hi, rfl, ht⟩ := mem_edges_compile.mp hm
    · exact .inl ⟨hi, ht⟩
    · exact .inr ⟨sm, hi, hmatch, ht⟩
  · rintro (⟨hi, ht⟩ | ⟨sm, hi, hmatch, ht⟩)
    · exact ⟨.Any, mem_edges_compile.mpr (.inl ⟨hi, rfl, ht⟩), rfl⟩
    · exact ⟨.Seg sm, mem_edges_compile.mpr (.inr ⟨sm, hi, rfl, ht⟩), hmatch⟩

theorem drop_eq_cons {i : Nat} {seg : PatternSeg} (h : pattern.segments[i]? = some seg) :
    pattern.segments.drop i = seg :: pattern.segments.drop (i + 1) := by
  obtain ⟨hi, rfl⟩ := List.getElem?_eq_some_iff.mp h
  exact List.drop_eq_getElem_cons hi

/-- What a path to the end consumes is split by the pattern segments from its start on. -/
theorem splits_of_path {i n : Nat} {word : List (Option String)} (hn : pattern.segments.length ≤ n)
    (hpath : (Nfa.compile pattern).machine.IsPath i n word) :
    Splits (pattern.segments.drop i) word.reduceOption := by
  induction hpath with
  | nil s =>
    rw [List.drop_eq_nil_of_le hn]
    exact splits_nil.mpr rfl
  | cons t s u a x hstep _ ih =>
    cases a with
    | none =>
      obtain ⟨hs, rfl⟩ := step_none.mp hstep
      rw [drop_eq_cons hs, List.reduceOption_cons_of_none]
      exact Splits.cons [] trivial (ih hn)
    | some seg =>
      rw [List.reduceOption_cons_of_some]
      obtain ⟨hs, rfl⟩ | ⟨sm, hs, hmatch, rfl⟩ := step_some.mp hstep
      · have hrest := ih hn
        rw [drop_eq_cons hs] at hrest ⊢
        exact hrest.globstar_cons seg
      · rw [drop_eq_cons hs]
        exact Splits.cons [seg] ⟨seg, rfl, hmatch⟩ (ih hn)

/-- A `**` goes on after any number of segments. -/
theorem exists_path_globstar {i n : Nat} (hi : pattern.segments[i]? = some .Globstar) {word : List (Option String)}
    (hpath : (Nfa.compile pattern).machine.IsPath (i + 1) n word) (part : List String) :
    (Nfa.compile pattern).machine.IsPath i n (part.map some ++ none :: word) := by
  induction part with
  | nil => exact .cons (i + 1) i n none word (step_none.mpr ⟨hi, rfl⟩) hpath
  | cons seg part ih => exact .cons i i n (some seg) _ (step_some.mpr (.inl ⟨hi, rfl⟩)) ih

theorem exists_path_of_splits {i : Nat} (hi : i ≤ pattern.segments.length) {segments : List String}
    (h : Splits (pattern.segments.drop i) segments) :
    ∃ word, word.reduceOption = segments ∧
      (Nfa.compile pattern).machine.IsPath i pattern.segments.length word := by
  generalize hm : pattern.segments.length - i = m
  induction m generalizing i segments with
  | zero =>
    obtain rfl : i = pattern.segments.length := by omega
    rw [List.drop_length, splits_nil] at h
    exact ⟨[], h.symm, .nil _⟩
  | succ m ih =>
    obtain ⟨seg, hseg⟩ : ∃ seg, pattern.segments[i]? = some seg := ⟨_, List.getElem?_eq_getElem (by omega)⟩
    rw [drop_eq_cons hseg] at h
    obtain ⟨part, tail, rfl, hpart, htail⟩ := splits_cons.mp h
    obtain ⟨word, rfl, hpath⟩ := ih (by omega) htail (by omega)
    cases seg with
    | Globstar =>
      refine ⟨part.map some ++ none :: word, ?_, exists_path_globstar hseg hpath part⟩
      rw [List.reduceOption_append, List.reduceOption_cons_of_none, List.reduceOption, List.filterMap_map]
      exact congrArg (· ++ _) List.filterMap_some
    | Segment sm =>
      obtain ⟨s, rfl, hmatch⟩ := hpart
      exact ⟨some s :: word, List.reduceOption_cons_of_some s word,
        .cons (i + 1) i _ (some s) word (step_some.mpr (.inr ⟨sm, hseg, hmatch, rfl⟩)) hpath⟩

/-- The automaton of a pattern accepts the segments that the pattern splits. -/
theorem mem_accepts_compile {segments : List String} :
    segments ∈ (Nfa.compile pattern).machine.accepts ↔ Splits pattern.segments segments := by
  rw [εNFA.mem_accepts_iff_exists_path]
  constructor
  · rintro ⟨s, t, word, hs, ht, rfl, hpath⟩
    have hstart : s = 0 := hs
    have haccept : t = pattern.segments.length := Eq.trans ht (compile_accept pattern)
    have hsplits := splits_of_path haccept.ge hpath
    rwa [hstart, List.drop_zero] at hsplits
  · intro h
    obtain ⟨word, hword, hpath⟩ := exists_path_of_splits (Nat.zero_le pattern.segments.length) h
    exact ⟨0, pattern.segments.length, word, rfl, (compile_accept pattern).symm, hword, hpath⟩

/-- The simulation of a compiled pattern ends. Segments that it reports as matched are split
by the pattern, with any cap, and without truncation all of those are. -/
theorem simulate_matches_pattern (pattern : Pattern) (segments : List String) (cap : Nat) :
    ∃ outcome, (Nfa.compile pattern).simulate segments cap = some outcome ∧
      (outcome.matched = true → Splits pattern.segments segments) ∧
      (outcome.truncated = false → Splits pattern.segments segments → outcome.matched = true) := by
  obtain ⟨outcome, hrun, hsound, hcomplete⟩ := (forward_compile pattern).simulate_spec segments cap
  exact ⟨outcome, hrun, fun hmatched => mem_accepts_compile.mp (hsound hmatched),
    fun htruncated hsplits => hcomplete htruncated (mem_accepts_compile.mpr hsplits)⟩

end cgx.select
