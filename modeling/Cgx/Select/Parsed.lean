import Mathlib.Data.List.TakeWhile
import Cgx.Lib.Result
import Cgx.Select.Segment

/-! What the parser accepts, against the grammar. -/

namespace cgx.select

/-! ### The rewrite -/

theorem bang_star_skip (skip : Nat) (l : List Char) : bang_star skip l = bang_star 0 (l.drop skip) := by
  induction skip generalizing l with
  | zero => rfl
  | succ skip ih =>
    cases l with
    | nil => rfl
    | cons c rest => rw [bang_star, ih, List.drop_succ_cons]

theorem drop_length_takeWhile {α : Type} (p : α → Bool) (l : List α) :
    l.drop (l.takeWhile p).length = l.dropWhile p := by
  calc l.drop (l.takeWhile p).length
      = (l.takeWhile p ++ l.dropWhile p).drop (l.takeWhile p).length := by rw [List.takeWhile_append_dropWhile]
    _ = l.dropWhile p := List.drop_left

theorem bang_star_move {rest : List Char} (h : rest.head? = some '*') :
    bang_star 0 ('!' :: rest) =
      (rest.takeWhile (fun c => c = '*') ++ '!' :: (bang_star 0 (rest.dropWhile fun c => c = '*')).1, true) := by
  rw [bang_star, if_pos ⟨rfl, h⟩]
  simp only [bang_star_skip (rest.takeWhile _).length, drop_length_takeWhile]

theorem bang_star_keep {c : Char} {rest : List Char} (h : ¬(c = '!' ∧ rest.head? = some '*')) :
    bang_star 0 (c :: rest) = (c :: (bang_star 0 rest).1, (bang_star 0 rest).2) := by
  rw [bang_star, if_neg h]

/-- The rewrite moves each negation, and says whether there was one to move. -/
theorem moved_bang_star (l : List Char) :
    Moved l (bang_star 0 l).1 ∧ ((bang_star 0 l).2 = true ↔ ['!', '*'] <:+: l) := by
  induction hlen : l.length using Nat.strong_induction_on generalizing l with
  | _ len ih =>
    cases l with
    | nil => exact ⟨.nil, by simp [bang_star]⟩
    | cons c rest =>
      by_cases h : c = '!' ∧ rest.head? = some '*'
      · obtain ⟨rfl, hhead⟩ := h
        obtain ⟨rest, rfl⟩ : ∃ rest', rest = '*' :: rest' := by
          cases rest with
          | nil => cases hhead
          | cons c rest => exact ⟨rest, by rw [List.head?_cons, Option.some.injEq] at hhead; rw [hhead]⟩
        rw [bang_star_move hhead]
        constructor
        · have hbehind := (ih _ (by
            have hle := (List.dropWhile_suffix (l := '*' :: rest) fun c => decide (c = '*')).length_le
            simp only [List.length_cons] at hlen hle ⊢
            omega) (('*' :: rest).dropWhile fun c => c = '*') rfl).1
          have hmove := @Moved.move (('*' :: rest).takeWhile fun c => c = '*') _ _ (by simp)
            (fun c hc => by simpa using List.mem_takeWhile_imp hc) (by
              intro hstar
              have hnot := List.head?_dropWhile_not (fun c => decide (c = '*')) ('*' :: rest)
              rw [hstar] at hnot
              simp at hnot) hbehind
          rwa [List.takeWhile_append_dropWhile] at hmove
        · exact iff_of_true rfl ⟨[], rest, rfl⟩
      · rw [bang_star_keep h]
        have hrest := ih rest.length (by rw [← hlen, List.length_cons]; omega) rest rfl
        refine ⟨.keep h hrest.1, ?_⟩
        rw [hrest.2, List.infix_cons_iff]
        refine ⟨.inr, fun hinfix => hinfix.resolve_left ?_⟩
        rintro ⟨back, hback⟩
        obtain ⟨rfl, rfl⟩ := List.cons.inj hback
        exact h ⟨rfl, rfl⟩

theorem stars_split {stars rest : List Char} (hstars : ∀ c ∈ stars, c = '*') (hrest : rest.head? ≠ some '*') :
    (stars ++ rest).takeWhile (fun c => c = '*') = stars ∧ (stars ++ rest).dropWhile (fun c => c = '*') = rest := by
  induction stars with
  | nil =>
    cases rest with
    | nil => exact ⟨rfl, rfl⟩
    | cons c rest =>
      have hc : c ≠ '*' := fun heq => hrest (by rw [heq, List.head?_cons])
      simp [hc]
  | cons c stars ih =>
    obtain rfl := hstars c List.mem_cons_self
    have htail := ih fun c hc => hstars c (List.mem_cons_of_mem _ hc)
    simpa using htail

/-- There is one way to move the negations. -/
theorem bang_star_of_moved {l out : List Char} (h : Moved l out) : (bang_star 0 l).1 = out := by
  induction h with
  | nil => rfl
  | keep hkeep _ ih => rw [bang_star_keep hkeep, ih]
  | @move stars rest out hne hstars hrest _ ih =>
    obtain ⟨htake, hdrop⟩ := stars_split hstars hrest
    have hhead : (stars ++ rest).head? = some '*' := by
      cases stars with
      | nil => exact absurd rfl hne
      | cons c stars => rw [List.cons_append, List.head?_cons, hstars c List.mem_cons_self]
    rw [bang_star_move hhead, htake, hdrop, ih]

/-! ### Groups -/

theorem admits_meta (char_class : CharClass) {c : Char} (hc : c ∈ ['?', '*', '!', '(', ')', '|']) :
    char_class.admits c = false := by
  simp only [List.mem_cons, List.not_mem_nil, or_false] at hc
  obtain rfl | rfl | rfl | rfl | rfl | rfl := hc <;> cases char_class <;> rfl

theorem push_opt_eq {opts : List GroupOpt} {cur : String} {negated started_opt : Bool} :
    push_opt opts cur negated started_opt =
      if cur = "" then .error (.Malformed "empty alternative in group") else .ok (opts ++ [⟨cur, negated⟩]) := by
  unfold push_opt
  by_cases h : cur = "" <;> simp [h]

theorem joined_cons (o : GroupOpt) {rest : List GroupOpt} (h : rest ≠ []) :
    joined (o :: rest) = o.spelling ++ '|' :: joined rest := by
  cases rest with
  | nil => exact absurd rfl h
  | cons o' rest => rfl

variable {char_class : CharClass}

/-- What a group is read from: the rest of the alternative being read, more alternatives, and
the parenthesis that closes it. -/
theorem scan_group_sound {chars : List Char} {i : Nat} {opts : List GroupOpt} {cur : String} {negated started_opt : Bool}
    {a : Atom} {n : Nat} (h : scan_group char_class chars i opts cur negated started_opt = .ok (a, n))
    (hcur : ∀ c ∈ cur.toList, char_class.admits c = true) :
    ∃ opts' taken rest, chars = taken ++ rest ∧ n = i + taken.length ∧ a = .Group (opts ++ opts') ∧ opts' ≠ [] ∧
      (∀ o ∈ opts', Word char_class o.text) ∧ bang negated ++ cur.toList ++ taken = joined opts' ++ [')'] := by
  induction chars generalizing i opts cur negated started_opt with
  | nil => cases h
  | cons c rest ih =>
    rw [scan_group, push_opt_eq] at h
    by_cases hclose : c = ')'
    · -- The group ends here.
      subst hclose
      by_cases hempty : cur = ""
      · rw [if_pos rfl, if_pos hempty] at h
        cases h
      · rw [if_pos rfl, if_neg hempty] at h
        change (if opts ++ [⟨cur, negated⟩] = [] then _ else _) = _ at h
        rw [if_neg (by simp)] at h
        cases h
        refine ⟨[⟨cur, negated⟩], [')'], rest, rfl, rfl, rfl, by simp, ?_, rfl⟩
        intro o ho
        obtain rfl := List.mem_singleton.mp ho
        exact ⟨hempty, hcur⟩
    by_cases hbar : c = '|'
    · -- The alternative ends here.
      subst hbar
      by_cases hempty : cur = ""
      · rw [if_neg hclose, if_pos rfl, if_pos hempty] at h
        cases h
      · rw [if_neg hclose, if_pos rfl, if_neg hempty] at h
        obtain ⟨opts', taken, tail, rfl, rfl, rfl, hne, hwords, hspell⟩ := ih h (by simp)
        refine ⟨⟨cur, negated⟩ :: opts', '|' :: taken, tail, rfl, ?_, ?_, by simp, ?_, ?_⟩
        · rw [List.length_cons]
          omega
        · rw [List.append_assoc, List.singleton_append]
        · intro o ho
          obtain rfl | ho := List.mem_cons.mp ho
          · exact ⟨hempty, hcur⟩
          · exact hwords o ho
        · have hbehind : taken = joined opts' ++ [')'] := by simpa [bang] using hspell
          rw [hbehind, joined_cons _ hne]
          simp [GroupOpt.spelling]
    rw [if_neg hclose, if_neg hbar] at h
    by_cases hbang : c = '!' ∧ started_opt = false ∧ cur = "" ∧ negated = false
    · -- The alternative is negated.
      rw [if_pos hbang] at h
      obtain ⟨rfl, rfl, rfl, rfl⟩ := hbang
      obtain ⟨opts', taken, tail, rfl, rfl, rfl, hne, hwords, hspell⟩ := ih h hcur
      refine ⟨opts', '!' :: taken, tail, rfl, ?_, rfl, hne, hwords, ?_⟩
      · rw [List.length_cons]
        omega
      · rw [← hspell]
        simp [bang]
    rw [if_neg hbang] at h
    by_cases hopen : c = '('
    · rw [if_pos hopen] at h
      cases h
    rw [if_neg hopen] at h
    by_cases hwild : c = '*' ∨ c = '?'
    · rw [if_pos hwild] at h
      cases h
    rw [if_neg hwild] at h
    by_cases hadmits : char_class.admits c = true
    · -- The alternative goes on.
      rw [if_pos hadmits] at h
      have hcur' : ∀ d ∈ (cur.push c).toList, char_class.admits d = true := by
        intro d hd
        rw [String.toList_push, List.mem_append, List.mem_singleton] at hd
        obtain hd | rfl := hd
        · exact hcur d hd
        · exact hadmits
      obtain ⟨opts', taken, tail, rfl, rfl, rfl, hne, hwords, hspell⟩ := ih h hcur'
      refine ⟨opts', c :: taken, tail, rfl, ?_, rfl, hne, hwords, ?_⟩
      · rw [List.length_cons]
        omega
      · rw [← hspell, String.toList_push]
        simp
    rw [if_neg hadmits] at h
    cases h

theorem admits_ne {c : Char} (h : char_class.admits c = true) :
    c ≠ '?' ∧ c ≠ '*' ∧ c ≠ '!' ∧ c ≠ '(' ∧ c ≠ ')' ∧ c ≠ '|' := by
  have hmeta : ∀ d ∈ ['?', '*', '!', '(', ')', '|'], c ≠ d := by
    intro d hd heq
    rw [heq, admits_meta char_class hd] at h
    cases h
  simpa using hmeta

theorem append_ofList_cons (cur : String) (c : Char) (cs : List Char) :
    cur ++ String.ofList (c :: cs) = cur.push c ++ String.ofList cs := by
  rw [← String.toList_inj]
  simp

/-- The characters of the class are read into the alternative. -/
theorem scan_group_word (cs : List Char) (hcs : ∀ c ∈ cs, char_class.admits c = true) (tail : List Char) (i : Nat)
    (opts : List GroupOpt) (cur : String) (negated started_opt : Bool) :
    scan_group char_class (cs ++ tail) i opts cur negated started_opt =
      scan_group char_class tail (i + cs.length) opts (cur ++ String.ofList cs) negated
        (started_opt || !cs.isEmpty) := by
  induction cs generalizing i cur started_opt with
  | nil => simp
  | cons c cs ih =>
    have hc := hcs c List.mem_cons_self
    obtain ⟨hquestion, hstar, hbang, hopen, hclose, hbar⟩ := admits_ne hc
    rw [List.cons_append, scan_group, if_neg hclose, if_neg hbar, if_neg (fun h => hbang h.1), if_neg hopen,
      if_neg (fun h => h.elim hstar hquestion), if_pos hc, ih fun d hd => hcs d (List.mem_cons_of_mem c hd),
      append_ofList_cons, List.length_cons]
    simp [Nat.add_assoc, Nat.add_comm 1]

/-- An alternative is read with its polarity. -/
theorem scan_group_opt {o : GroupOpt} (ho : Word char_class o.text) (tail : List Char) (i : Nat) (opts : List GroupOpt) :
    scan_group char_class (o.spelling ++ tail) i opts "" false false =
      scan_group char_class tail (i + o.spelling.length) opts o.text o.negated true := by
  obtain ⟨text, negated⟩ := o
  obtain ⟨hne, hadmits⟩ := ho
  have hnonempty : text.toList.isEmpty = false := by
    rw [← Bool.not_eq_true, List.isEmpty_iff]
    exact fun h => hne (String.toList_inj.mp h)
  cases negated with
  | false =>
    have hword := scan_group_word text.toList hadmits tail i opts "" false false
    simpa [GroupOpt.spelling, bang, hnonempty] using hword
  | true =>
    have hword := scan_group_word text.toList hadmits tail (i + 1) opts "" true true
    simp only [GroupOpt.spelling, bang, ↓reduceIte, List.cons_append, List.nil_append]
    rw [scan_group, if_neg (by simp), if_neg (by simp), if_pos (by simp), hword]
    simp [Nat.add_assoc, Nat.add_comm 1]

/-- The alternatives of a group are read to its end. -/
theorem scan_group_joined {opts' : List GroupOpt} (hne : opts' ≠ []) (hwords : ∀ o ∈ opts', Word char_class o.text)
    (tail : List Char) (i : Nat) (opts : List GroupOpt) :
    scan_group char_class (joined opts' ++ ')' :: tail) i opts "" false false =
      .ok (.Group (opts ++ opts'), i + (joined opts').length + 1) := by
  induction opts' generalizing i opts with
  | nil => exact absurd rfl hne
  | cons o rest ih =>
    have ho := hwords o List.mem_cons_self
    by_cases hrest : rest = []
    · subst hrest
      rw [joined, scan_group_opt ho, scan_group, if_pos rfl, push_opt_eq, if_neg ho.1, results.except_bind_ok,
        if_neg (by simp)]
    · rw [joined_cons o hrest, List.append_assoc, scan_group_opt ho, List.cons_append, scan_group, if_neg (by simp),
        if_pos rfl, push_opt_eq, if_neg ho.1, results.except_bind_ok,
        ih hrest fun o' ho' => hwords o' (List.mem_cons_of_mem o ho')]
      simp [Nat.add_assoc, Nat.add_comm 1]

/-! ### Runs -/

/-- The strings a run spells, by one of its atoms more. -/
def spell (strings : List String) : Atom → List String
  | .Lit s => strings.map fun p => p ++ s
  | .Group opts => strings.flatMap fun p => opts.map fun o => p ++ o.text

/-- The predicate a run is reduced to. -/
def run_pred (negated : Bool) (atoms : List Atom) : RunPred :=
  match standalone atoms with
  | some opts => .MixedGroup opts
  | none => .Set (atoms.foldl spell [""]) negated

/-- The pieces a star or a run adds. A negation that negates nothing adds none. -/
def push_item (pieces : List Piece) : Item → List Piece
  | .Star => push_star pieces
  | .Run negated atoms => if atoms = [] then pieces else pieces ++ [.Run (run_pred negated atoms)]

/-- The pieces of a sequence. -/
def compile (items : List Item) : List Piece :=
  items.foldl push_item []

def Atom.plain : Atom → Bool
  | .Lit _ => true
  | .Group opts => !opts.any GroupOpt.negated

theorem foldlM_expand_iff {atoms : List Atom} {strings out : List String} :
    atoms.foldlM expand_atom strings = .ok out ↔ atoms.all Atom.plain = true ∧ out = atoms.foldl spell strings := by
  induction atoms generalizing strings with
  | nil =>
    simp only [List.foldlM_nil, results.pure_ok_iff, List.all_nil, true_and, List.foldl_nil]
    exact eq_comm
  | cons a rest ih =>
    rw [List.foldlM_cons, results.bind_ok_iff, List.all_cons, List.foldl_cons]
    cases a with
    | Lit s =>
      simp only [expand_atom, Except.ok.injEq, exists_eq_left', ih, Atom.plain, Bool.true_and, spell]
    | Group opts =>
      by_cases hneg : opts.any GroupOpt.negated = true
      · simp [expand_atom, hneg, Atom.plain]
      · simp only [expand_atom, hneg, Bool.false_eq_true, ↓reduceIte, Except.ok.injEq, exists_eq_left', ih, Atom.plain,
          spell, Bool.not_false, Bool.true_and]

theorem standalone_eq_some {atoms : List Atom} {opts : List GroupOpt} :
    standalone atoms = some opts ↔ atoms = [.Group opts] ∧ opts.any GroupOpt.negated = true := by
  unfold standalone
  split
  · rename_i opts'
    split
    · rename_i hneg
      constructor
      · intro h
        obtain rfl := Option.some.inj h
        exact ⟨rfl, hneg⟩
      · rintro ⟨h, _⟩
        cases h
        rfl
    · rename_i hneg
      refine iff_of_false (by simp) fun ⟨h, hneg'⟩ => ?_
      cases h
      exact hneg hneg'
  · rename_i hshape
    exact iff_of_false (by simp) fun ⟨h, _⟩ => hshape opts h

/-- A run is taken exactly when its negations stand where the grammar wants them. -/
theorem flush_run_iff {pieces out : List Piece} {atoms : List Atom} {run_negated : Bool}
    (hok : ∀ a ∈ atoms, a.Ok char_class) (hapart : atoms.IsChain fun a b => ¬(a.is_lit = true ∧ b.is_lit = true)) :
    flush_run pieces atoms run_negated = .ok out ↔
      RunOk char_class run_negated atoms ∧ out = push_item pieces (.Run run_negated atoms) := by
  have hpush : push_item pieces (.Run run_negated atoms) =
      if atoms = [] then pieces else pieces ++ [.Run (run_pred run_negated atoms)] := rfl
  rw [flush_run, hpush, run_pred]
  by_cases hempty : atoms = []
  · subst hempty
    have hrun : RunOk char_class run_negated [] := ⟨hok, hapart, fun opts hopts => by cases hopts⟩
    simp only [↓reduceIte, Except.ok.injEq, hrun, true_and]
    exact eq_comm
  · rw [if_neg hempty, if_neg hempty]
    cases halone : standalone atoms with
    | some opts =>
      obtain ⟨rfl, hneg⟩ := standalone_eq_some.mp halone
      cases run_negated with
      | true =>
        refine iff_of_false (by simp) fun ⟨hrun, _⟩ => ?_
        have hpolarity := (hrun.polarity opts (List.mem_singleton_self _) hneg).2
        cases hpolarity
      | false =>
        have hrun : RunOk char_class false [.Group opts] := by
          refine ⟨hok, hapart, fun opts' hopts' hneg' => ?_⟩
          rw [List.mem_singleton] at hopts'
          exact ⟨by rw [hopts'], rfl⟩
        simp only [Bool.false_eq_true, ↓reduceIte, Except.ok.injEq, hrun, true_and]
        exact eq_comm
    | none =>
      have hplain : RunOk char_class run_negated atoms ↔ atoms.all Atom.plain = true := by
        constructor
        · intro hrun
          rw [List.all_eq_true]
          intro a ha
          cases a with
          | Lit s => rfl
          | Group opts =>
            by_contra hneg
            have hneg' : opts.any GroupOpt.negated = true := by simpa [Atom.plain] using hneg
            have hsome := standalone_eq_some.mpr ⟨(hrun.polarity opts ha hneg').1, hneg'⟩
            rw [halone] at hsome
            cases hsome
        · intro hall
          refine ⟨hok, hapart, fun opts hopts hneg => ?_⟩
          have hplain := List.all_eq_true.mp hall _ hopts
          rw [Atom.plain, hneg] at hplain
          cases hplain
      simp only [results.bind_ok_iff, foldlM_expand_iff, Except.ok.injEq]
      rw [hplain]
      constructor
      · rintro ⟨strings, ⟨hall, rfl⟩, rfl⟩
        exact ⟨hall, rfl⟩
      · rintro ⟨hall, rfl⟩
        exact ⟨_, ⟨hall, rfl⟩, rfl⟩

/-! ### Segments -/

theorem scan_body_skip (chars : List Char) (skip i : Nat) (pieces : List Piece) (atoms : List Atom) (lit : String)
    (run_negated : Bool) :
    scan_body char_class chars skip i pieces atoms lit run_negated =
      scan_body char_class (chars.drop skip) 0 (i + skip) pieces atoms lit run_negated := by
  induction skip generalizing chars i with
  | zero => rfl
  | succ skip ih =>
    cases chars with
    | nil => rfl
    | cons c rest => rw [scan_body, ih, List.drop_succ_cons, Nat.add_assoc, Nat.add_comm 1]

theorem scan_body_star (tail : List Char) (i : Nat) (pieces : List Piece) (atoms : List Atom) (lit : String)
    (run_negated : Bool) :
    scan_body char_class ('*' :: tail) 0 i pieces atoms lit run_negated = (do
      let pieces ← flush_run pieces (flush_lit atoms lit) run_negated
      scan_body char_class tail 0 (i + 1) (push_star pieces) [] "" false) := by
  rw [scan_body, if_neg (by simp), if_pos rfl]

theorem run_spelling_flush_lit (run_negated : Bool) (atoms : List Atom) (lit : String) :
    run_spelling run_negated (flush_lit atoms lit) =
      bang run_negated ++ atoms.flatMap Atom.spelling ++ lit.toList := by
  unfold run_spelling flush_lit
  split
  · rename_i hempty
    simp [hempty]
  · simp [Atom.spelling]

/-- The state of the scanner in the middle of a run: what is done ends with a star, and a
literal can still be added to the atoms. -/
structure Reading (char_class : CharClass) (finished : List Item) (atoms : List Atom) (lit : String) : Prop where
  tolerated : Tolerated char_class finished
  fresh : ∀ x, finished.getLast? = some x → x = .Star
  atoms_ok : ∀ a ∈ atoms, a.Ok char_class
  apart : atoms.IsChain fun a b => ¬(a.is_lit = true ∧ b.is_lit = true)
  closed : ∀ a, atoms.getLast? = some a → a.is_lit = false
  lit_ok : ∀ c ∈ lit.toList, char_class.admits c = true

section reading

variable {finished : List Item} {atoms : List Atom} {lit : String}

theorem Reading.flushed_ok (h : Reading char_class finished atoms lit) :
    (∀ a ∈ flush_lit atoms lit, a.Ok char_class) ∧
      (flush_lit atoms lit).IsChain fun a b => ¬(a.is_lit = true ∧ b.is_lit = true) := by
  unfold flush_lit
  split
  · exact ⟨h.atoms_ok, h.apart⟩
  · rename_i hne
    constructor
    · intro a ha
      obtain ha | ha := List.mem_append.mp ha
      · exact h.atoms_ok a ha
      · rw [List.mem_singleton.mp ha]
        exact ⟨hne, h.lit_ok⟩
    · rw [List.isChain_append]
      refine ⟨h.apart, .singleton _, fun a ha b _ hlits => ?_⟩
      rw [h.closed a ha] at hlits
      exact absurd hlits.1 (by simp)

/-- The run that is being read can be finished. -/
theorem Reading.finish (h : Reading char_class finished atoms lit) {run_negated : Bool}
    (hrun : RunOk char_class run_negated (flush_lit atoms lit)) :
    ∃ items, Tolerated char_class items ∧
      spelling items = spelling finished ++ run_spelling run_negated (flush_lit atoms lit) ∧
      compile items = push_item (compile finished) (.Run run_negated (flush_lit atoms lit)) := by
  by_cases hnothing : flush_lit atoms lit = [] ∧ run_negated = false
  · obtain ⟨hempty, rfl⟩ := hnothing
    rw [hempty]
    exact ⟨finished, h.tolerated, by simp [run_spelling, bang], rfl⟩
  · refine ⟨finished ++ [.Run run_negated (flush_lit atoms lit)], ⟨?_, ?_⟩, by simp [spelling, Item.spelling],
      by rw [compile, List.foldl_append]; rfl⟩
    · intro x hx
      obtain hx | hx := List.mem_append.mp hx
      · exact h.tolerated.items_ok x hx
      · rw [List.mem_singleton.mp hx]
        exact ⟨hrun, fun hempty => by simpa [hempty] using hnothing⟩
    · rw [List.isChain_append]
      exact ⟨h.tolerated.apart, .singleton _, fun x hx _ _ => .inl (h.fresh x hx)⟩

end reading

/-- What is accepted is a sequence of stars and runs, but for negations that negate nothing,
and the pieces are the ones of the sequence. -/
theorem scan_body_sound {chars : List Char} {i : Nat} {pieces out : List Piece} {atoms : List Atom} {lit : String}
    {run_negated : Bool} {finished : List Item}
    (h : scan_body char_class chars 0 i pieces atoms lit run_negated = .ok out)
    (hreading : Reading char_class finished atoms lit) (hpieces : pieces = compile finished) :
    ∃ items, Tolerated char_class items ∧
      spelling items = spelling finished ++ run_spelling run_negated (flush_lit atoms lit) ++ chars ∧
      out = compile items := by
  induction hlen : chars.length using Nat.strong_induction_on
    generalizing chars i pieces atoms lit run_negated finished with
  | _ len ih =>
    obtain ⟨hok, hapart⟩ := hreading.flushed_ok
    cases chars with
    | nil =>
      rw [scan_body, flush_run_iff hok hapart] at h
      obtain ⟨hrun, rfl⟩ := h
      obtain ⟨items, htolerated, hspell, hcompile⟩ := hreading.finish hrun
      exact ⟨items, htolerated, by rw [hspell, List.append_nil], by rw [hcompile, hpieces]⟩
    | cons c rest =>
      have hshort : rest.length < len := by rw [← hlen, List.length_cons]; omega
      rw [scan_body] at h
      by_cases hquestion : c = '?'
      · rw [if_pos hquestion] at h
        cases h
      rw [if_neg hquestion] at h
      by_cases hstar : c = '*'
      · -- The run ends here, and the star is done.
        subst hstar
        rw [if_pos rfl] at h
        obtain ⟨pieces', hflush, h⟩ := results.bind_ok_iff.mp h
        obtain ⟨hrun, rfl⟩ := (flush_run_iff hok hapart).mp hflush
        obtain ⟨items, htolerated, hspell, hcompile⟩ := hreading.finish hrun
        have hnext : Reading char_class (items ++ [.Star]) [] "" := by
          refine ⟨⟨?_, ?_⟩, by simp, by simp, .nil, by simp, by simp⟩
          · intro x hx
            obtain hx | hx := List.mem_append.mp hx
            · exact htolerated.items_ok x hx
            · rw [List.mem_singleton.mp hx]
              trivial
          · rw [List.isChain_append]
            refine ⟨htolerated.apart, .singleton _, fun x _ y hy => .inr ?_⟩
            simpa using hy.symm
        have hcompiled : push_star (push_item pieces (.Run run_negated (flush_lit atoms lit))) =
            compile (items ++ [.Star]) := by
          rw [compile, List.foldl_append, ← compile, hcompile, hpieces]
          rfl
        obtain ⟨all, hall, hspells, hout⟩ := ih _ hshort h hnext hcompiled rfl
        refine ⟨all, hall, ?_, hout⟩
        rw [hspells, spelling, List.flatMap_append, ← spelling, hspell]
        simp [Item.spelling, run_spelling, flush_lit, bang]
      rw [if_neg hstar] at h
      by_cases hbang : c = '!'
      · -- The run is negated.
        subst hbang
        rw [if_pos rfl] at h
        by_cases hmisplaced : lit ≠ "" ∨ atoms ≠ [] ∨ run_negated = true
        · rw [if_pos hmisplaced] at h
          cases h
        · rw [if_neg hmisplaced] at h
          simp only [ne_eq, not_or, not_not, Bool.not_eq_true] at hmisplaced
          obtain ⟨rfl, rfl, rfl⟩ := hmisplaced
          obtain ⟨all, hall, hspells, hout⟩ := ih _ hshort h hreading hpieces rfl
          refine ⟨all, hall, ?_, hout⟩
          rw [hspells]
          simp [run_spelling, flush_lit, bang]
      rw [if_neg hbang] at h
      by_cases hopen : c = '('
      · -- A group is added to the run.
        subst hopen
        rw [if_pos rfl] at h
        obtain ⟨⟨group, consumed⟩, hgroup, h⟩ := results.bind_ok_iff.mp h
        obtain ⟨opts, taken, tail, rfl, rfl, rfl, hne, hwords, hspell⟩ := scan_group_sound hgroup (by simp)
        have htaken : taken = joined opts ++ [')'] := by simpa [bang] using hspell
        have hconsumed : 1 + taken.length - 1 = taken.length := by omega
        dsimp only [List.nil_append] at h
        rw [hconsumed, scan_body_skip, List.drop_left] at h
        have hnext : Reading char_class finished (flush_lit atoms lit ++ [.Group opts]) "" := by
          refine ⟨hreading.tolerated, hreading.fresh, ?_, ?_, by simp [Atom.is_lit], by simp⟩
          · intro a ha
            obtain ha | ha := List.mem_append.mp ha
            · exact hok a ha
            · rw [List.mem_singleton.mp ha]
              exact ⟨hne, hwords⟩
          · rw [List.isChain_append]
            exact ⟨hapart, .singleton _, fun a _ b hb => by
              obtain rfl : Atom.Group opts = b := by simpa using hb
              simp [Atom.is_lit]⟩
        have htail : tail.length < len := by
          rw [List.length_append] at hshort
          omega
        obtain ⟨all, hall, hspells, hout⟩ := ih _ htail h hnext hpieces rfl
        refine ⟨all, hall, ?_, hout⟩
        rw [hspells, htaken]
        simp [run_spelling, flush_lit, Atom.spelling]
      rw [if_neg hopen] at h
      by_cases hstray : c = ')' ∨ c = '|'
      · rw [if_pos hstray] at h
        cases h
      rw [if_neg hstray] at h
      by_cases hadmits : char_class.admits c = true
      · -- The literal goes on.
        rw [if_pos hadmits] at h
        have hnext : Reading char_class finished atoms (lit.push c) := by
          refine { hreading with lit_ok := ?_ }
          intro d hd
          rw [String.toList_push, List.mem_append, List.mem_singleton] at hd
          obtain hd | rfl := hd
          · exact hreading.lit_ok d hd
          · exact hadmits
        obtain ⟨all, hall, hspells, hout⟩ := ih _ hshort h hnext hpieces rfl
        refine ⟨all, hall, ?_, hout⟩
        rw [hspells, run_spelling_flush_lit, run_spelling_flush_lit, String.toList_push]
        simp
      rw [if_neg hadmits] at h
      cases h

/-- The characters of the class are read into the literal. -/
theorem scan_body_word (cs : List Char) (hcs : ∀ c ∈ cs, char_class.admits c = true) (tail : List Char) (i : Nat)
    (pieces : List Piece) (atoms : List Atom) (lit : String) (run_negated : Bool) :
    scan_body char_class (cs ++ tail) 0 i pieces atoms lit run_negated =
      scan_body char_class tail 0 (i + cs.length) pieces atoms (lit ++ String.ofList cs) run_negated := by
  induction cs generalizing i lit with
  | nil => simp
  | cons c cs ih =>
    have hc := hcs c List.mem_cons_self
    obtain ⟨hquestion, hstar, hbang, hopen, hclose, hbar⟩ := admits_ne hc
    rw [List.cons_append, scan_body, if_neg hquestion, if_neg hstar, if_neg hbang, if_neg hopen,
      if_neg (fun h => h.elim hclose hbar), if_pos hc, ih fun d hd => hcs d (List.mem_cons_of_mem c hd),
      append_ofList_cons, List.length_cons, Nat.add_assoc, Nat.add_comm 1]

/-- A group is read as it is written. -/
theorem scan_body_group {opts : List GroupOpt} (hgroup : (Atom.Group opts).Ok char_class) (tail : List Char) (i : Nat)
    (pieces : List Piece) (atoms : List Atom) (lit : String) (run_negated : Bool) :
    scan_body char_class ((Atom.Group opts).spelling ++ tail) 0 i pieces atoms lit run_negated =
      scan_body char_class tail 0 (i + (Atom.Group opts).spelling.length) pieces (flush_lit atoms lit ++ [.Group opts]) ""
        run_negated := by
  have hspell : (Atom.Group opts).spelling ++ tail = '(' :: (joined opts ++ ')' :: tail) := by simp [Atom.spelling]
  have hskip : 1 + (joined opts).length + 1 - 1 = (joined opts ++ [')']).length := by simp; omega
  have htail : joined opts ++ ')' :: tail = (joined opts ++ [')']) ++ tail := by simp
  rw [hspell, scan_body, if_neg (by simp), if_neg (by simp), if_neg (by simp), if_pos rfl, parse_group, List.tail_cons,
    scan_group_joined hgroup.1 hgroup.2, results.except_bind_ok, List.nil_append]
  dsimp only
  rw [scan_body_skip (joined opts ++ ')' :: tail), hskip, htail, List.drop_left]
  simp [Atom.spelling, Nat.add_assoc, Nat.add_comm 1]

/-- The atoms of a run are read one after the other. -/
theorem scan_body_atoms {more : List Atom} (hok : ∀ a ∈ more, a.Ok char_class)
    (hapart : more.IsChain fun a b => ¬(a.is_lit = true ∧ b.is_lit = true)) (tail : List Char) (i : Nat)
    (pieces : List Piece) (atoms : List Atom) {lit : String}
    (hlit : lit = "" ∨ ∀ a, more.head? = some a → a.is_lit = false) (run_negated : Bool) :
    ∃ j atoms' lit', scan_body char_class (more.flatMap Atom.spelling ++ tail) 0 i pieces atoms lit run_negated =
        scan_body char_class tail 0 j pieces atoms' lit' run_negated ∧
      flush_lit atoms' lit' = flush_lit atoms lit ++ more := by
  induction more generalizing i atoms lit with
  | nil => exact ⟨i, atoms, lit, rfl, by simp⟩
  | cons a rest ih =>
    have hrest : ∀ b ∈ rest, b.Ok char_class := fun b hb => hok b (List.mem_cons_of_mem a hb)
    rw [List.flatMap_cons, List.append_assoc]
    cases a with
    | Lit s =>
      obtain ⟨hne, hadmits⟩ := hok (.Lit s) List.mem_cons_self
      have hempty : lit = "" := hlit.resolve_right fun h => by simpa [Atom.is_lit] using h (.Lit s) rfl
      subst hempty
      have hhead : ∀ b, rest.head? = some b → b.is_lit = false := by
        intro b hb
        have hboth := (List.isChain_cons.mp hapart).1 b hb
        simpa [Atom.is_lit] using hboth
      obtain ⟨j, atoms', lit', hscan, hflush⟩ :=
        ih hrest (List.isChain_cons.mp hapart).2 (i + s.toList.length) atoms (.inr hhead)
      refine ⟨j, atoms', lit', ?_, ?_⟩
      · rw [Atom.spelling, scan_body_word s.toList hadmits]
        have hword : "" ++ String.ofList s.toList = s := by simp
        rw [hword]
        exact hscan
      · rw [hflush]
        simp [flush_lit, hne]
    | Group opts =>
      obtain ⟨j, atoms', lit', hscan, hflush⟩ := ih hrest (List.isChain_cons.mp hapart).2
        (i + (Atom.Group opts).spelling.length) (flush_lit atoms lit ++ [.Group opts]) (.inl rfl)
      refine ⟨j, atoms', lit', ?_, ?_⟩
      · rw [scan_body_group (hok _ List.mem_cons_self)]
        exact hscan
      · rw [hflush]
        simp [flush_lit]

/-- A run is read with its polarity. -/
theorem scan_body_run {run_negated : Bool} {atoms : List Atom} (hrun : RunOk char_class run_negated atoms)
    (tail : List Char) (i : Nat) (pieces : List Piece) :
    ∃ j atoms' lit', scan_body char_class (run_spelling run_negated atoms ++ tail) 0 i pieces [] "" false =
        scan_body char_class tail 0 j pieces atoms' lit' run_negated ∧ flush_lit atoms' lit' = atoms := by
  cases run_negated with
  | false => simpa [run_spelling, bang, flush_lit] using
      scan_body_atoms hrun.atoms_ok hrun.apart tail i pieces [] (.inl rfl) false
  | true =>
    obtain ⟨j, atoms', lit', hscan, hflush⟩ :=
      scan_body_atoms hrun.atoms_ok hrun.apart tail (i + 1) pieces [] (.inl rfl) true
    refine ⟨j, atoms', lit', ?_, by simpa [flush_lit] using hflush⟩
    rw [run_spelling, bang, if_pos rfl, List.append_assoc, List.singleton_append, scan_body, if_neg (by simp),
      if_neg (by simp), if_pos rfl, if_neg (by simp)]
    exact hscan

/-- A sequence of stars and runs is accepted, as the pieces it compiles to. -/
theorem scan_body_complete {items : List Item} (h : Tolerated char_class items) (i : Nat) (pieces : List Piece) :
    scan_body char_class (spelling items) 0 i pieces [] "" false = .ok (items.foldl push_item pieces) := by
  induction items generalizing i pieces with
  | nil => rfl
  | cons x rest ih =>
    have hrest : Tolerated char_class rest :=
      ⟨fun y hy => h.items_ok y (List.mem_cons_of_mem x hy), (List.isChain_cons.mp h.apart).2⟩
    have hspell : spelling (x :: rest) = x.spelling ++ spelling rest := by rw [spelling, List.flatMap_cons]; rfl
    rw [hspell, List.foldl_cons]
    cases x with
    | Star => exact (scan_body_star _ i pieces [] "" false).trans (ih hrest _ _)
    | Run run_negated atoms =>
      have hrun := (h.items_ok _ List.mem_cons_self).1
      obtain ⟨j, atoms', lit', hscan, hflush⟩ := scan_body_run hrun (spelling rest) i pieces
      have htaken : flush_run pieces (flush_lit atoms' lit') run_negated =
          .ok (push_item pieces (.Run run_negated atoms)) := by
        rw [hflush, flush_run_iff hrun.atoms_ok hrun.apart]
        exact ⟨hrun, rfl⟩
      rw [Item.spelling, hscan]
      cases rest with
      | nil => exact htaken
      | cons y rest =>
        have hstar : y = .Star := by
          have hapart := (List.isChain_cons.mp h.apart).1 y rfl
          simpa using hapart
        subst hstar
        have hnext := ih hrest j (push_item pieces (.Run run_negated atoms))
        have hspelled : spelling (.Star :: rest) = '*' :: spelling rest := rfl
        rw [hspelled, scan_body_star] at hnext ⊢
        rw [htaken]
        exact hnext

end cgx.select
