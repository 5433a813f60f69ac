import Cgx.Select.Parsed

/-! What the matcher of a parsed segment accepts. -/

namespace cgx.select

variable {char_class : CharClass}

/-- The affix of a run with or without something before and behind it. -/
def affix_of (before after : Bool) : Affix :=
  match before, after with
  | false, false => .Equals
  | false, true => .StartsWith
  | true, false => .EndsWith
  | true, true => .Contains

theorem affix_hit_iff {before after : Bool} {needle seg : String} :
    affix_hit (affix_of before after) needle seg = true ↔ Placed before after needle.toList seg.toList := by
  unfold Placed
  cases before with
  | false =>
    cases after with
    | false =>
      simp only [affix_of, affix_hit, beq_iff_eq, ← String.toList_inj]
      constructor
      · intro heq
        exact ⟨[], [], by simp [heq], fun _ => rfl, fun _ => rfl⟩
      · rintro ⟨front, back, heq, hfront, hback⟩
        rw [heq, hfront trivial, hback trivial, List.nil_append, List.append_nil]
    | true =>
      simp only [affix_of, affix_hit, decide_eq_true_eq]
      constructor
      · rintro ⟨back, heq⟩
        exact ⟨[], back, by simp [← heq], fun _ => rfl, by simp⟩
      · rintro ⟨front, back, heq, hfront, _⟩
        exact ⟨back, by rw [heq, hfront trivial, List.nil_append]⟩
  | true =>
    cases after with
    | false =>
      simp only [affix_of, affix_hit, decide_eq_true_eq]
      constructor
      · rintro ⟨front, heq⟩
        exact ⟨front, [], by simp [← heq], by simp, fun _ => rfl⟩
      · rintro ⟨front, back, heq, _, hback⟩
        exact ⟨front, by rw [heq, hback trivial, List.append_nil]⟩
    | true =>
      simp only [affix_of, affix_hit, decide_eq_true_eq]
      constructor
      · rintro ⟨front, back, heq⟩
        exact ⟨front, back, heq.symm, by simp, by simp⟩
      · rintro ⟨front, back, heq, _, _⟩
        exact ⟨front, back, heq.symm⟩

theorem mem_foldl_spell {atoms : List Atom} {strings : List String} {w : String} :
    w ∈ atoms.foldl spell strings ↔ ∃ p ∈ strings, ∃ u, Spells atoms u ∧ w.toList = p.toList ++ u := by
  induction atoms generalizing strings with
  | nil =>
    rw [List.foldl_nil]
    constructor
    · intro hw
      exact ⟨w, hw, [], .nil, by simp⟩
    · rintro ⟨p, hp, u, hu, heq⟩
      cases hu
      rw [List.append_nil, String.toList_inj] at heq
      rwa [heq]
  | cons a rest ih =>
    rw [List.foldl_cons, ih]
    cases a with
    | Lit s =>
      simp only [spell, List.mem_map]
      constructor
      · rintro ⟨_, ⟨p, hp, rfl⟩, u, hu, heq⟩
        exact ⟨p, hp, s.toList ++ u, .lit hu, by rw [heq, String.toList_append, List.append_assoc]⟩
      · rintro ⟨p, hp, _, hu, heq⟩
        cases hu with
        | lit hu => exact ⟨_, ⟨p, hp, rfl⟩, _, hu, by rw [heq, String.toList_append, List.append_assoc]⟩
    | Group opts =>
      simp only [spell, List.mem_flatMap, List.mem_map]
      constructor
      · rintro ⟨_, ⟨p, hp, o, ho, rfl⟩, u, hu, heq⟩
        exact ⟨p, hp, o.text.toList ++ u, .group ho hu, by rw [heq, String.toList_append, List.append_assoc]⟩
      · rintro ⟨p, hp, _, hu, heq⟩
        cases hu with
        | @group _ o _ _ ho hu =>
          exact ⟨_, ⟨p, hp, o, ho, rfl⟩, _, hu, by rw [heq, String.toList_append, List.append_assoc]⟩

theorem xor_eq_true_iff {negated base : Bool} {P : Prop} (h : base = true ↔ P) :
    (negated ^^ base) = true ↔ (negated = true ↔ ¬P) := by
  rw [← h]
  cases negated <;> cases base <;> simp

/-- A run's predicate is its constraint. -/
theorem eval_run_pred {before after negated : Bool} {atoms : List Atom} {seg : String} :
    (run_pred negated atoms).eval (affix_of before after) seg = true ↔
      RunHolds before after negated atoms seg.toList := by
  unfold run_pred RunHolds
  cases standalone atoms with
  | some opts =>
    simp only [RunPred.eval, List.any_eq_true]
    exact exists_congr fun o => and_congr_right fun _ => xor_eq_true_iff affix_hit_iff
  | none =>
    simp only [RunPred.eval]
    apply xor_eq_true_iff
    rw [List.any_eq_true]
    constructor
    · rintro ⟨w, hw, hhit⟩
      obtain ⟨p, hp, u, hu, heq⟩ := mem_foldl_spell.mp hw
      rw [List.mem_singleton.mp hp, String.toList_empty, List.nil_append] at heq
      exact ⟨u, hu, heq ▸ affix_hit_iff.mp hhit⟩
    · rintro ⟨u, hu, hplaced⟩
      refine ⟨String.ofList u, mem_foldl_spell.mpr ⟨"", List.mem_singleton_self _, u, hu, by simp⟩, ?_⟩
      rw [affix_hit_iff, String.toList_ofList]
      exact hplaced

/-! ### The runs of a sequence -/

/-- The run of an item, if it leaves a piece. -/
def run_of : Item → Option RunPred
  | .Star => none
  | .Run negated atoms => if atoms = [] then none else some (run_pred negated atoms)

/-- The runs among pieces. -/
def runs_of (pieces : List Piece) : List RunPred :=
  (SegmentMatcher.mk pieces).runs

theorem runs_push_item (pieces : List Piece) (x : Item) :
    runs_of (push_item pieces x) = runs_of pieces ++ (run_of x).toList := by
  cases x with
  | Star =>
    simp only [push_item, push_star, run_of, Option.toList_none, List.append_nil]
    split
    · rfl
    · simp [runs_of, SegmentMatcher.runs]
  | Run negated atoms =>
    simp only [push_item, run_of]
    split
    · simp
    · simp [runs_of, SegmentMatcher.runs]

theorem runs_foldl (items : List Item) (pieces : List Piece) :
    runs_of (items.foldl push_item pieces) = runs_of pieces ++ items.filterMap run_of := by
  induction items generalizing pieces with
  | nil => simp
  | cons x rest ih =>
    rw [List.foldl_cons, ih, runs_push_item, List.append_assoc]
    cases hx : run_of x <;> simp [hx]

theorem head_foldl (items : List Item) {pieces : List Piece} (h : pieces ≠ []) :
    (items.foldl push_item pieces).head? = pieces.head? := by
  induction items generalizing pieces with
  | nil => rfl
  | cons x rest ih =>
    have hgrows : ∃ more, push_item pieces x = pieces ++ more := by
      cases x with
      | Star =>
        simp only [push_item, push_star]
        split
        · exact ⟨[], (List.append_nil _).symm⟩
        · exact ⟨_, rfl⟩
      | Run negated atoms =>
        simp only [push_item]
        split
        · exact ⟨[], (List.append_nil _).symm⟩
        · exact ⟨_, rfl⟩
    obtain ⟨more, hmore⟩ := hgrows
    rw [List.foldl_cons, ih (by rw [hmore]; simp [h]), hmore, List.head?_append_of_ne_nil _ h]

theorem mem_zipIdx_filterMap {α β : Type} {f : α → Option β} {l : List α} {b : β} {i k : Nat} :
    (b, i) ∈ (l.filterMap f).zipIdx k ↔
      ∃ pre x post, l = pre ++ x :: post ∧ f x = some b ∧ i = k + (pre.filterMap f).length := by
  induction l generalizing k with
  | nil => simp
  | cons a rest ih =>
    have hsplit : (∃ pre x post, a :: rest = pre ++ x :: post ∧ f x = some b ∧ i = k + (pre.filterMap f).length) ↔
        (f a = some b ∧ i = k) ∨ ∃ pre x post, rest = pre ++ x :: post ∧ f x = some b ∧
          i = k + ((a :: pre).filterMap f).length := by
      constructor
      · rintro ⟨pre, x, post, hl, hx, hi⟩
        cases pre with
        | nil =>
          obtain ⟨rfl, rfl⟩ := List.cons.inj hl
          exact .inl ⟨hx, hi⟩
        | cons a' pre =>
          obtain ⟨rfl, hrest⟩ := List.cons.inj hl
          exact .inr ⟨pre, x, post, hrest, hx, hi⟩
      · rintro (⟨ha, hi⟩ | ⟨pre, x, post, rfl, hx, hi⟩)
        · exact ⟨[], a, rest, rfl, ha, hi⟩
        · exact ⟨a :: pre, x, post, rfl, hx, hi⟩
    rw [hsplit]
    cases ha : f a with
    | none =>
      rw [List.filterMap_cons_none ha, ih]
      simp [List.filterMap_cons_none ha]
    | some a' =>
      rw [List.filterMap_cons_some ha, List.zipIdx_cons, List.mem_cons, ih, Prod.mk.injEq, Option.some.injEq]
      simp only [List.filterMap_cons_some ha, List.length_cons]
      have hnext : ∀ n, k + 1 + n = k + (n + 1) := by omega
      simp only [hnext, eq_comm]

section well_formed

variable {items : List Item}

theorem WellFormed.atoms_ne_nil (h : WellFormed char_class items) {negated : Bool} {atoms : List Atom}
    (hrun : .Run negated atoms ∈ items) : atoms ≠ [] := by
  rintro rfl
  obtain rfl := (h.tolerated.items_ok _ hrun).2 rfl
  exact h.settled hrun

/-- A run has a star before it unless it begins the sequence. -/
theorem WellFormed.before_iff (h : WellFormed char_class items) {pre post : List Item} {negated : Bool}
    {atoms : List Atom} (hitems : items = pre ++ .Run negated atoms :: post) :
    (decide (0 < (pre.filterMap run_of).length) || (SegmentMatcher.mk (compile items)).leading_star) = !pre.isEmpty := by
  have hhead : ∀ x rest, items = x :: rest → (compile items).head? = (push_item [] x).head? := by
    intro x rest hx
    have hne : push_item [] x ≠ [] := by
      cases x with
      | Star => simp [push_item, push_star]
      | Run negated' atoms' =>
        have hatoms := h.atoms_ne_nil (hx ▸ List.mem_cons_self)
        simp [push_item, hatoms]
    rw [hx, compile, List.foldl_cons, head_foldl rest hne]
  cases pre with
  | nil =>
    have hmem : .Run negated atoms ∈ items := by rw [hitems]; exact List.mem_cons_self
    have hatoms := h.atoms_ne_nil hmem
    rw [SegmentMatcher.leading_star, hhead _ _ hitems]
    simp [push_item, hatoms]
  | cons x pre =>
    cases x with
    | Star =>
      rw [SegmentMatcher.leading_star, hhead _ _ hitems]
      simp [push_item, push_star]
    | Run negated' atoms' =>
      have hmem : .Run negated' atoms' ∈ items := by rw [hitems]; exact List.mem_cons_self
      have hatoms := h.atoms_ne_nil hmem
      simp [run_of, hatoms]

/-- A run has a star behind it unless it ends the sequence. -/
theorem WellFormed.after_iff (h : WellFormed char_class items) {pre post : List Item} {negated : Bool}
    {atoms : List Atom} (hitems : items = pre ++ .Run negated atoms :: post) :
    (decide (0 < (post.filterMap run_of).length) || (SegmentMatcher.mk (compile items)).trailing_star) =
      !post.isEmpty := by
  have hlast : ∀ front x, items = front ++ [x] → (compile items).getLast? =
      (push_item (compile front) x).getLast? := by
    intro front x hx
    rw [hx, compile, List.foldl_append]
    rfl
  cases hpost : post.getLast? with
  | none =>
    obtain rfl := List.getLast?_eq_none_iff.mp hpost
    have hatoms := h.atoms_ne_nil (hitems ▸ List.mem_append_right _ List.mem_cons_self)
    rw [SegmentMatcher.trailing_star, hlast _ _ hitems]
    simp [push_item, hatoms]
  | some x =>
    obtain ⟨front, rfl⟩ := List.getLast?_eq_some_iff.mp hpost
    have hsplit : items = (pre ++ .Run negated atoms :: front) ++ [x] := by rw [hitems]; simp
    cases x with
    | Star =>
      rw [SegmentMatcher.trailing_star, hlast _ _ hsplit]
      simp only [push_item, push_star]
      split
      · rename_i hstar
        simp [hstar]
      · simp
    | Run negated' atoms' =>
      have hatoms := h.atoms_ne_nil (hsplit ▸ List.mem_append_right _ List.mem_cons_self)
      simp [run_of, hatoms]

/-- The matcher of a sequence accepts a segment that has every run in its place. -/
theorem WellFormed.matches_iff (h : WellFormed char_class items) (seg : String) :
    (SegmentMatcher.mk (compile items)).matches seg = true ↔ Accepts items seg := by
  have hruns : (SegmentMatcher.mk (compile items)).runs = items.filterMap run_of := runs_foldl items []
  have haffix : ∀ {pre negated atoms post}, items = pre ++ .Run negated atoms :: post →
      (SegmentMatcher.mk (compile items)).affix (items.filterMap run_of).length (pre.filterMap run_of).length =
        affix_of (!pre.isEmpty) (!post.isEmpty) := by
    intro pre negated atoms post hitems
    have hatoms := h.atoms_ne_nil (hitems ▸ List.mem_append_right _ List.mem_cons_self)
    have hrun : run_of (.Run negated atoms) = some (run_pred negated atoms) := by simp [run_of, hatoms]
    have hcount : (items.filterMap run_of).length =
        (pre.filterMap run_of).length + 1 + (post.filterMap run_of).length := by
      rw [hitems, List.filterMap_append, List.filterMap_cons_some hrun, List.length_append, List.length_cons]
      omega
    have hbehind : ((pre.filterMap run_of).length < (items.filterMap run_of).length - 1) ↔
        0 < (post.filterMap run_of).length := by omega
    rw [← h.before_iff hitems, ← h.after_iff hitems, ← decide_eq_decide.mpr hbehind]
    rfl
  unfold SegmentMatcher.matches Accepts
  rw [hruns, List.all_eq_true]
  constructor
  · intro hall pre negated atoms post hitems
    have hatoms := h.atoms_ne_nil (hitems ▸ List.mem_append_right _ List.mem_cons_self)
    have hmem : (run_pred negated atoms, (pre.filterMap run_of).length) ∈ (items.filterMap run_of).zipIdx :=
      mem_zipIdx_filterMap.mpr ⟨pre, _, post, hitems, by simp [run_of, hatoms], (Nat.zero_add _).symm⟩
    have heval := hall _ hmem
    rw [haffix hitems] at heval
    exact eval_run_pred.mp heval
  · rintro hall ⟨r, i⟩ hmem
    obtain ⟨pre, x, post, hitems, hx, hi⟩ := mem_zipIdx_filterMap.mp hmem
    rw [Nat.zero_add] at hi
    subst hi
    cases x with
    | Star => cases hx
    | Run negated atoms =>
      have hatoms := h.atoms_ne_nil (hitems ▸ List.mem_append_right _ List.mem_cons_self)
      rw [run_of, if_neg hatoms, Option.some.injEq] at hx
      subst hx
      rw [haffix hitems]
      exact eval_run_pred.mpr (hall pre negated atoms post hitems)

end well_formed

/-! ### Negations that negate nothing -/

/-- Every `!` has a character other than a star behind it. -/
def Calm (l : List Char) : Prop :=
  ∀ front back, l = front ++ '!' :: back → ∃ c rest, back = c :: rest ∧ c ≠ '*'

theorem calm_of_not_mem {l : List Char} (h : '!' ∉ l) : Calm l := by
  intro front back hl
  exact absurd (hl ▸ List.mem_append_right _ List.mem_cons_self) h

theorem Calm.append {a b : List Char} (ha : Calm a) (hb : Calm b) : Calm (a ++ b) := by
  intro front back h
  rw [List.append_eq_append_iff] at h
  obtain ⟨front', _, hb'⟩ | ⟨a', ha', hback⟩ := h
  · exact hb front' back hb'
  · cases a' with
    | nil => exact hb [] back hback.symm
    | cons c a' =>
      obtain ⟨rfl, rfl⟩ := List.cons.inj hback
      obtain ⟨d, rest, rfl, hd⟩ := ha front a' ha'
      exact ⟨d, rest ++ b, rfl, hd⟩

theorem calm_flatMap {α : Type} {f : α → List Char} {l : List α} (h : ∀ a ∈ l, Calm (f a)) : Calm (l.flatMap f) := by
  induction l with
  | nil => exact calm_of_not_mem (by simp)
  | cons a rest ih =>
    rw [List.flatMap_cons]
    exact (h a List.mem_cons_self).append (ih fun b hb => h b (List.mem_cons_of_mem a hb))

/-- A negation before something that begins with another character is calm. -/
theorem calm_bang {negated : Bool} {l : List Char} (h : Calm l) (hhead : negated = true → ∃ c rest, l = c :: rest ∧ c ≠ '*') :
    Calm (bang negated ++ l) := by
  cases negated with
  | false => exact h
  | true =>
    intro front back heq
    cases front with
    | nil =>
      obtain rfl := (List.cons.inj heq).2
      exact hhead rfl
    | cons c front => exact h front back (List.cons.inj heq).2

theorem Word.head {s : String} (h : Word char_class s) : ∃ c rest, s.toList = c :: rest ∧ c ≠ '*' := by
  cases hs : s.toList with
  | nil => exact absurd (String.toList_inj.mp hs) h.1
  | cons c rest => exact ⟨c, rest, rfl, (admits_ne (h.2 c (hs ▸ List.mem_cons_self))).2.1⟩

theorem Word.calm {s : String} (h : Word char_class s) : Calm s.toList :=
  calm_of_not_mem fun hmem => (admits_ne (h.2 '!' hmem)).2.2.1 rfl

theorem calm_joined {opts : List GroupOpt} (h : ∀ o ∈ opts, Word char_class o.text) : Calm (joined opts) := by
  induction opts with
  | nil => exact calm_of_not_mem (by simp [joined])
  | cons o rest ih =>
    have ho : Calm o.spelling := calm_bang (h o List.mem_cons_self).calm fun _ => (h o List.mem_cons_self).head
    by_cases hrest : rest = []
    · rw [hrest]
      exact ho
    · rw [joined_cons o hrest]
      have hbar : Calm ['|'] := calm_of_not_mem (by simp)
      exact ho.append (hbar.append (ih fun o' ho' => h o' (List.mem_cons_of_mem o ho')))

theorem Atom.Ok.calm {a : Atom} (h : a.Ok char_class) : Calm a.spelling := by
  cases a with
  | Lit s => exact Word.calm h
  | Group opts =>
    have hopen : Calm ['('] := calm_of_not_mem (by simp)
    have hclose : Calm [')'] := calm_of_not_mem (by simp)
    exact hopen.append ((calm_joined h.2).append hclose)

theorem Atom.Ok.head {a : Atom} (h : a.Ok char_class) : ∃ c rest, a.spelling = c :: rest ∧ c ≠ '*' := by
  cases a with
  | Lit s => exact Word.head h
  | Group opts => exact ⟨'(', joined opts ++ [')'], rfl, by simp⟩

theorem WellFormed.calm {items : List Item} (h : WellFormed char_class items) : Calm (spelling items) := by
  apply calm_flatMap
  intro x hx
  cases x with
  | Star => exact calm_of_not_mem (by simp [Item.spelling])
  | Run negated atoms =>
    have hrun := (h.tolerated.items_ok _ hx).1
    refine calm_bang (calm_flatMap fun a ha => (hrun.atoms_ok a ha).calm) fun _ => ?_
    cases atoms with
    | nil => exact absurd rfl (h.atoms_ne_nil hx)
    | cons a rest =>
      obtain ⟨c, tail, hspell, hc⟩ := (hrun.atoms_ok a List.mem_cons_self).head
      exact ⟨c, tail ++ rest.flatMap Atom.spelling, by rw [List.flatMap_cons, hspell]; rfl, hc⟩

theorem Tolerated.not_calm {items : List Item} (h : Tolerated char_class items) (hdangling : Dangling items) :
    ¬Calm (spelling items) := by
  obtain ⟨pre, post, rfl⟩ := List.append_of_mem hdangling
  intro hcalm
  obtain ⟨c, rest, hpost, hc⟩ := hcalm (spelling pre) (spelling post) (by
    rw [spelling, List.flatMap_append, List.flatMap_cons]
    rfl)
  cases post with
  | nil => cases hpost
  | cons y post =>
    have hapart := (List.isChain_append.mp h.apart).2.1
    have hstar : y = .Star := by simpa using (List.isChain_cons.mp hapart).1 y rfl
    subst hstar
    exact hc (List.cons.inj hpost).1.symm

/-! ### The parser and the grammar -/

/-- The parser accepts a segment exactly when, each `!` before stars moved behind them, it is a
sequence of the grammar; the matcher then accepts what has every run in its place, and a rewrite
is reported exactly when there was a `!` to move. -/
def ParsesGrammar (raw : String) (char_class : CharClass) : Prop :=
  ∀ working, Moved raw.toList working →
    ((∃ p, parse_segment raw char_class = .ok p) ↔ ∃ items, WellFormed char_class items ∧ spelling items = working) ∧
      ∀ p items, parse_segment raw char_class = .ok p → WellFormed char_class items → spelling items = working →
        (∀ seg, p.matcher.matches seg = true ↔ Accepts items seg) ∧
          p.rewrite = if ['!', '*'] <:+: raw.toList then some (raw, String.ofList working) else none

theorem parse_segment_iff {raw : String} {p : SegmentParse} :
    parse_segment raw char_class = .ok p ↔
      ∃ pieces, scan_body char_class (bang_star 0 raw.toList).1 0 0 [] [] "" false = .ok pieces ∧
        p = ⟨⟨pieces⟩, if (bang_star 0 raw.toList).2 then some (raw, String.ofList (bang_star 0 raw.toList).1) else none⟩ := by
  simp only [parse_segment, rewrite_bang_star, parse_segment_body, String.toList_ofList, results.bind_ok_iff,
    Except.ok.injEq]
  constructor
  · rintro ⟨_, ⟨pieces, hscan, rfl⟩, rfl⟩
    exact ⟨pieces, hscan, rfl⟩
  · rintro ⟨pieces, hscan, rfl⟩
    exact ⟨_, ⟨pieces, hscan, rfl⟩, rfl⟩

/-- The language of the scanner: the grammar, and negations that negate nothing. -/
theorem exists_scan_iff {working : List Char} :
    (∃ pieces, scan_body char_class working 0 0 [] [] "" false = .ok pieces) ↔
      ∃ items, Tolerated char_class items ∧ spelling items = working := by
  constructor
  · rintro ⟨pieces, hscan⟩
    have hstart : Reading char_class [] [] "" :=
      ⟨⟨by simp, .nil⟩, by simp, by simp, .nil, by simp, by simp⟩
    obtain ⟨items, htolerated, hspell, _⟩ := scan_body_sound hscan hstart rfl
    exact ⟨items, htolerated, by simpa [spelling, run_spelling, flush_lit, bang] using hspell⟩
  · rintro ⟨items, htolerated, rfl⟩
    exact ⟨_, scan_body_complete htolerated 0 []⟩

theorem exists_parse_iff {raw : String} {working : List Char} (h : Moved raw.toList working) :
    (∃ p, parse_segment raw char_class = .ok p) ↔ ∃ items, Tolerated char_class items ∧ spelling items = working := by
  rw [← exists_scan_iff, ← bang_star_of_moved h]
  simp only [parse_segment_iff]
  constructor
  · rintro ⟨p, pieces, hscan, _⟩
    exact ⟨pieces, hscan⟩
  · rintro ⟨pieces, hscan⟩
    exact ⟨_, pieces, hscan, rfl⟩

/-- A negation that negates nothing is accepted, which the grammar does not. -/
theorem not_parses_of_dangling {raw : String} {items : List Item} (h : Tolerated char_class items)
    (hdangling : Dangling items) (hmoved : Moved raw.toList (spelling items)) : ¬ParsesGrammar raw char_class := by
  intro hparses
  obtain ⟨items', hwf, hspell⟩ := (hparses _ hmoved).1.mp ((exists_parse_iff hmoved).mpr ⟨items, h, rfl⟩)
  exact h.not_calm hdangling (hspell ▸ hwf.calm)

theorem parses_of_no_dangling {raw : String}
    (h : ∀ items, Tolerated char_class items → Moved raw.toList (spelling items) → ¬Dangling items) :
    ParsesGrammar raw char_class := by
  intro working hmoved
  constructor
  · rw [exists_parse_iff hmoved]
    constructor
    · rintro ⟨items, htolerated, rfl⟩
      exact ⟨items, ⟨htolerated, h items htolerated hmoved⟩, rfl⟩
    · rintro ⟨items, hwf, hspell⟩
      exact ⟨items, hwf.tolerated, hspell⟩
  · rintro p items hp hwf rfl
    obtain ⟨pieces, hscan, rfl⟩ := parse_segment_iff.mp hp
    have hcompiled : pieces = compile items := by
      rw [bang_star_of_moved hmoved, scan_body_complete hwf.tolerated 0 []] at hscan
      exact (Except.ok.inj hscan).symm
    subst hcompiled
    refine ⟨hwf.matches_iff, ?_⟩
    rw [bang_star_of_moved hmoved]
    exact if_congr (moved_bang_star raw.toList).2 rfl rfl

/-- A segment is parsed as the grammar says exactly when, read as stars and runs, it has no
negation that negates nothing. -/
theorem parses_grammar_iff (raw : String) (char_class : CharClass) :
    ParsesGrammar raw char_class ↔
      ¬∃ items, Tolerated char_class items ∧ Dangling items ∧ Moved raw.toList (spelling items) := by
  constructor
  · rintro hparses ⟨items, htolerated, hdangling, hmoved⟩
    exact not_parses_of_dangling htolerated hdangling hmoved hparses
  · intro hnone
    exact parses_of_no_dangling fun items htolerated hmoved hdangling => hnone ⟨items, htolerated, hdangling, hmoved⟩

/-- A lone `!` is dropped without a word, and the segment matches everything. -/
theorem lone_bang_matches_all :
    (∃ p, parse_segment "!" .Rust = .ok p ∧ p.rewrite = none ∧ ∀ seg, p.matcher.matches seg = true) ∧
      ¬ParsesGrammar "!" .Rust := by
  constructor
  · refine ⟨⟨⟨[]⟩, none⟩, by decide, rfl, fun seg => rfl⟩
  · have htolerated : Tolerated .Rust [.Run true []] := by
      refine ⟨fun x hx => ?_, .singleton _⟩
      rw [List.mem_singleton.mp hx]
      exact ⟨⟨by simp, .nil, by simp⟩, fun _ => rfl⟩
    exact not_parses_of_dangling htolerated (List.mem_singleton_self _) (.keep (by simp) .nil)

end cgx.select
