import Cgx.Cql.Syntax

open parsing

namespace cgx.cql

/-! ### The cursor -/

theorem next_is_iff {f : Fixed} {tokens : List Token} :
    next_is f tokens = true ↔ ∃ t rest, tokens = t :: rest ∧ t.Is f := by
  cases tokens with
  | nil => simp [next_is, peek]
  | cons t rest =>
    unfold next_is peek Token.Is
    cases hk : t.kind with
    | Fixed g => simp [hk]
    | _ => simp [hk]

theorem bump_cons {t : Token} {rest : List Token} (h : t.kind ≠ .Eof) : bump (t :: rest) = .ok ((), rest) := by
  have hend : at_eof (t :: rest) = false := by
    unfold at_eof
    split
    · next heq =>
      obtain ⟨rfl, -⟩ := List.cons_eq_cons.mp heq
      exact absurd rfl h
    · rfl
  simp [bump, hend]

theorem Token.Is.ne_eof {f : Fixed} {t : Token} (h : t.Is f) : t.kind ≠ .Eof := by
  rw [h]
  simp

/-- A step over a token that is not the end of the input. -/
theorem reads_bump {input : List Token} (h : peek input ≠ .Eof) :
    ReadsAt bump (fun _ u => ∃ t, u = [t] ∧ t.kind = peek input ∧ t.span = peek_span input) input := by
  intro _ rest hrun
  cases input with
  | nil => exact absurd rfl h
  | cons t tail =>
    rw [bump_cons h] at hrun
    cases hrun
    exact ⟨[t], rfl, t, rfl, rfl, rfl⟩

theorem reads_sign_span {f : Fixed} {input : List Token} (h : next_is f input = true) :
    ReadsAt bump (fun _ u => ∃ t, u = [t] ∧ t.Is f ∧ t.span = peek_span input) input := by
  obtain ⟨t, rest, rfl, ht⟩ := next_is_iff.mp h
  have hpeek : peek (t :: rest) = .Fixed f := ht
  refine (reads_bump (by simp [hpeek])).imp ?_
  rintro _ u ⟨t', rfl, hkind, hspan⟩
  exact ⟨t', rfl, hkind.trans ht, hspan⟩

theorem reads_sign {f : Fixed} {input : List Token} (h : next_is f input = true) :
    ReadsAt bump (fun _ u => ∃ t, u = [t] ∧ t.Is f) input := by
  refine (reads_sign_span h).imp ?_
  rintro _ u ⟨t, hu, ht, -⟩
  exact ⟨t, hu, ht⟩

theorem eat_reads (f : Fixed) :
    Reads (eat f) fun b u => (b = true ∧ ∃ t, u = [t] ∧ t.Is f) ∨ (b = false ∧ u = []) := by
  refine .get fun input => .ite (fun h => ?_) fun _ => Reads.pure (.inr ⟨rfl, rfl⟩) input
  refine (reads_sign h).bind ?_
  rintro _ _ ⟨t, rfl, ht⟩
  exact .pure (.inl ⟨rfl, t, rfl, ht⟩)

theorem err_here_reads {α : Type} (message : String) (R : α → List Token → Prop) : Reads (err_here message) R := by
  intro input a rest hrun
  cases hrun

theorem plan_here_reads {α : Type} (message : String) (R : α → List Token → Prop) : Reads (plan_here message) R := by
  intro input a rest hrun
  cases hrun

section parser

variable (texts : Texts)

theorem expected_reads {α : Type} (what : String) (R : α → List Token → Prop) : Reads (expected texts what) R :=
  .get fun input => err_here_reads _ R input

theorem expect_reads (f : Fixed) (what : String) : Reads (expect texts f what) fun _ u => ∃ t, u = [t] ∧ t.Is f :=
  .get fun input => .ite (fun h => reads_sign h) fun _ => expected_reads texts what _ input

theorem expect_ident_reads (what : String) : Reads (expect_ident texts what) IsName := by
  refine .get fun input => ?_
  cases hk : peek input with
  | Ident name =>
    refine (reads_bump (by simp [hk])).bind ?_
    rintro _ _ ⟨t, rfl, hkind, hspan⟩
    rw [← hspan]
    exact .pure (.intro (hkind.trans hk))
  | _ => exact expected_reads texts what _ input

theorem parse_opt_ident_reads : Reads parse_opt_ident (Opt IsIdent) := by
  refine .get fun input => ?_
  cases hk : peek input with
  | Ident name =>
    refine (reads_bump (by simp [hk])).bind ?_
    rintro _ _ ⟨t, rfl, hkind, -⟩
    exact .pure (.some (.intro (hkind.trans hk)))
  | _ => exact Reads.pure .none input

variable {α : Type} {R : α → List Token → Prop}

theorem opt_after_reads {part : Parser α} (f : Fixed) (h : Reads part R) :
    Reads (opt_after f part) (Opt (After (Token.Is f) R)) := by
  refine (eat_reads f).bind ?_
  rintro _ _ (⟨rfl, t, rfl, ht⟩ | ⟨rfl, rfl⟩)
  · exact h.map fun a u hu => .some (.intro ht hu)
  · exact .pure .none

theorem many_after_reads {item : Parser α} (f : Fixed) (h : Reads item R) :
    Reads (many_after f item) (Many (After (Token.Is f) R)) := by
  refine .many fun input hguard => (reads_sign hguard).bind ?_
  rintro _ _ ⟨t, rfl, ht⟩
  exact h.imp fun a u hu => .intro ht hu

theorem separated_reads {item : Parser α} (f : Fixed) (h : Reads item R) :
    Reads (separated f item) (Separated (Token.Is f) R) := by
  refine h.bind fun a u hu => (many_after_reads f h).bind fun as v hv => .pure ?_
  rw [List.append_nil]
  exact .intro hu hv

theorem comma_list_until_reads {item : Parser α} (closes : Fixed) (h : Reads item R) :
    Reads (comma_list_until closes item) fun as u => (as = [] ∧ u = []) ∨ Separated (Token.Is .Comma) R as u :=
  .get fun input => .ite (fun _ => Reads.pure (.inl ⟨rfl, rfl⟩) input) fun _ =>
    (separated_reads .Comma h input).imp fun _ _ hs => .inr hs

/-- A list with its brackets. -/
theorem bracketed_of {opens closes : Fixed} {o c : Token} {as : List α} {u : List Token} (ho : o.Is opens)
    (hitems : (as = [] ∧ u = []) ∨ Separated (Token.Is .Comma) R as u) (hc : c.Is closes) :
    Bracketed opens closes R as (o :: (u ++ [c])) := by
  obtain ⟨rfl, rfl⟩ | hitems := hitems
  · exact .empty ho hc
  · exact .items ho hitems hc

/-! ### Literals and patterns -/

theorem literal_tail {vs : List Value} {u : List Token}
    (h : Many (After (Token.Is .Comma) fun v u => IsLiteral (.one v) u) vs u) : IsLiteral (.tail vs) u := by
  induction h with
  | nil => exact .done
  | cons head _ ih =>
    cases head with
    | intro comma first => exact .more comma first ih

theorem parse_list_literal_reads {literal : Parser Value} (h : Reads literal fun v u => IsLiteral (.one v) u) :
    Reads (parse_list_literal texts literal) fun v u => IsLiteral (.one v) u := by
  refine (expect_reads texts _ _).bind ?_
  rintro _ _ ⟨o, rfl, ho⟩
  refine (comma_list_until_reads .RBracket h).bind fun vs u hitems => (expect_reads texts _ _).bind ?_
  rintro _ _ ⟨c, rfl, hc⟩
  refine .pure ?_
  obtain ⟨rfl, rfl⟩ | hitems := hitems
  · exact .empty ho hc
  · cases hitems with
    | intro head tail => exact .list ho head (literal_tail tail) hc

theorem reads_scalar {input : List Token} {v : Value} (h : scalar (peek input) = some v) :
    ReadsAt bump (fun _ u => ∃ t, u = [t] ∧ scalar t.kind = some v) input := by
  have hend : peek input ≠ .Eof := by
    intro heof
    rw [heof] at h
    cases h
  refine (reads_bump hend).imp ?_
  rintro _ _ ⟨t, rfl, hkind, -⟩
  exact ⟨t, rfl, by rw [hkind, h]⟩

theorem parse_literal_reads : Reads (parse_literal texts) fun v u => IsLiteral (.one v) u := by
  have hwithin : ∀ fuel, Reads (parse_literal_within texts fuel) fun v u => IsLiteral (.one v) u := by
    intro fuel
    induction fuel with
    | zero => exact expected_reads texts _ _
    | succ fuel ih =>
      refine .get fun input => ?_
      cases hs : scalar (peek input) with
      | some v =>
        refine (reads_scalar hs).bind ?_
        rintro _ _ ⟨t, rfl, ht⟩
        exact .pure (.scalar ht)
      | none =>
        exact .ite (fun _ => parse_list_literal_reads texts ih input) fun _ => expected_reads texts _ _ input
  exact fun input => hwithin _ input

theorem parse_prop_entry_reads : Reads (parse_prop_entry texts) IsPropEntry := by
  refine (expect_ident_reads texts _).bind fun key k hkey => (expect_reads texts _ _).bind ?_
  rintro _ _ ⟨c, rfl, hc⟩
  refine (parse_literal_reads texts).bind fun v u hv => .pure ?_
  rw [List.append_nil]
  exact .intro hkey hc hv

theorem parse_opt_props_reads : Reads (parse_opt_props texts) IsProps := by
  have hmap : Reads (parse_prop_map texts) IsProps := by
    refine (expect_reads texts _ _).bind ?_
    rintro _ _ ⟨o, rfl, ho⟩
    refine (comma_list_until_reads .RBrace (parse_prop_entry_reads texts)).bind fun es u hitems =>
      (expect_reads texts _ _).bind ?_
    rintro _ _ ⟨c, rfl, hc⟩
    exact .pure (.map (bracketed_of ho hitems hc))
  exact .get fun input => .ite (fun _ => hmap input) fun _ => Reads.pure .none input

theorem parse_node_pat_reads : Reads (parse_node_pat texts) IsNodePat := by
  refine (expect_reads texts _ _).bind ?_
  rintro _ _ ⟨o, rfl, ho⟩
  refine parse_opt_ident_reads.bind fun var u hu =>
    (opt_after_reads .Colon (expect_ident_reads texts _)).bind fun label v hv =>
    (parse_opt_props_reads texts).bind fun props w hw => (expect_reads texts _ _).bind ?_
  rintro _ _ ⟨c, rfl, hc⟩
  refine .pure ?_
  simpa using IsNodePat.intro ho hu hv hw hc

theorem parse_rel_types_reads {c : Token} (hc : c.Is .Colon) :
    Reads (parse_rel_types texts) fun types u => IsRelTypes types (c :: u) := by
  refine (expect_ident_reads texts _).bind fun name u hu => .get fun input =>
    .ite (fun _ => plan_here_reads _ _ input) fun _ => ?_
  refine ((many_after_reads .Pipe (expect_ident_reads texts _)).bind fun types v hv => .pure ?_) input
  rw [List.append_nil]
  exact .some hc (.intro hu hv)

theorem parse_opt_int_u32_reads : Reads parse_opt_int_u32 (Opt IsBound) := by
  refine .get fun input => ?_
  cases hk : peek input with
  | Int n =>
    refine .ite (fun hrange => ?_) fun _ => ?_
    · refine (reads_bump (by simp [hk])).bind ?_
      rintro _ _ ⟨t, rfl, hkind, -⟩
      exact .pure (.some (.intro (hkind.trans hk) hrange.1 hrange.2))
    · intro a rest hrun
      cases hrun
  | _ => exact Reads.pure .none input

theorem parse_var_len_reads : Reads (parse_var_len texts) IsVarLen := by
  refine (expect_reads texts _ _).bind ?_
  rintro _ _ ⟨s, rfl, hs⟩
  refine parse_opt_int_u32_reads.bind fun min u hu => (eat_reads .DotDot).bind ?_
  rintro _ _ (⟨rfl, d, rfl, hd⟩ | ⟨rfl, rfl⟩)
  · refine parse_opt_int_u32_reads.bind fun max v hv => .pure ?_
    simpa using IsVarLen.range hs hu hd hv
  · exact .pure (by simpa using IsVarLen.exactly hs hu)

theorem parse_opt_types_reads : Reads (parse_opt_types texts) IsRelTypes := by
  refine (eat_reads .Colon).bind ?_
  rintro _ _ (⟨rfl, c, rfl, hc⟩ | ⟨rfl, rfl⟩)
  · exact parse_rel_types_reads texts hc
  · exact .pure .none

theorem parse_opt_var_len_reads : Reads (parse_opt_var_len texts) (Opt IsVarLen) :=
  .get fun input => .ite (fun _ => (parse_var_len_reads texts).map (fun _ _ h => .some h) input) fun _ =>
    Reads.pure .none input

theorem parse_rel_body_reads : Reads (parse_rel_body texts) IsRelBody := by
  refine (eat_reads .LBracket).bind ?_
  rintro _ _ (⟨rfl, o, rfl, ho⟩ | ⟨rfl, rfl⟩)
  · refine parse_opt_ident_reads.bind fun var u hu => (parse_opt_types_reads texts).bind fun types v hv =>
      (parse_opt_var_len_reads texts).bind fun len w hw => (parse_opt_props_reads texts).bind fun props x hx =>
      (expect_reads texts _ _).bind ?_
    rintro _ _ ⟨c, rfl, hc⟩
    refine .pure ?_
    simpa using IsRelBody.brackets ho hu hv hw hx hc
  · exact .pure .bare

/-- The sign that opens a relationship, by whether it points back. -/
def leading_sign (back : Bool) : Fixed :=
  if back then .ArrowL else .Dash

/-- The sign that closes a relationship, by whether it points forward. -/
def trailing_sign (forward : Bool) : Fixed :=
  if forward then .ArrowR else .Dash

theorem parse_leading_reads : Reads parse_leading fun b u => ∃ t, u = [t] ∧ t.Is (leading_sign b) := by
  refine (eat_reads .Dash).bind ?_
  rintro _ _ (⟨rfl, t, rfl, ht⟩ | ⟨rfl, rfl⟩)
  · exact .pure ⟨t, rfl, ht⟩
  · refine (eat_reads .ArrowL).bind ?_
    rintro _ _ (⟨rfl, t, rfl, ht⟩ | ⟨rfl, rfl⟩)
    · exact .pure ⟨t, rfl, ht⟩
    · exact err_here_reads _ _

theorem parse_trailing_reads : Reads parse_trailing fun b u => ∃ t, u = [t] ∧ t.Is (trailing_sign b) := by
  refine (eat_reads .ArrowR).bind ?_
  rintro _ _ (⟨rfl, t, rfl, ht⟩ | ⟨rfl, rfl⟩)
  · exact .pure ⟨t, rfl, ht⟩
  · refine (eat_reads .Dash).bind ?_
    rintro _ _ (⟨rfl, t, rfl, ht⟩ | ⟨rfl, rfl⟩)
    · exact .pure ⟨t, rfl, ht⟩
    · exact err_here_reads _ _

theorem parse_rel_pat_reads : Reads (parse_rel_pat texts) IsRelPat := by
  refine parse_leading_reads.bind ?_
  rintro back _ ⟨l, rfl, hl⟩
  refine (parse_rel_body_reads texts).bind fun body u hu => parse_trailing_reads.bind ?_
  rintro forward _ ⟨r, rfl, hr⟩
  cases back with
  | false =>
    cases forward with
    | false => exact err_here_reads _ _
    | true => exact .pure (by simpa using IsRelPat.forward hl hu hr)
  | true =>
    cases forward with
    | false => exact .pure (by simpa using IsRelPat.backward hl hu hr)
    | true => exact err_here_reads _ _

theorem parse_path_var_reads : Reads parse_path_var (Opt IsPathVar) := by
  refine .get fun input => ?_
  cases hk : peek input with
  | Ident name =>
    refine .ite (fun heq => ?_) fun _ => Reads.pure .none input
    obtain ⟨e, rest, htail, he⟩ := next_is_iff.mp heq
    cases input with
    | nil => cases hk
    | cons t tail =>
      obtain rfl : tail = e :: rest := htail
      have ht : t.kind = .Ident name := hk
      intro a behind hrun
      rw [bind_run, bump_cons (by simp [ht]), results.except_bind_ok, bind_run, bump_cons he.ne_eof,
        results.except_bind_ok, pure_run] at hrun
      cases hrun
      exact ⟨[t, e], rfl, .some (.intro ht he)⟩
  | _ => exact Reads.pure .none input

theorem parse_step_reads : Reads (parse_step texts) IsStep := by
  refine (parse_rel_pat_reads texts).bind fun rel u hu => (parse_node_pat_reads texts).bind fun node v hv => .pure ?_
  rw [List.append_nil]
  exact .intro hu hv

theorem parse_path_pattern_reads : Reads (parse_path_pattern texts) IsPath := by
  refine parse_path_var_reads.bind fun var u hu => (parse_node_pat_reads texts).bind fun start v hv =>
    (Reads.many fun input _ => parse_step_reads texts input).bind fun steps w hw => .pure ?_
  simpa using IsPath.intro hu hv hw

/-! ### Expressions -/

/-- The tokens an expression can start with. -/
def opens_expr : TokenKind → Bool
  | .Ident _ | .Int _ | .Float _ | .Str _ => true
  | .Fixed f => f ∈ [.LParen, .LBracket, .None, .Any, .All, .True, .False, .Null, .Not]
  | .Eof => false

theorem Token.Is.opens {f : Fixed} {t : Token} (h : t.Is f) (hf : opens_expr (.Fixed f) = true) :
    opens_expr t.kind = true := by
  rw [h]
  exact hf

theorem IsNodePat.head {node : NodePat} {u : List Token} (h : IsNodePat node u) : ∃ o v, u = o :: v ∧ o.Is .LParen := by
  cases h with
  | intro left _ _ _ _ => exact ⟨_, _, rfl, left⟩

theorem IsPatternPredicate.head {pat : PathPattern} {u : List Token} (h : IsPatternPredicate pat u) :
    ∃ o v, u = o :: v ∧ o.Is .LParen := by
  cases h with
  | intro first _ =>
    obtain ⟨o, v, rfl, ho⟩ := first.head
    exact ⟨o, _, rfl, ho⟩

theorem literal_head {v : Value} {u : List Token} (h : IsLiteral (.one v) u) :
    ∃ t w, u = t :: w ∧ ((∃ s, scalar t.kind = some s) ∨ t.Is .LBracket) := by
  cases h with
  | scalar value => exact ⟨_, _, rfl, .inl ⟨_, value⟩⟩
  | empty left _ => exact ⟨_, _, rfl, .inr left⟩
  | list left _ _ _ => exact ⟨_, _, rfl, .inr left⟩

theorem opens_of_scalar {k : TokenKind} {v : Value} (h : scalar k = some v) : opens_expr k = true := by
  unfold scalar at h
  split at h <;> first | rfl | cases h

theorem opens_of_quantifier {k : TokenKind} {kind : QuantifierKind} (h : quantifier_kind k = some kind) :
    opens_expr k = true := by
  unfold quantifier_kind at h
  split at h <;> first | rfl | cases h

theorem IsName.opens {name : Spanned String} {u : List Token} (h : IsName name u) :
    ∃ t, u = [t] ∧ t.kind = .Ident name.value ∧ t.span = name.span := by
  cases h with
  | intro ident => exact ⟨_, rfl, ident, rfl⟩

/-- Every expression starts with a token that opens one. -/
theorem IsExpr.head {level : Level} {e : Expr} {u : List Token} (h : IsExpr (.expr level e) u) :
    ∃ t v, u = t :: v ∧ opens_expr t.kind = true := by
  generalize hp : Phrase.expr level e = phrase at h
  induction h generalizing level e with
  | or _ _ ih _ =>
    obtain ⟨t, v, rfl, ht⟩ := ih rfl
    exact ⟨t, _, rfl, ht⟩
  | and _ _ ih _ =>
    obtain ⟨t, v, rfl, ht⟩ := ih rfl
    exact ⟨t, _, rfl, ht⟩
  | chain_done => cases hp
  | chain_link => cases hp
  | not_pattern not _ => exact ⟨_, _, rfl, not.opens rfl⟩
  | not_not not _ _ _ => exact ⟨_, _, rfl, not.opens rfl⟩
  | not_comparison not _ _ => exact ⟨_, _, rfl, not.opens rfl⟩
  | pattern pattern =>
    obtain ⟨o, v, rfl, ho⟩ := pattern.head
    exact ⟨o, v, rfl, ho.opens rfl⟩
  | comparison _ ih => exact ih rfl
  | primary _ ih => exact ih rfl
  | binary _ _ _ ih _ =>
    obtain ⟨t, v, rfl, ht⟩ := ih rfl
    exact ⟨t, _, rfl, ht⟩
  | group left _ _ _ => exact ⟨_, _, rfl, left.opens rfl⟩
  | literal value =>
    obtain ⟨t, w, rfl, ⟨s, hs⟩ | ht⟩ := literal_head value
    · exact ⟨t, w, rfl, opens_of_scalar hs⟩
    · exact ⟨t, w, rfl, ht.opens rfl⟩
  | comprehension left => exact ⟨_, _, rfl, left.opens rfl⟩
  | filtered left => exact ⟨_, _, rfl, left.opens rfl⟩
  | quantifier keyword => exact ⟨_, _, rfl, opens_of_quantifier keyword⟩
  | property name _ =>
    obtain ⟨t, rfl, ht, -⟩ := name.opens
    exact ⟨t, _, rfl, by rw [ht]; rfl⟩
  | call_star function _ _ _ =>
    obtain ⟨t, rfl, ht, -⟩ := function.opens
    exact ⟨t, _, rfl, by rw [ht]; rfl⟩
  | call_empty function _ _ =>
    obtain ⟨t, rfl, ht, -⟩ := function.opens
    exact ⟨t, _, rfl, by rw [ht]; rfl⟩
  | call function _ _ _ _ _ _ =>
    obtain ⟨t, rfl, ht, -⟩ := function.opens
    exact ⟨t, _, rfl, by rw [ht]; rfl⟩
  | args_done => cases hp
  | args_more => cases hp

theorem try_pattern_predicate_reads :
    Reads (try_pattern_predicate texts) fun found u =>
      (∃ pat, found = some pat ∧ IsPatternPredicate pat u) ∨ (found = none ∧ u = []) := by
  refine .get fun input => .ite (fun hguard => ?_) fun _ => Reads.pure (.inr ⟨rfl, rfl⟩) input
  obtain ⟨t, tail, rfl, ht⟩ := next_is_iff.mp (Bool.and_eq_true_iff.mp hguard).1
  intro found rest hrun
  rw [bind_run] at hrun
  obtain ⟨⟨pat, mid⟩, hpat, hrun⟩ := results.bind_ok_iff.mp hrun
  obtain ⟨u, hu, hpath⟩ := parse_path_pattern_reads texts _ hpat
  cases hpath with
  | @intro var start steps u v w name first hops =>
    -- A parenthesis stands in front, so the pattern has no name.
    have hname : var = none ∧ u = [] := by
      cases name with
      | none => exact ⟨rfl, rfl⟩
      | some part =>
        cases part with
        | intro ident _ =>
          obtain ⟨rfl, -⟩ := List.cons_eq_cons.mp hu
          rw [ht] at ident
          cases ident
    obtain ⟨rfl, rfl⟩ := hname
    cases steps with
    | nil => exact (err_here_reads _ (fun _ _ => False) mid hrun).elim fun _ h => h.2.elim
    | cons step steps =>
      cases hrun
      exact ⟨_, hu, .inl ⟨_, rfl, .intro first hops⟩⟩

/-- One link of an operator chain. -/
def IsLink (c : Connective) (lhs : Expr) (u : List Token) (e : Expr) : Prop :=
  ∃ t rhs v, u = t :: v ∧ t.Is c.sign ∧ IsExpr (.expr c.operand rhs) v ∧ e = .Binary c.op lhs rhs t.span

theorem chain_of_run {c : Connective} {lhs e : Expr} {v : List Token} (h : Run (IsLink c) lhs v e) :
    IsExpr (.chain c lhs e) v := by
  induction h with
  | done => exact .chain_done
  | step head _ ih =>
    obtain ⟨t, rhs, w, rfl, ht, hrhs, rfl⟩ := head
    exact .chain_link ht hrhs ih

theorem binary_chain_reads {c : Connective} {operand : Parser Expr}
    (h : Reads operand fun e u => IsExpr (.expr c.operand e) u) :
    Reads (binary_chain c.sign c.op operand) fun e w =>
      ∃ first u v, w = u ++ v ∧ IsExpr (.expr c.operand first) u ∧ IsExpr (.chain c first e) v := by
  have hlink : ∀ lhs input, next_is c.sign input = true → ReadsAt (do
      let span := peek_span (← get)
      bump
      let rhs ← operand
      return .Binary c.op lhs rhs span) (fun e u => IsLink c lhs u e) input := by
    intro lhs input hguard
    refine .get ((reads_sign_span hguard).bind ?_)
    rintro _ _ ⟨t, rfl, ht, hspan⟩
    refine h.bind fun rhs u hrhs => .pure ?_
    rw [List.append_nil, ← hspan]
    exact ⟨t, rhs, u, rfl, ht, hrhs, rfl⟩
  exact h.bind fun first u hfirst => (Reads.loop hlink first).imp fun e v hrun =>
    ⟨first, u, v, rfl, hfirst, chain_of_run hrun⟩

/-- `NOT` in front of another `NOT` or of a comparison. -/
theorem not_of_inner {t : Token} {e : Expr} {u : List Token} (ht : t.Is .Not)
    (h : (∃ n v, u = n :: v ∧ n.Is .Not ∧ IsExpr (.expr .not e) u) ∨ IsExpr (.expr .comparison e) u) :
    IsExpr (.expr .not (.Not e)) (t :: u) := by
  obtain ⟨n, v, rfl, hn, h⟩ | h := h
  · exact .not_not ht hn h
  · exact .not_comparison ht h

theorem args_tail {es : List Expr} {u : List Token} (h : Many (After (Token.Is .Comma) IsQueryExpr) es u) :
    IsExpr (.args es) u := by
  induction h with
  | nil => exact .args_done
  | cons head _ ih =>
    cases head with
    | intro comma first => exact .args_more comma first ih

section nested

variable {expr : Parser Expr} (hexpr : Reads expr IsQueryExpr)

include hexpr

theorem parse_function_call_reads {name : Spanned String} {u : List Token} (hname : IsName name u) :
    Reads (parse_function_call texts expr name) fun e v => IsExpr (.expr .primary e) (u ++ v) := by
  refine (expect_reads texts _ _).bind ?_
  rintro _ _ ⟨o, rfl, ho⟩
  have hargs : Reads (parse_call_args expr) fun args v =>
      (∃ s, v = [s] ∧ s.Is .Star ∧ args = [.Property ⟨"*", s.span⟩ []]) ∨
        ((args = [] ∧ v = []) ∨ Separated (Token.Is .Comma) IsQueryExpr args v) := by
    refine .get fun input => .ite (fun hstar => ?_) fun _ =>
      ((comma_list_until_reads .RParen hexpr) input).imp fun _ _ h => .inr h
    refine (reads_sign_span hstar).bind ?_
    rintro _ _ ⟨s, rfl, hs, hspan⟩
    exact .pure (.inl ⟨s, rfl, hs, by rw [hspan]⟩)
  refine hargs.bind fun args v hv => (expect_reads texts _ _).bind ?_
  rintro _ _ ⟨c, rfl, hc⟩
  refine .pure ?_
  rw [List.append_nil]
  obtain ⟨s, rfl, hs, rfl⟩ | ⟨rfl, rfl⟩ | hv := hv
  · exact .call_star hname ho hs hc
  · exact .call_empty hname ho hc
  · cases hv with
    | intro head tail => exact .call hname ho head (args_tail tail) hc

theorem parse_list_comp_reads : Reads (parse_list_comp texts expr) fun e u => IsExpr (.expr .primary e) u := by
  refine (expect_reads texts _ _).bind ?_
  rintro _ _ ⟨o, rfl, ho⟩
  refine (expect_ident_reads texts _).bind fun var x hx => (expect_reads texts _ _).bind ?_
  rintro _ _ ⟨i, rfl, hi⟩
  refine hexpr.bind fun list u hu => (opt_after_reads .Where hexpr).bind fun filter v hv =>
    (expect_reads texts _ _).bind ?_
  rintro _ _ ⟨p, rfl, hp⟩
  refine hexpr.bind fun projection w hw => (expect_reads texts _ _).bind ?_
  rintro _ _ ⟨c, rfl, hc⟩
  refine .pure ?_
  cases hx with
  | intro ident =>
    cases hv with
    | none => simpa using IsExpr.comprehension ho (.intro ident) hi hu hp hw hc
    | some part =>
      cases part with
      | intro keyword condition => simpa using IsExpr.filtered ho (.intro ident) hi hu keyword condition hp hw hc

theorem parse_quantifier_reads {kind : QuantifierKind} {input : List Token}
    (hkind : quantifier_kind (peek input) = some kind) :
    ReadsAt (parse_quantifier texts expr kind) (fun e u => IsExpr (.expr .primary e) u) input := by
  have hend : peek input ≠ .Eof := by
    intro heof
    rw [heof] at hkind
    cases hkind
  refine (reads_bump hend).bind ?_
  rintro _ _ ⟨k, rfl, hk, -⟩
  refine (expect_reads texts _ _).bind ?_
  rintro _ _ ⟨o, rfl, ho⟩
  refine (expect_ident_reads texts _).bind fun var x hx => (expect_reads texts _ _).bind ?_
  rintro _ _ ⟨i, rfl, hi⟩
  refine hexpr.bind fun list u hu => (expect_reads texts _ _).bind ?_
  rintro _ _ ⟨f, rfl, hf⟩
  refine hexpr.bind fun predicate v hv => (expect_reads texts _ _).bind ?_
  rintro _ _ ⟨c, rfl, hc⟩
  refine .pure ?_
  rw [← hk] at hkind
  cases hx with
  | intro ident => simpa using IsExpr.quantifier hkind ho (.intro ident) hi hu hf hv hc

theorem parse_primary_reads : Reads (parse_primary texts expr) fun e u => IsExpr (.expr .primary e) u := by
  refine .get fun input => .ite (fun hgroup => ?_) fun _ => .ite (fun _ => ?_) fun _ => ?_
  · refine (reads_sign hgroup).bind ?_
    rintro _ _ ⟨o, rfl, ho⟩
    refine hexpr.bind fun e u hu => (expect_reads texts _ _).bind ?_
    rintro _ _ ⟨c, rfl, hc⟩
    refine .pure ?_
    simpa using IsExpr.group ho hu hc
  · refine .ite (fun _ => parse_list_comp_reads texts hexpr input) fun _ => ?_
    exact ((parse_list_literal_reads texts (parse_literal_reads texts)).map fun _ _ h => .literal h) input
  · cases hkind : quantifier_kind (peek input) with
    | some kind => exact parse_quantifier_reads texts hexpr hkind
    | none =>
      cases hscalar : scalar (peek input) with
      | some v => exact ((parse_literal_reads texts).map fun _ _ h => .literal h) input
      | none =>
        refine ((expect_ident_reads texts _).bind fun name u hname => .get fun behind => ?_) input
        refine .ite (fun _ => parse_function_call_reads texts hexpr hname behind) fun _ => ?_
        refine ((many_after_reads .Dot (expect_ident_reads texts _)).bind fun segments v hv => .pure ?_) behind
        rw [List.append_nil]
        exact .property hname hv

theorem parse_comparison_reads :
    Reads (parse_comparison texts expr) fun e u => IsExpr (.expr .comparison e) u := by
  refine (parse_primary_reads texts hexpr).bind fun lhs u hlhs => .get fun input => ?_
  cases hop : comparison_op (peek input) with
  | some op =>
    have hend : peek input ≠ .Eof := by
      intro heof
      rw [heof] at hop
      cases hop
    refine (reads_bump hend).bind ?_
    rintro _ _ ⟨t, rfl, ht, hspan⟩
    refine (parse_primary_reads texts hexpr).bind fun rhs v hrhs => .pure ?_
    rw [← ht] at hop
    rw [← hspan, List.append_nil]
    exact .binary hlhs hop hrhs
  | none =>
    refine .ite (fun _ => plan_here_reads _ _ input) fun _ => Reads.pure ?_ input
    rw [List.append_nil]
    exact .primary hlhs

theorem parse_bare_reads : Reads (parse_bare texts expr) fun e u => IsExpr (.expr .not e) u := by
  refine (try_pattern_predicate_reads texts).bind ?_
  rintro _ u (⟨pat, rfl, hpat⟩ | ⟨rfl, rfl⟩)
  · refine .pure ?_
    rw [List.append_nil]
    exact .pattern hpat
  · exact (parse_comparison_reads texts hexpr).imp fun _ _ h => .comparison h

theorem parse_not_reads : Reads (parse_not texts expr) fun e u => IsExpr (.expr .not e) u := by
  intro input
  induction input with
  | nil => exact parse_bare_reads texts hexpr []
  | cons t rest ih =>
    intro e behind hrun
    rw [parse_not] at hrun
    by_cases hnot : next_is .Not [t] = true
    · rw [if_pos hnot] at hrun
      obtain ⟨t', _, ht', hnot⟩ := next_is_iff.mp hnot
      obtain rfl : t = t' := (List.cons_eq_cons.mp ht').1
      obtain ⟨⟨found, mid⟩, hfound, hrun⟩ := results.bind_ok_iff.mp hrun
      obtain ⟨u, hu, hcases⟩ := try_pattern_predicate_reads texts rest hfound
      obtain ⟨pat, rfl, hpat⟩ | ⟨rfl, rfl⟩ := hcases
      · cases hrun
        exact ⟨t :: u, by rw [hu, List.cons_append], .not_pattern hnot hpat⟩
      · obtain ⟨⟨inner, behind'⟩, hinner, hlast⟩ := results.bind_ok_iff.mp hrun
        have hread : ∃ u, rest = u ++ behind' ∧
            ((∃ n v, u = n :: v ∧ n.Is .Not ∧ IsExpr (.expr .not inner) u) ∨ IsExpr (.expr .comparison inner) u) := by
          obtain rfl : rest = mid := hu
          cases rest with
          | nil =>
            rw [parse_not, parse_bare, bind_run, hfound, results.except_bind_ok] at hinner
            obtain ⟨u, hu, h⟩ := parse_comparison_reads texts hexpr _ hinner
            exact ⟨u, hu, .inr h⟩
          | cons n tail =>
            by_cases hn : next_is .Not [n] = true
            · obtain ⟨n', _, hn', hn⟩ := next_is_iff.mp hn
              obtain rfl : n = n' := (List.cons_eq_cons.mp hn').1
              obtain ⟨u, hu, h⟩ := ih hinner
              obtain ⟨m, v, rfl, -⟩ := h.head
              obtain ⟨rfl, -⟩ := List.cons_eq_cons.mp hu
              exact ⟨_, hu, .inl ⟨_, _, rfl, hn, h⟩⟩
            · rw [parse_not, if_neg hn, parse_bare, bind_run, hfound, results.except_bind_ok] at hinner
              obtain ⟨u, hu, h⟩ := parse_comparison_reads texts hexpr _ hinner
              exact ⟨u, hu, .inr h⟩
        obtain ⟨u, hu, h⟩ := hread
        cases hlast
        exact ⟨t :: u, by rw [hu, List.cons_append], not_of_inner hnot h⟩
    · rw [if_neg hnot] at hrun
      exact parse_bare_reads texts hexpr _ hrun

theorem parse_or_reads : Reads (parse_or texts expr) IsQueryExpr := by
  have hand : Reads (parse_and texts expr) fun e u => IsExpr (.expr .and e) u := by
    refine (binary_chain_reads (c := .and) (parse_not_reads texts hexpr)).imp ?_
    rintro e _ ⟨first, u, v, rfl, hfirst, hchain⟩
    exact .and hfirst hchain
  refine (binary_chain_reads (c := .or) hand).imp ?_
  rintro e _ ⟨first, u, v, rfl, hfirst, hchain⟩
  exact .or hfirst hchain

end nested

theorem parse_expr_reads : Reads (parse_expr texts) IsQueryExpr := by
  have hwithin : ∀ fuel, Reads (parse_expr_within texts fuel) IsQueryExpr := by
    intro fuel
    induction fuel with
    | zero => exact expected_reads texts _ _
    | succ fuel ih => exact parse_or_reads texts ih
  exact fun input => hwithin _ input

/-! ### Clauses -/

theorem parse_opt_where_reads : Reads (parse_opt_where texts) IsWhere :=
  opt_after_reads .Where (parse_expr_reads texts)

theorem parse_alias_reads : Reads (parse_alias texts) IsAlias := by
  refine (opt_after_reads .As (expect_ident_reads texts _)).bind fun name u hu => .pure ?_
  rw [List.append_nil]
  cases hu with
  | none => exact .none
  | some part =>
    cases part with
    | intro keyword inner =>
      cases inner with
      | intro ident => exact .some (.intro keyword (.intro ident))

theorem parse_match_reads : Reads (parse_match texts) IsMatch := by
  refine (expect_reads texts _ _).bind ?_
  rintro _ _ ⟨m, rfl, hm⟩
  refine .get fun input => .ite (fun _ => plan_here_reads _ _ input) fun _ => ?_
  refine ((separated_reads .Comma (parse_path_pattern_reads texts)).bind fun patterns u hu =>
    (parse_opt_where_reads texts).bind fun condition v hv => .pure ?_) input
  simpa using IsMatch.intro hm hu hv

theorem parse_yield_item_reads : Reads (parse_yield_item texts) IsYieldItem := by
  refine (expect_ident_reads texts _).bind fun name u hu => (parse_alias_reads texts).bind fun alias_name v hv =>
    .pure ?_
  rw [List.append_nil]
  exact .intro hu hv

theorem parse_call_reads : Reads (parse_call texts) IsCall := by
  refine (expect_reads texts _ _).bind ?_
  rintro _ _ ⟨k, rfl, hk⟩
  refine (expect_ident_reads texts _).bind fun head u hu =>
    (many_after_reads .Dot (expect_ident_reads texts _)).bind fun segments v hv => (expect_reads texts _ _).bind ?_
  rintro _ _ ⟨o, rfl, ho⟩
  refine (comma_list_until_reads .RParen (parse_expr_reads texts)).bind fun args w hw =>
    (expect_reads texts _ _).bind ?_
  rintro _ _ ⟨c, rfl, hc⟩
  refine (expect_reads texts _ _).bind ?_
  rintro _ _ ⟨y, rfl, hy⟩
  refine (separated_reads .Comma (parse_yield_item_reads texts)).bind fun yields x hx =>
    (parse_opt_where_reads texts).bind fun condition z hz => .pure ?_
  simpa using IsCall.intro hk hu hv (bracketed_of ho hw hc) hy hx hz

theorem parse_return_items_reads :
    Reads (parse_return_items texts) (Separated (Token.Is .Comma) IsReturnItem) := by
  refine separated_reads .Comma ((parse_expr_reads texts).bind fun e u hu =>
    (parse_alias_reads texts).bind fun alias_name v hv => .pure ?_)
  rw [List.append_nil]
  exact .intro hu hv

theorem parse_sort_item_reads : Reads (parse_sort_item texts) IsSortItem := by
  refine (parse_expr_reads texts).bind fun e u hu => (eat_reads .Desc).bind ?_
  rintro _ _ (⟨rfl, t, rfl, ht⟩ | ⟨rfl, rfl⟩)
  · exact .pure (by simpa using IsSortItem.desc hu ht)
  · refine (eat_reads .Asc).bind ?_
    rintro _ _ (⟨rfl, t, rfl, ht⟩ | ⟨rfl, rfl⟩)
    · exact .pure (by simpa using IsSortItem.asc hu ht)
    · exact .pure (by simpa using IsSortItem.plain hu)

theorem parse_opt_order_by_reads : Reads (parse_opt_order_by texts) IsOrderBy := by
  refine (eat_reads .Order).bind ?_
  rintro _ _ (⟨rfl, o, rfl, ho⟩ | ⟨rfl, rfl⟩)
  · refine (expect_reads texts _ _).bind ?_
    rintro _ _ ⟨b, rfl, hb⟩
    exact (separated_reads .Comma (parse_sort_item_reads texts)).imp fun items u hu => .some ho hb hu
  · exact .pure .none

theorem parse_opt_limit_reads : Reads parse_opt_limit IsLimit := by
  refine (eat_reads .Limit).bind ?_
  rintro _ _ (⟨rfl, l, rfl, hl⟩ | ⟨rfl, rfl⟩)
  · refine .get fun input => ?_
    cases hk : peek input with
    | Int n =>
      refine .ite (fun hn => ?_) fun _ => err_here_reads _ _ input
      refine (reads_bump (by simp [hk])).bind ?_
      rintro _ _ ⟨t, rfl, hkind, -⟩
      exact .pure (.some hl (hkind.trans hk) hn)
    | _ => exact err_here_reads _ _ input
  · exact .pure .none

theorem eat_distinct_reads : Reads (eat .Distinct) IsDistinct := by
  refine (eat_reads .Distinct).imp ?_
  rintro _ _ (⟨rfl, t, rfl, ht⟩ | ⟨rfl, rfl⟩)
  · exact .present ht
  · exact .absent

theorem parse_return_reads : Reads (parse_return texts) IsReturn := by
  refine (expect_reads texts _ _).bind ?_
  rintro _ _ ⟨r, rfl, hr⟩
  refine eat_distinct_reads.bind fun distinct u hu => (parse_return_items_reads texts).bind fun items v hv =>
    (parse_opt_order_by_reads texts).bind fun order_by w hw => parse_opt_limit_reads.bind fun limit x hx => .pure ?_
  simpa using IsReturn.intro hr hu hv hw hx

theorem parse_with_reads {k : Token} (hk : k.Is .With) :
    Reads (parse_with texts) fun carry u => IsWith carry (k :: u) := by
  refine eat_distinct_reads.bind fun distinct u hu => (parse_return_items_reads texts).bind fun items v hv =>
    (parse_opt_order_by_reads texts).bind fun order_by w hw => parse_opt_limit_reads.bind fun limit x hx =>
    (parse_opt_where_reads texts).bind fun condition y hy => .pure ?_
  simpa using IsWith.intro hk hu hv hw hx hy

/-! ### Parts and queries -/

/-- A part closed by a `WITH` or by a `RETURN`. -/
inductive IsPart : QueryPart → List Token → Prop
  | carry {reading : List ReadingClause} {carry : WithClause} {u v : List Token} (clauses : Many IsReading reading u)
    (projection : IsWith carry v) : IsPart ⟨reading, none, some carry⟩ (u ++ v)
  | ret {reading : List ReadingClause} {ret : ReturnClause} {u v : List Token} (clauses : Many IsReading reading u)
    (result : IsReturn ret v) : IsPart ⟨reading, some ret, none⟩ (u ++ v)

theorem unclosed_part_reads (reading : List ReadingClause) (R : QueryPart → List Token → Prop) :
    Reads (unclosed_part texts reading) R := by
  refine .get fun input => ?_
  split
  · exact plan_here_reads _ _ input
  · exact .ite (fun _ => expected_reads texts _ _ input) fun _ => expected_reads texts _ _ input

theorem parse_part_reads : Reads (parse_part texts) IsPart := by
  have hreading : Reads (parse_reading texts) IsReading :=
    .get fun input => .ite (fun _ => ((parse_match_reads texts).map fun _ _ h => .Match h) input) fun _ =>
      ((parse_call_reads texts).map fun _ _ h => .Call h) input
  refine (Reads.many fun input _ => hreading input).bind fun reading u hu => (eat_reads .With).bind ?_
  rintro _ _ (⟨rfl, k, rfl, hk⟩ | ⟨rfl, rfl⟩)
  · refine (parse_with_reads texts hk).bind fun carry v hv => .pure ?_
    simpa using IsPart.carry hu hv
  · refine .get fun input => .ite (fun _ => ?_) fun _ => ?_
    · refine ((parse_return_reads texts).bind fun ret v hv => .pure ?_) input
      simpa using IsPart.ret hu hv
    · exact unclosed_part_reads texts reading _ input

theorem parse_parts_reads (fuel : Nat) : Reads (parse_parts texts fuel) IsParts := by
  induction fuel with
  | zero => exact expected_reads texts _ _
  | succ fuel ih =>
    refine (parse_part_reads texts).bind fun part u hu => ?_
    cases hu with
    | carry clauses projection =>
      refine ih.bind fun parts v hv => .pure ?_
      rw [List.append_nil]
      exact .carry clauses projection hv
    | ret clauses result =>
      refine .pure ?_
      rw [List.append_nil]
      exact .last clauses result

/-- A query that is parsed is written by the grammar, up to the end of the input. -/
theorem parse_query_reads {tokens rest : List Token} {query : Query}
    (h : parse_query texts tokens = .ok (query, rest)) :
    ∃ used, tokens = used ++ rest ∧ IsQuery query used ∧ at_eof rest = true := by
  rw [parse_query, get_run, bind_run] at h
  obtain ⟨⟨parts, mid⟩, hparts, h⟩ := results.bind_ok_iff.mp h
  obtain ⟨used, hused, hp⟩ := parse_parts_reads texts _ _ hparts
  rw [get_run] at h
  cases hend : at_eof mid with
  | false =>
    simp only [hend, Bool.not_false, if_true] at h
    split at h <;> cases h
  | true =>
    simp only [hend, Bool.not_true, Bool.false_eq_true, if_false] at h
    split at h
    · cases h
      exact ⟨used, hused, hp, hend⟩
    · cases h

end parser

end cgx.cql
