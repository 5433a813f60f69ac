import Cgx.Cql.Accepts
import Cgx.Cql.Lexed

open parsing

namespace cgx.cql

/-! ### The end of the input -/

theorem Spells.ne_eof {parse_f64 : String → Option Float} {kind : TokenKind} {word : List Char}
    (h : Spells parse_f64 kind word) : kind ≠ .Eof := by
  cases h with
  | _ => simp

/-- The end of the input stands behind all other tokens, and only there. -/
theorem Laid.ends {parse_f64 : String → Option Float} {words : List (List Char × TokenKind × List Char)}
    {last : List Char} (h : Laid parse_f64 words last) (pos : Nat) :
    ∃ before span, laid_tokens pos words last = before ++ [⟨.Eof, span⟩] ∧ ∀ t ∈ before, t.kind ≠ .Eof := by
  induction h generalizing pos with
  | done _ => exact ⟨[], _, rfl, fun t ht => absurd ht List.not_mem_nil⟩
  | @word gap word last kind words _ spelling _ ih =>
    obtain ⟨before, span, htokens, hbefore⟩ := ih (pos + byte_len gap + byte_len word)
    refine ⟨⟨kind, ⟨pos + byte_len gap, pos + byte_len gap + byte_len word⟩⟩ :: before, span, ?_, fun t ht => ?_⟩
    · rw [laid_tokens, htokens]
      rfl
    · obtain rfl | ht := List.mem_cons.mp ht
      · exact spelling.ne_eof
      · exact hbefore t ht

section parser

variable (texts : Texts)

/-! ### Clauses -/

theorem takes_expr {e : Expr} {u : List Token} (h : IsQueryExpr e u) : Takes (parse_expr texts) e u (Before ends) := by
  intro rest hrest
  have hlen : u.length ≤ (u ++ rest).length := by
    rw [List.length_append]
    omega
  exact takes_nested texts h (expr_taken texts h) hlen rest hrest

theorem takes_where {condition : Option Expr} {u : List Token} (h : IsWhere condition u) {F : List Fixed}
    (hwhere : Fixed.Where ∉ F) (hfs : ∀ f ∈ F, f ∈ ends) : Takes (parse_opt_where texts) condition u (Before F) :=
  takes_opt_after hwhere (fun _ _ he => (takes_expr texts he).imp fun _ hrest => hrest.mono hfs) h

theorem takes_alias {alias_name : Option String} {u : List Token} (h : IsAlias alias_name u) {F : List Fixed}
    (has : Fixed.As ∉ F) : Takes (parse_alias texts) alias_name u (Before F) := by
  have hname : ∀ name u, IsName name u → Takes (expect_ident texts "alias after AS") name u (Before F) :=
    fun name u hn => (takes_name texts hn).imp fun _ _ => trivial
  cases h with
  | none => exact (takes_opt_after has hname .none).bind_pure
  | some part =>
    cases part with
    | intro keyword inner =>
      cases inner with
      | intro ident => exact (takes_opt_after has hname (.some (.intro keyword (.intro ident)))).bind_pure

theorem path_not_all {path : PathPattern} {u : List Token} (h : IsPath path u) (rest : List Token) :
    next_is .All (u ++ rest) = false := by
  cases h with
  | @intro var start steps u v w name first hops =>
    cases name with
    | none =>
      obtain ⟨o, x, rfl, ho⟩ := first.head
      exact next_is_other ho (by decide)
    | some part =>
      cases part with
      | intro ident _ => exact next_is_ne (by simp [ident])

/-- The tokens that open what follows a clause. -/
def openers : List Fixed := [.Match, .Call, .With, .Return]

theorem takes_match {clause : MatchClause} {u : List Token} (h : IsMatch clause u) :
    Takes (parse_match texts) clause u (Before openers) := by
  cases h with
  | @intro m patterns condition u v keyword paths filter =>
    refine (takes_expect texts keyword).bind (v := u ++ v) (Takes.get fun rest hrest => ?_) fun _ _ => trivial
    have hall : next_is .All (u ++ v ++ rest) = false := by
      cases paths with
      | intro head _ =>
        rw [List.append_assoc, List.append_assoc]
        exact path_not_all head _
    rw [hall]
    refine ((takes_separated (F := .Where :: openers) (by decide) (fun path w hpath => ?_) paths).bind
      (takes_where texts filter (by decide) (by decide)).bind_pure fun rest hrest => hrest.opt filter) rest hrest
    exact (takes_path texts hpath).imp fun rest hrest => hrest.not_arrow (by decide) (by decide)

theorem takes_yield_item {item : YieldItem} {u : List Token} (h : IsYieldItem item u) {F : List Fixed}
    (has : Fixed.As ∉ F) : Takes (parse_yield_item texts) item u (Before F) := by
  cases h with
  | intro column renamed =>
    exact (takes_name texts column).bind (takes_alias texts renamed has).bind_pure fun _ _ => trivial

theorem takes_call_clause {clause : CallClause} {u : List Token} (h : IsCall clause u) :
    Takes (parse_call texts) clause u (Before openers) := by
  cases h with
  | @intro k y head segments args yields condition u v w x z keyword name path inputs yield columns filter =>
    have hyields : Takes (separated .Comma (parse_yield_item texts)) yields x (Before (.Where :: openers)) :=
      takes_separated (by decide) (fun item t hitem => takes_yield_item texts hitem (by decide)) columns
    have hsegments : Takes (many_after .Dot (expect_ident texts "procedure name segment after `.`")) segments v
        (Before [.LParen]) :=
      takes_many_after (by decide) (fun _ _ hn => (takes_name texts hn).imp fun _ _ => trivial) path
    have hinputs : ∃ o m c, w = o :: (m ++ [c]) ∧ o.Is .LParen ∧ c.Is .RParen ∧
        Takes (comma_list_until .RParen (parse_expr texts)) args m fun rest => next_is .RParen rest = true := by
      have hlist : ∀ m, ((args = [] ∧ m = []) ∨ Separated (Token.Is .Comma) IsQueryExpr args m) →
          Takes (comma_list_until .RParen (parse_expr texts)) args m fun rest => next_is .RParen rest = true :=
        fun m hm => takes_list (by decide) (fun e t he => expr_not_next he rfl)
          (fun e t he => (takes_expr texts he).imp fun rest hrest => hrest.mono (by decide)) hm
      cases inputs with
      | @empty o c left right => exact ⟨o, [], c, rfl, left, right, hlist _ (.inl ⟨rfl, rfl⟩)⟩
      | @items o c _ m left items right => exact ⟨o, m, c, rfl, left, right, hlist _ (.inr items)⟩
    obtain ⟨o, m, c, rfl, ho, hc, hargs⟩ := hinputs
    have hsplit : k :: (u ++ v ++ (o :: (m ++ [c])) ++ y :: (x ++ z)) =
        [k] ++ (u ++ (v ++ ([o] ++ (m ++ ([c] ++ ([y] ++ (x ++ z))))))) := by simp
    rw [hsplit]
    exact (takes_expect texts keyword).bind ((takes_name texts name).bind (hsegments.bind ((takes_expect texts ho).bind
      (hargs.bind ((takes_expect texts hc).bind ((takes_expect texts yield).bind (hyields.bind
        (takes_where texts filter (by decide) (by decide)).bind_pure fun rest hrest => hrest.opt filter)
        fun _ _ => trivial) fun _ _ => trivial) fun _ _ => next_is_cons hc) fun _ _ => trivial)
      fun _ _ => .cons ho (by decide)) fun _ _ => trivial) fun _ _ => trivial

theorem takes_reading {clause : ReadingClause} {u : List Token} (h : IsReading clause u) :
    Takes (parse_reading texts) clause u (Before openers) := by
  refine Takes.get fun rest hrest => ?_
  cases h with
  | Match inner =>
    have hnext : next_is .Match (u ++ rest) = true := by
      cases inner with
      | intro keyword _ _ => exact next_is_cons keyword
    rw [if_pos hnext, map_run, takes_match texts inner rest hrest]
    rfl
  | Call inner =>
    have hnext : next_is .Match (u ++ rest) = false := by
      cases inner with
      | intro keyword _ _ _ _ _ _ => exact next_is_other keyword (by decide)
    rw [hnext]
    simp only [Bool.false_eq_true, if_false]
    rw [map_run, takes_call_clause texts inner rest hrest]
    rfl

theorem takes_return_items {items : List ReturnItem} {u : List Token}
    (h : Separated (Token.Is .Comma) IsReturnItem items u) {F : List Fixed} (hcomma : Fixed.Comma ∉ F)
    (has : Fixed.As ∉ F) (hfs : ∀ f ∈ F, f ∈ ends) : Takes (parse_return_items texts) items u (Before F) := by
  refine takes_separated hcomma (fun item w hitem => ?_) h
  have has' : Fixed.As ∉ Fixed.Comma :: F := by simpa using has
  cases hitem with
  | intro value renamed =>
    refine (takes_expr texts value).bind (takes_alias texts renamed has').bind_pure fun rest hrest => ?_
    refine (hrest.opt renamed).mono fun f hf => ?_
    obtain rfl | rfl | hf := by simpa using hf
    · decide
    · decide
    · exact hfs f hf

theorem takes_sort_item {item : OrderBy} {u : List Token} (h : IsSortItem item u) {F : List Fixed}
    (hdesc : Fixed.Desc ∉ F) (hasc : Fixed.Asc ∉ F) (hfs : ∀ f ∈ F, f ∈ ends) :
    Takes (parse_sort_item texts) item u (Before F) := by
  cases h with
  | plain value =>
    refine (takes_expr texts value).bind_nil (takes_no_eat.bind (u := []) (takes_no_eat.bind (u := []) (N := Before F)
      Takes.pure fun rest hrest => ?_) fun rest hrest => ?_) fun rest hrest => hrest.mono hfs
    · exact hrest.not_next hasc
    · exact hrest.not_next hdesc
  | asc value order =>
    refine (takes_expr texts value).bind (takes_no_eat.bind (u := []) ((takes_eat order).bind_nil (N := Before F)
      Takes.pure fun _ _ => trivial) fun rest hrest => ?_) fun rest _ => ?_
    · exact next_is_other order (by decide)
    · exact .cons order (by decide)
  | desc value order =>
    exact (takes_expr texts value).bind ((takes_eat order).bind_nil (N := Before F) Takes.pure fun _ _ => trivial)
      fun rest _ => .cons order (by decide)

theorem takes_order_by {items : List OrderBy} {u : List Token} (h : IsOrderBy items u) {F : List Fixed}
    (horder : Fixed.Order ∉ F) (hcomma : Fixed.Comma ∉ F) (hdesc : Fixed.Desc ∉ F) (hasc : Fixed.Asc ∉ F)
    (hfs : ∀ f ∈ F, f ∈ ends) : Takes (parse_opt_order_by texts) items u (Before F) := by
  cases h with
  | none => exact takes_no_eat.bind (N := Before F) Takes.pure fun rest hrest => hrest.not_next horder
  | some order by_keyword keys =>
    refine (takes_eat order).bind ((takes_expect texts by_keyword).bind (takes_separated hcomma (fun item w hitem => ?_)
      keys) fun _ _ => trivial) fun _ _ => trivial
    refine takes_sort_item texts hitem (by simpa using hdesc) (by simpa using hasc) fun f hf => ?_
    obtain rfl | hf := List.mem_cons.mp hf
    · decide
    · exact hfs f hf

theorem Before.order {items : List OrderBy} {u rest : List Token} (h : IsOrderBy items u) {F : List Fixed}
    (hrest : Before F rest) : Before (.Order :: F) (u ++ rest) := by
  cases h with
  | none => exact hrest.mono fun g hg => List.mem_cons_of_mem _ hg
  | some order _ _ => exact .cons order List.mem_cons_self

theorem takes_limit {limit : Option Nat} {u : List Token} (h : IsLimit limit u) {F : List Fixed}
    (hlimit : Fixed.Limit ∉ F) : Takes parse_opt_limit limit u (Before F) := by
  cases h with
  | none => exact takes_no_eat.bind (N := Before F) Takes.pure fun rest hrest => hrest.not_next hlimit
  | @some l t n keyword int lower =>
    refine (takes_eat keyword).bind (v := [t]) (Takes.get fun rest _ => ?_) fun _ _ => trivial
    have hpeek : peek ([t] ++ rest) = .Int n := int
    rw [hpeek]
    simp only [lower, if_true]
    exact (takes_bump (by simp [int])).bind_pure rest trivial

theorem Before.limit {limit : Option Nat} {u rest : List Token} (h : IsLimit limit u) {F : List Fixed}
    (hrest : Before F rest) : Before (.Limit :: F) (u ++ rest) := by
  cases h with
  | none => exact hrest.mono fun g hg => List.mem_cons_of_mem _ hg
  | some keyword _ _ => exact .cons keyword List.mem_cons_self

theorem takes_distinct {distinct : Bool} {u : List Token} (h : IsDistinct distinct u) : Takes (eat .Distinct) distinct u fun rest => next_is .Distinct rest = false := by
  cases h with
  | absent => exact takes_no_eat
  | present keyword => exact (takes_eat keyword).imp fun _ _ => trivial

theorem items_not_distinct {items : List ReturnItem} {u : List Token}
    (h : Separated (Token.Is .Comma) IsReturnItem items u) (rest : List Token) : next_is .Distinct (u ++ rest) = false := by
  cases h with
  | intro head _ =>
    cases head with
    | intro value _ =>
      rw [List.append_assoc, List.append_assoc]
      exact expr_not_next value rfl _

theorem takes_return {ret : ReturnClause} {u : List Token} (h : IsReturn ret u) :
    Takes (parse_return texts) ret u (Before []) := by
  cases h with
  | @intro r distinct items order_by limit u v w x keyword dedup columns order cap =>
    have hitems : Takes (parse_return_items texts) items v (Before [.Order, .Limit]) :=
      takes_return_items texts columns (by decide) (by decide) (by decide)
    have horder : Takes (parse_opt_order_by texts) order_by w (Before [.Limit]) :=
      takes_order_by texts order (by decide) (by decide) (by decide) (by decide) (by decide)
    rw [List.append_assoc, List.append_assoc, ← List.singleton_append]
    refine (takes_expect texts keyword).bind ((takes_distinct dedup).bind (hitems.bind (horder.bind
      (takes_limit cap (by decide)).bind_pure fun rest hrest => hrest.limit cap) fun rest hrest => ?_)
      fun rest _ => ?_) fun _ _ => trivial
    · rw [List.append_assoc]
      exact (hrest.limit cap).order order
    · rw [List.append_assoc]
      exact items_not_distinct columns _

/-- What may follow a `WITH`: the next part. -/
theorem takes_with {carry : WithClause} {k : Token} {u : List Token} (h : IsWith carry (k :: u)) :
    Takes (parse_with texts) carry u (Before openers) ∧ k.Is .With := by
  generalize hused : k :: u = used at h
  cases h with
  | @intro k' distinct items order_by limit condition u' v w x y keyword dedup columns order cap filter =>
    obtain ⟨rfl, rfl⟩ := List.cons_eq_cons.mp hused
    refine ⟨?_, keyword⟩
    have hitems : Takes (parse_return_items texts) items v (Before (.Order :: .Limit :: .Where :: openers)) :=
      takes_return_items texts columns (by decide) (by decide) (by decide)
    have horder : Takes (parse_opt_order_by texts) order_by w (Before (.Limit :: .Where :: openers)) :=
      takes_order_by texts order (by decide) (by decide) (by decide) (by decide) (by decide)
    have hlimit : Takes parse_opt_limit limit x (Before (.Where :: openers)) := takes_limit cap (by decide)
    rw [List.append_assoc, List.append_assoc, List.append_assoc]
    refine (takes_distinct dedup).bind (hitems.bind (horder.bind (hlimit.bind
      (takes_where texts filter (by decide) (by decide)).bind_pure fun rest hrest => hrest.opt filter)
      fun rest hrest => ?_) fun rest hrest => ?_) fun rest _ => ?_
    · rw [List.append_assoc]
      exact (hrest.opt filter).limit cap
    · rw [List.append_assoc, List.append_assoc]
      exact ((hrest.opt filter).limit cap).order order
    · rw [List.append_assoc]
      exact items_not_distinct columns _

/-! ### Parts and queries -/

theorem IsReading.head {clause : ReadingClause} {u : List Token} (h : IsReading clause u) :
    ∃ t v, u = t :: v ∧ (t.Is .Match ∨ t.Is .Call) := by
  cases h with
  | Match inner =>
    cases inner with
    | intro keyword _ _ => exact ⟨_, _, rfl, .inl keyword⟩
  | Call inner =>
    cases inner with
    | intro keyword _ _ _ _ _ _ => exact ⟨_, _, rfl, .inr keyword⟩

theorem takes_readings {reading : List ReadingClause} {u : List Token} (h : Many IsReading reading u) :
    Takes (many next_is_reading (parse_reading texts)) reading u
      fun rest => next_is_reading rest = false ∧ Before openers rest := by
  refine Takes.many (h.imp fun clause v hclause => ⟨?_, fun rest => ?_, takes_reading texts hclause⟩)
  · obtain ⟨t, w, rfl, -⟩ := hclause.head
    simp
  · obtain ⟨t, w, rfl, ht | ht⟩ := hclause.head
    · exact ⟨by simp [next_is_reading, next_is_cons ht], .cons ht (by decide)⟩
    · exact ⟨by simp [next_is_reading, next_is_cons ht], .cons ht (by decide)⟩

/-- A token that closes the reading clauses of a part. -/
theorem closes_reading {f : Fixed} {t : Token} {rest : List Token} (ht : t.Is f) (hf : f ∈ openers)
    (hmatch : f ≠ .Match) (hcall : f ≠ .Call) :
    next_is_reading (t :: rest) = false ∧ Before openers (t :: rest) := by
  refine ⟨?_, .cons ht hf⟩
  rw [next_is_reading, next_is_other ht hmatch, next_is_other ht hcall]
  rfl

theorem takes_last_part {reading : List ReadingClause} {ret : ReturnClause} {u v : List Token}
    (clauses : Many IsReading reading u) (result : IsReturn ret v) :
    Takes (parse_part texts) ⟨reading, some ret, none⟩ (u ++ v) (Before []) := by
  obtain ⟨r, w, rfl, hr⟩ : ∃ r w, v = r :: w ∧ r.Is .Return := by
    cases result with
    | intro keyword _ _ _ _ => exact ⟨_, _, rfl, keyword⟩
  refine (takes_readings texts clauses).bind (takes_no_eat.bind (u := []) (Takes.get fun rest hrest => ?_)
    fun rest _ => next_is_other hr (by decide)) fun rest _ => closes_reading hr (by decide) (by decide) (by decide)
  have hnext : next_is .Return (r :: w ++ rest) = true := next_is_cons hr
  rw [if_pos hnext]
  exact (takes_return texts result).bind_pure rest hrest

theorem takes_carry_part {reading : List ReadingClause} {carry : WithClause} {u v : List Token}
    (clauses : Many IsReading reading u) (projection : IsWith carry v) :
    Takes (parse_part texts) ⟨reading, none, some carry⟩ (u ++ v) (Before openers) := by
  obtain ⟨k, w, rfl⟩ : ∃ k w, v = k :: w := by
    cases projection with
    | intro _ _ _ _ _ _ => exact ⟨_, _, rfl⟩
  obtain ⟨htake, hk⟩ := takes_with texts projection
  exact (takes_readings texts clauses).bind ((takes_eat hk).bind htake.bind_pure fun _ _ => trivial)
    fun rest _ => closes_reading hk (by decide) (by decide) (by decide)

theorem IsParts.head {parts : List QueryPart} {u : List Token} (h : IsParts parts u) (rest : List Token) :
    Before openers (u ++ rest) := by
  have hpart : ∀ {reading : List ReadingClause} {v : List Token} {t : Token} {f : Fixed} {w : List Token},
      Many IsReading reading v → t.Is f → f ∈ openers → Before openers (v ++ t :: w) := by
    intro reading v t f w clauses ht hf
    cases clauses with
    | nil => exact .cons ht hf
    | cons head _ =>
      obtain ⟨m, x, rfl, hm | hm⟩ := head.head
      · exact .cons hm (by decide)
      · exact .cons hm (by decide)
  cases h with
  | last clauses result =>
    cases result with
    | intro keyword _ _ _ _ =>
      rw [List.append_assoc]
      exact hpart clauses keyword (by decide)
  | carry clauses projection further =>
    cases projection with
    | intro keyword _ _ _ _ _ =>
      rw [List.append_assoc, List.append_assoc]
      exact hpart clauses keyword (by decide)

theorem takes_parts {parts : List QueryPart} {u : List Token} (h : IsParts parts u) (fuel : Nat) (hfuel : u.length ≤ fuel) :
    Takes (parse_parts texts fuel) parts u (Before []) := by
  induction h generalizing fuel with
  | @last reading ret u v clauses result =>
    obtain ⟨r, w, rfl⟩ : ∃ r w, v = r :: w := by
      cases result with
      | intro _ _ _ _ _ => exact ⟨_, _, rfl⟩
    simp only [List.length_append, List.length_cons] at hfuel
    obtain ⟨fuel, rfl⟩ : ∃ n, fuel = n + 1 := ⟨fuel - 1, by omega⟩
    exact (takes_last_part texts clauses result).bind_nil (N := Before []) Takes.pure fun _ hrest => hrest
  | @carry reading carry parts u v w clauses projection further ih =>
    obtain ⟨k, x, rfl⟩ : ∃ k x, v = k :: x := by
      cases projection with
      | intro _ _ _ _ _ _ => exact ⟨_, _, rfl⟩
    simp only [List.length_append, List.length_cons] at hfuel
    obtain ⟨fuel, rfl⟩ : ∃ n, fuel = n + 1 := ⟨fuel - 1, by omega⟩
    exact (takes_carry_part texts clauses projection).bind (ih fuel (by omega)).bind_pure
      fun rest _ => further.head rest

theorem parts_return {parts : List QueryPart} {u : List Token} (h : IsParts parts u) :
    (parts.getLast?.bind QueryPart.ret).isSome = true := by
  induction h with
  | last _ _ => rfl
  | carry _ _ further ih =>
    cases further with
    | last _ _ => rfl
    | carry _ _ _ => simpa using ih

theorem parse_query_eq {query : Query} {used : List Token} (h : IsQuery query used) (span : Span) :
    parse_query texts (used ++ [⟨.Eof, span⟩]) = .ok (query, [⟨.Eof, span⟩]) := by
  have hlen : used.length ≤ (used ++ [(⟨.Eof, span⟩ : Token)]).length := by
    rw [List.length_append]
    omega
  have hend : at_eof [(⟨.Eof, span⟩ : Token)] = true := rfl
  rw [parse_query, get_run, bind_run, takes_parts texts h _ hlen _ (.inl rfl), results.except_bind_ok, get_run, hend]
  simp only [Bool.not_true, Bool.false_eq_true, if_false, parts_return h, if_true]
  rfl

theorem at_eof_cons {tokens : List Token} (h : at_eof tokens = true) : ∃ t tail, tokens = t :: tail ∧ t.kind = .Eof := by
  unfold at_eof at h
  split at h
  · exact ⟨_, _, rfl, rfl⟩
  · cases h

/-- Two queries with one spelling are the same. -/
theorem query_unambiguous {query query' : Query} {used : List Token} (h : IsQuery query used) (h' : IsQuery query' used) :
    query = query' := by
  have htexts : Texts := ⟨fun _ => none, fun _ => "", fun _ => ""⟩
  have heq := (parse_query_eq htexts h default).symm.trans (parse_query_eq htexts h' default)
  cases heq
  rfl

/-- A text parses to a query exactly when its tokens, up to the end of the input, are a spelling of the query in the
grammar. -/
theorem parse_exact (src : String) (query : Query) :
    parse texts src = .ok query ↔
      ∃ used span, tokenize texts.parse_f64 src = .ok (used ++ [⟨.Eof, span⟩]) ∧ IsQuery query used := by
  constructor
  · intro h
    obtain ⟨tokens, htokens, h⟩ := results.bind_ok_iff.mp h
    obtain ⟨⟨query', rest⟩, hquery, h⟩ := results.bind_ok_iff.mp h
    cases h
    obtain ⟨used, rfl, hused, hrest⟩ := parse_query_reads texts hquery
    obtain ⟨words, last, hlaid, -, hlex⟩ := lex_from_laid (Nat.lt_succ_self _) htokens
    obtain ⟨before, span, hends, hbefore⟩ := hlaid.ends 0
    have heq := hlex.trans hends
    obtain ⟨t, tail, rfl, ht⟩ := at_eof_cons hrest
    obtain rfl | ⟨tail, x, rfl⟩ := List.eq_nil_or_concat tail
    · obtain ⟨rfl, hend⟩ := List.append_inj' heq rfl
      cases hend
      exact ⟨used, span, htokens, hused⟩
    · -- Another end of the input stands in front of the last token.
      rw [List.concat_eq_append, ← List.cons_append, ← List.append_assoc] at heq
      obtain ⟨rfl, -⟩ := List.append_inj' heq rfl
      exact absurd ht (hbefore t (by simp))
  · rintro ⟨used, span, htokens, hquery⟩
    rw [parse, htokens, results.except_bind_ok, parse_query_eq texts hquery]
    rfl

end parser

end cgx.cql
