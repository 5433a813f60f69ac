import Cgx.Cql.Sound

open parsing

namespace cgx.cql

/-! ### What may follow -/

/-- The rest is over, or goes on with one of the signs. -/
def Before (F : List Fixed) (rest : List Token) : Prop :=
  peek rest = .Eof ∨ ∃ f ∈ F, peek rest = .Fixed f

/-- Any rest at all. -/
def Anything (_ : List Token) : Prop := True

namespace Before

variable {F gs : List Fixed} {rest : List Token}

theorem mono (h : Before F rest) (hsub : ∀ f ∈ F, f ∈ gs) : Before gs rest := by
  obtain h | ⟨f, hf, h⟩ := h
  · exact .inl h
  · exact .inr ⟨f, hsub f hf, h⟩

theorem cons {f : Fixed} {t : Token} (ht : t.Is f) (hf : f ∈ F) : Before F (t :: rest) :=
  .inr ⟨f, hf, ht⟩

theorem not_next {f : Fixed} (h : Before F rest) (hf : f ∉ F) : next_is f rest = false := by
  unfold next_is
  obtain h | ⟨g, hg, h⟩ := h
  · rw [h]
  · rw [h]
    have hne : g ≠ f := fun heq => hf (heq ▸ hg)
    simpa using hne

theorem not_word (h : Before F rest) (word : String) : next_is_word word rest = false := by
  unfold next_is_word
  obtain h | ⟨f, _, h⟩ := h
  · simp [h]
  · simp [h]

theorem no_comparison (h : Before F rest) (hfs : ∀ f ∈ F, comparison_op (.Fixed f) = none) :
    comparison_op (peek rest) = none := by
  obtain h | ⟨f, hf, h⟩ := h
  · rw [h]
    rfl
  · rw [h]
    exact hfs f hf

/-- An optional part in front adds the sign it starts with. -/
theorem opt {α : Type} {R : α → List Token → Prop} {f : Fixed} {a : Option α} {u : List Token}
    (hopt : Opt (After (Token.Is f) R) a u) (h : Before F rest) : Before (f :: F) (u ++ rest) := by
  cases hopt with
  | none => exact h.mono fun g hg => List.mem_cons_of_mem f hg
  | some part =>
    cases part with
    | intro token _ => exact .cons token List.mem_cons_self

theorem many {α : Type} {R : α → List Token → Prop} {f : Fixed} {as : List α} {u : List Token}
    (hmany : Many (After (Token.Is f) R) as u) (h : Before F rest) : Before (f :: F) (u ++ rest) := by
  cases hmany with
  | nil => exact h.mono fun g hg => List.mem_cons_of_mem f hg
  | cons head _ =>
    cases head with
    | intro token _ => exact .cons token List.mem_cons_self

end Before

/-! ### The cursor -/

theorem next_is_cons {f : Fixed} {t : Token} {rest : List Token} (ht : t.Is f) : next_is f (t :: rest) = true :=
  next_is_iff.mpr ⟨t, rest, rfl, ht⟩

theorem next_is_ne {f : Fixed} {t : Token} {rest : List Token} (h : t.kind ≠ .Fixed f) :
    next_is f (t :: rest) = false := by
  by_contra hnot
  obtain ⟨t', _, heq, ht'⟩ := next_is_iff.mp (Bool.not_eq_false _ ▸ hnot)
  obtain rfl : t = t' := (List.cons_eq_cons.mp heq).1
  exact h ht'

theorem next_is_other {f g : Fixed} {t : Token} {rest : List Token} (ht : t.Is g) (hne : g ≠ f) :
    next_is f (t :: rest) = false := by
  have hkind : t.kind = .Fixed g := ht
  refine next_is_ne ?_
  simpa [hkind] using hne

theorem takes_bump {t : Token} (ht : t.kind ≠ .Eof) : Takes bump () [t] Anything := by
  intro rest _
  exact bump_cons ht

theorem takes_eat {f : Fixed} {t : Token} (ht : t.Is f) : Takes (eat f) true [t] Anything := by
  intro rest _
  rw [eat, get_run, List.singleton_append, next_is_cons ht, if_pos rfl, bind_run, bump_cons ht.ne_eof]
  rfl

theorem takes_no_eat {f : Fixed} : Takes (eat f) false [] fun rest => next_is f rest = false := by
  intro rest hrest
  rw [eat, get_run, List.nil_append, hrest]
  rfl

section parser

variable (texts : Texts)

theorem takes_expect {f : Fixed} {what : String} {t : Token} (ht : t.Is f) :
    Takes (expect texts f what) () [t] Anything := by
  intro rest _
  rw [expect, get_run, List.singleton_append, next_is_cons ht, if_pos rfl]
  exact bump_cons ht.ne_eof

theorem takes_name {what : String} {name : Spanned String} {u : List Token} (h : IsName name u) :
    Takes (expect_ident texts what) name u Anything := by
  cases h with
  | @intro t name ident =>
    intro rest _
    have hpeek : peek ([t] ++ rest) = .Ident name := ident
    rw [expect_ident, get_run, hpeek]
    simp only [List.singleton_append]
    rw [bind_run, bump_cons (by simp [ident])]
    rfl

theorem takes_opt_ident {var : Option String} {u : List Token} (h : Opt IsIdent var u) (F : List Fixed) :
    Takes parse_opt_ident var u (Before F) := by
  intro rest hrest
  rw [parse_opt_ident, get_run]
  cases h with
  | none =>
    rw [List.nil_append]
    obtain h | ⟨f, _, h⟩ := hrest
    · rw [h]
      rfl
    · rw [h]
      rfl
  | some part =>
    cases part with
    | @intro t _ ident =>
      have hpeek : peek ([t] ++ rest) = .Ident _ := ident
      rw [hpeek]
      simp only [List.singleton_append]
      rw [bind_run, bump_cons (by simp [ident])]
      rfl

variable {α : Type} {R : α → List Token → Prop} {F : List Fixed}

theorem takes_opt_after {f : Fixed} {part : Parser α} {a : Option α} {u : List Token} (hf : f ∉ F)
    (h : ∀ a u, R a u → Takes part a u (Before F)) (hopt : Opt (After (Token.Is f) R) a u) :
    Takes (opt_after f part) a u (Before F) := by
  cases hopt with
  | none => exact (takes_no_eat.bind (N := Before F) Takes.pure fun rest hrest => hrest.not_next hf)
  | some part =>
    cases part with
    | intro token part => exact (takes_eat token).bind ((h _ _ part).bind_pure) fun _ _ => trivial

theorem takes_many_after {f : Fixed} {item : Parser α} {as : List α} {u : List Token} (hf : f ∉ F)
    (h : ∀ a u, R a u → Takes item a u (Before (f :: F))) (hmany : Many (After (Token.Is f) R) as u) :
    Takes (many_after f item) as u (Before F) := by
  have hitems : Many (fun a u => u ≠ [] ∧ (∀ rest, next_is f (u ++ rest) = true ∧ Before (f :: F) (u ++ rest)) ∧
      Takes (do bump; item) a u (Before (f :: F))) as u := by
    refine hmany.imp fun a u hafter => ?_
    cases hafter with
    | intro token part =>
      exact ⟨by simp, fun rest => ⟨next_is_cons token, .cons token List.mem_cons_self⟩,
        (takes_bump token.ne_eof).bind (h _ _ part) fun _ _ => trivial⟩
  exact (Takes.many hitems).imp fun rest hrest => ⟨hrest.not_next hf, hrest.mono fun g hg => List.mem_cons_of_mem f hg⟩

theorem takes_separated {f : Fixed} {item : Parser α} {as : List α} {u : List Token} (hf : f ∉ F)
    (h : ∀ a u, R a u → Takes item a u (Before (f :: F))) (hsep : Separated (Token.Is f) R as u) :
    Takes (separated f item) as u (Before F) := by
  cases hsep with
  | intro head tail =>
    exact (h _ _ head).bind (takes_many_after hf h tail).bind_pure fun rest hrest => hrest.many tail

/-- A list up to its closing sign, none of whose items starts with that sign. -/
theorem takes_list {closes : Fixed} {item : Parser α} {as : List α} {u : List Token} (hcloses : Fixed.Comma ≠ closes)
    (hhead : ∀ a u, R a u → ∀ rest, next_is closes (u ++ rest) = false)
    (h : ∀ a u, R a u → Takes item a u (Before [.Comma, closes]))
    (hlist : (as = [] ∧ u = []) ∨ Separated (Token.Is .Comma) R as u) :
    Takes (comma_list_until closes item) as u fun rest => next_is closes rest = true := by
  intro rest hrest
  rw [comma_list_until, get_run]
  obtain ⟨rfl, rfl⟩ | hsep := hlist
  · rw [List.nil_append, hrest]
    rfl
  · have hnext : next_is closes (u ++ rest) = false := by
      cases hsep with
      | intro head _ =>
        rw [List.append_assoc]
        exact hhead _ _ head _
    rw [hnext]
    obtain ⟨c, tail, rfl, hc⟩ := next_is_iff.mp hrest
    exact takes_separated (by simpa using hcloses) h hsep _ (.cons hc List.mem_cons_self)

/-- A list with its brackets around it. -/
theorem takes_bracketed {opens closes : Fixed} {item : Parser α} {open_what close_what : String} {as : List α}
    {u : List Token} (hcloses : Fixed.Comma ≠ closes)
    (hhead : ∀ a u, R a u → ∀ rest, next_is closes (u ++ rest) = false)
    (h : ∀ a u, R a u → Takes item a u (Before [.Comma, closes])) (hb : Bracketed opens closes R as u) :
    Takes (do
      expect texts opens open_what
      let as ← comma_list_until closes item
      expect texts closes close_what
      return as) as u Anything := by
  have hall : ∀ {o c : Token} {v : List Token}, o.Is opens → c.Is closes →
      ((as = [] ∧ v = []) ∨ Separated (Token.Is .Comma) R as v) → Takes (do
      expect texts opens open_what
      let as ← comma_list_until closes item
      expect texts closes close_what
      return as) as ([o] ++ (v ++ [c])) Anything := by
    intro o c v ho hc hlist
    exact (takes_expect texts ho).bind ((takes_list hcloses hhead h hlist).bind (takes_expect texts hc).bind_pure
      fun _ _ => next_is_cons hc) fun _ _ => trivial
  cases hb with
  | empty left right => exact hall left right (.inl ⟨rfl, rfl⟩)
  | items left items right => exact hall left right (.inr items)

/-! ### Literals and patterns -/

theorem next_is_scalar {f : Fixed} {t : Token} {v : Value} {rest : List Token} (h : scalar t.kind = some v)
    (hf : scalar (.Fixed f) = none) : next_is f (t :: rest) = false := by
  refine next_is_ne fun hkind => ?_
  rw [hkind, hf] at h
  cases h

theorem literal_not_next {f : Fixed} {v : Value} {u : List Token} (h : IsLiteral (.one v) u)
    (hf : scalar (.Fixed f) = none) (hne : Fixed.LBracket ≠ f) (rest : List Token) : next_is f (u ++ rest) = false := by
  obtain ⟨t, w, rfl, ⟨s, hs⟩ | ht⟩ := literal_head h
  · exact next_is_scalar hs hf
  · exact next_is_other ht hne

/-- A list literal, where the parser of its items takes them. -/
theorem takes_list_literal {literal : Parser Value} {S : Value → List Token → Prop} {vs : List Value} {o c : Token}
    {u : List Token} (ho : o.Is .LBracket) (hc : c.Is .RBracket)
    (hS : ∀ v w, S v w → IsLiteral (.one v) w ∧ Takes literal v w Anything)
    (hitems : (vs = [] ∧ u = []) ∨ Separated (Token.Is .Comma) S vs u) :
    Takes (parse_list_literal texts literal) (.List vs) (o :: (u ++ [c])) Anything := by
  have hlist : Takes (comma_list_until .RBracket literal) vs u fun rest => next_is .RBracket rest = true := takes_list (by decide)
    (fun v w h => literal_not_next (hS v w h).1 rfl (by decide)) (fun v w h => (hS v w h).2.imp fun _ _ => trivial) hitems
  exact (takes_expect texts ho).bind (hlist.bind (takes_expect texts hc).bind_pure fun _ _ => next_is_cons hc)
    fun _ _ => trivial

/-- Literals, where the fuel covers their tokens. -/
def LiteralTaken : LiteralPhrase → List Token → Prop
  | .one v, u => ∀ fuel, u.length ≤ fuel → Takes (parse_literal_within texts fuel) v u Anything
  | .tail vs, u => ∀ fuel, u.length ≤ fuel → Many (After (Token.Is .Comma) fun v w =>
      IsLiteral (.one v) w ∧ Takes (parse_literal_within texts fuel) v w Anything) vs u

theorem takes_literal_list {fuel : Nat} {o : Token} {v : Value} {u : List Token} (ho : o.Is .LBracket)
    (h : Takes (parse_list_literal texts (parse_literal_within texts fuel)) v (o :: u) Anything) :
    Takes (parse_literal_within texts (fuel + 1)) v (o :: u) Anything := by
  intro rest hrest
  have hpeek : peek (o :: u ++ rest) = .Fixed .LBracket := ho
  rw [parse_literal_within, get_run, hpeek]
  simp only [scalar, List.cons_append, next_is_cons ho, if_true]
  exact h rest hrest

theorem literal_taken {phrase : LiteralPhrase} {u : List Token} (h : IsLiteral phrase u) : LiteralTaken texts phrase u := by
  induction h with
  | @scalar t v value =>
    intro fuel hfuel rest _
    cases fuel with
    | zero => simp at hfuel
    | succ fuel =>
      have hpeek : peek ([t] ++ rest) = t.kind := rfl
      have hend : t.kind ≠ .Eof := by
        intro heof
        rw [heof] at value
        cases value
      rw [parse_literal_within, get_run, hpeek, value]
      exact (takes_bump hend).bind_pure rest trivial
  | @empty o c left right =>
    intro fuel hfuel
    obtain ⟨fuel, rfl⟩ : ∃ n, fuel = n + 1 := ⟨fuel - 1, by simp at hfuel; omega⟩
    exact takes_literal_list texts left (takes_list_literal texts (S := fun _ _ => False) left right
      (fun _ _ h => h.elim) (.inl ⟨rfl, rfl⟩))
  | @list o c v vs u w left first further right ih_first ih_further =>
    intro fuel hfuel
    simp only [List.length_cons, List.length_append, List.length_nil] at hfuel
    obtain ⟨fuel, rfl⟩ : ∃ n, fuel = n + 1 := ⟨fuel - 1, by omega⟩
    exact takes_literal_list texts left (takes_list_literal texts left right (fun _ _ h => h)
      (.inr (.intro ⟨first, ih_first fuel (by omega)⟩ (ih_further fuel (by omega)))))
  | done => exact fun _ _ => .nil
  | @more t v vs u w comma first further ih_first ih_further =>
    intro fuel hfuel
    simp only [List.length_cons, List.length_append] at hfuel
    exact .cons (.intro comma ⟨first, ih_first fuel (by omega)⟩) (ih_further fuel (by omega))

theorem takes_literal {v : Value} {u : List Token} (h : IsLiteral (.one v) u) : Takes (parse_literal texts) v u Anything := by
  intro rest hrest
  have hlen : u.length ≤ (u ++ rest).length := by
    rw [List.length_append]
    omega
  exact literal_taken texts h _ hlen rest hrest

theorem takes_prop_entry {entry : PropEntry} {u : List Token} (h : IsPropEntry entry u) :
    Takes (parse_prop_entry texts) entry u Anything := by
  cases h with
  | @intro key v c k u name colon value =>
    rw [← List.singleton_append]
    exact (takes_name texts name).bind ((takes_expect texts colon).bind (takes_literal texts value).bind_pure
      fun _ _ => trivial) fun _ _ => trivial

theorem name_not_next {f : Fixed} {name : Spanned String} {u : List Token} (h : IsName name u) (rest : List Token) :
    next_is f (u ++ rest) = false := by
  obtain ⟨t, rfl, ht, -⟩ := h.opens
  have hpeek : peek ([t] ++ rest) = .Ident name.value := ht
  rw [next_is, hpeek]

theorem takes_opt_props {props : List PropEntry} {u : List Token} (h : IsProps props u) {F : List Fixed}
    (hfs : Fixed.LBrace ∉ F) : Takes (parse_opt_props texts) props u (Before F) := by
  intro rest hrest
  rw [parse_opt_props, get_run]
  cases h with
  | none =>
    rw [List.nil_append, hrest.not_next hfs]
    rfl
  | map entries =>
    have hnext : next_is .LBrace (u ++ rest) = true := by
      cases entries with
      | empty left _ => exact next_is_cons left
      | items left _ _ => exact next_is_cons left
    rw [if_pos hnext]
    refine takes_bracketed texts (by decide) (fun entry w he tail => ?_)
      (fun _ _ he => (takes_prop_entry texts he).imp fun _ _ => trivial) entries rest trivial
    cases he with
    | intro name _ _ =>
      rw [List.append_assoc]
      exact name_not_next name _

theorem Before.props {props : List PropEntry} {u rest : List Token} (h : IsProps props u) {F : List Fixed}
    (hrest : Before F rest) : Before (.LBrace :: F) (u ++ rest) := by
  cases h with
  | none => exact hrest.mono fun g hg => List.mem_cons_of_mem _ hg
  | map entries =>
    cases entries with
    | empty left _ => exact .cons left List.mem_cons_self
    | items left _ _ => exact .cons left List.mem_cons_self

theorem takes_node_pat {node : NodePat} {u : List Token} (h : IsNodePat node u) :
    Takes (parse_node_pat texts) node u Anything := by
  cases h with
  | @intro o c var label props u v w left name kind fields right =>
    rw [List.append_assoc, List.append_assoc, ← List.singleton_append]
    have hclose : ∀ rest, Before [.RParen] ([c] ++ rest) := fun rest => .cons right List.mem_cons_self
    refine (takes_expect texts left).bind ((takes_opt_ident name [.Colon, .LBrace, .RParen]).bind
      ((takes_opt_after (F := [.LBrace, .RParen]) (by decide) (fun a x hx => ?_) kind).bind
        ((takes_opt_props texts fields (F := [.RParen]) (by decide)).bind (takes_expect texts right).bind_pure
          fun rest _ => hclose rest) fun rest _ => ?_) fun rest _ => ?_) fun _ _ => trivial
    · exact (takes_name texts hx).imp fun _ _ => trivial
    · rw [List.append_assoc]
      exact (hclose rest).props fields
    · rw [List.append_assoc, List.append_assoc]
      exact ((hclose rest).props fields).opt kind

theorem takes_rel_types {types : List (Spanned String)} {u : List Token}
    (h : Separated (Token.Is .Pipe) IsName types u) {F : List Fixed} (hpipe : Fixed.Pipe ∉ F) (hcolon : Fixed.Colon ∉ F) :
    Takes (parse_rel_types texts) types u (Before F) := by
  cases h with
  | @intro a as u v head tail =>
    refine (takes_name texts head).bind (N := Before F) (fun rest hrest => ?_) fun _ _ => trivial
    have hnext := (hrest.many tail).not_next (f := .Colon) (by simpa using hcolon)
    rw [get_run, hnext]
    exact (takes_many_after hpipe (fun a x hx => (takes_name texts hx).imp fun _ _ => trivial) tail).bind_pure rest hrest

theorem takes_opt_types {types : List (Spanned String)} {u : List Token} (h : IsRelTypes types u) {F : List Fixed}
    (hpipe : Fixed.Pipe ∉ F) (hcolon : Fixed.Colon ∉ F) : Takes (parse_opt_types texts) types u (Before F) := by
  cases h with
  | none => exact takes_no_eat.bind (N := Before F) Takes.pure fun rest hrest => hrest.not_next hcolon
  | some colon names => exact (takes_eat colon).bind (takes_rel_types texts names hpipe hcolon) fun _ _ => trivial

theorem Before.types {types : List (Spanned String)} {u rest : List Token} (h : IsRelTypes types u) {F : List Fixed}
    (hrest : Before F rest) : Before (.Colon :: F) (u ++ rest) := by
  cases h with
  | none => exact hrest.mono fun g hg => List.mem_cons_of_mem _ hg
  | some colon _ => exact .cons colon List.mem_cons_self

theorem takes_opt_bound {bound : Option UInt32} {u : List Token} (h : Opt IsBound bound u) (F : List Fixed) :
    Takes parse_opt_int_u32 bound u (Before F) := by
  intro rest hrest
  rw [parse_opt_int_u32, get_run]
  cases h with
  | none =>
    rw [List.nil_append]
    obtain h | ⟨f, _, h⟩ := hrest
    · rw [h]
      rfl
    · rw [h]
      rfl
  | some part =>
    cases part with
    | @intro t n int lower upper =>
      have hpeek : peek ([t] ++ rest) = .Int n := int
      rw [hpeek]
      simp only
      rw [if_pos ⟨lower, upper⟩, bind_run, List.singleton_append, bump_cons (by simp [int])]
      rfl

theorem takes_var_len {len : VarLen} {u : List Token} (h : IsVarLen len u) {F : List Fixed}
    (hdots : Fixed.DotDot ∉ F) : Takes (parse_var_len texts) len u (Before F) := by
  cases h with
  | @exactly s bound u star count =>
    have hmax : Takes (do if ← eat .DotDot then return ⟨bound, ← parse_opt_int_u32⟩ else return ⟨bound, bound⟩)
        (⟨bound, bound⟩ : VarLen) [] (Before F) :=
      takes_no_eat.bind Takes.pure fun rest hrest => hrest.not_next hdots
    exact (takes_expect texts star).bind ((takes_opt_bound count F).bind_nil hmax fun _ hrest => hrest)
      fun _ _ => trivial
  | @range s d min max u v star lower dots upper =>
    have hmax : Takes (do if ← eat .DotDot then return ⟨min, ← parse_opt_int_u32⟩ else return ⟨min, min⟩)
        (⟨min, max⟩ : VarLen) (d :: v) (Before F) :=
      (takes_eat dots).bind (takes_opt_bound upper F).bind_pure fun _ _ => trivial
    exact (takes_expect texts star).bind ((takes_opt_bound lower [.DotDot]).bind hmax
      fun rest _ => .cons dots List.mem_cons_self) fun _ _ => trivial

theorem IsVarLen.head {len : VarLen} {u : List Token} (h : IsVarLen len u) : ∃ s v, u = s :: v ∧ s.Is .Star := by
  cases h with
  | exactly star _ => exact ⟨_, _, rfl, star⟩
  | range star _ _ _ => exact ⟨_, _, rfl, star⟩

theorem takes_opt_var_len {len : Option VarLen} {u : List Token} (h : Opt IsVarLen len u) {F : List Fixed}
    (hstar : Fixed.Star ∉ F) (hdots : Fixed.DotDot ∉ F) : Takes (parse_opt_var_len texts) len u (Before F) := by
  intro rest hrest
  rw [parse_opt_var_len, get_run]
  cases h with
  | none =>
    rw [List.nil_append, hrest.not_next hstar]
    rfl
  | some part =>
    obtain ⟨s, v, rfl, hs⟩ := part.head
    have hnext : next_is .Star (s :: v ++ rest) = true := next_is_cons hs
    rw [if_pos hnext, map_run, takes_var_len texts part hdots rest hrest]
    rfl

theorem Before.var_len {len : Option VarLen} {u rest : List Token} (h : Opt IsVarLen len u) {F : List Fixed}
    (hrest : Before F rest) : Before (.Star :: F) (u ++ rest) := by
  cases h with
  | none => exact hrest.mono fun g hg => List.mem_cons_of_mem _ hg
  | some part =>
    obtain ⟨s, v, rfl, hs⟩ := part.head
    exact .cons hs List.mem_cons_self

theorem takes_rel_body {body : RelBody} {u : List Token} (h : IsRelBody body u) {F : List Fixed}
    (hfs : Fixed.LBracket ∉ F) : Takes (parse_rel_body texts) body u (Before F) := by
  cases h with
  | bare => exact takes_no_eat.bind (N := Before F) Takes.pure fun rest hrest => hrest.not_next hfs
  | @brackets o c var types len props u v w x left name kinds length fields right =>
    rw [List.append_assoc, List.append_assoc, List.append_assoc, ← List.singleton_append]
    have hclose : ∀ rest, Before [.RBracket] ([c] ++ rest) := fun rest => .cons right List.mem_cons_self
    refine (takes_eat left).bind ((takes_opt_ident name [.Colon, .Star, .LBrace, .RBracket]).bind
      ((takes_opt_types texts kinds (F := [.Star, .LBrace, .RBracket]) (by decide) (by decide)).bind
        ((takes_opt_var_len texts length (F := [.LBrace, .RBracket]) (by decide) (by decide)).bind
          ((takes_opt_props texts fields (F := [.RBracket]) (by decide)).bind
            ((takes_expect texts right).bind_pure.imp fun _ _ => trivial) fun rest _ => hclose rest) fun rest _ => ?_) fun rest _ => ?_) fun rest _ => ?_) fun _ _ => trivial
    · rw [List.append_assoc]
      exact (hclose rest).props fields
    · rw [List.append_assoc, List.append_assoc]
      exact ((hclose rest).props fields).var_len length
    · rw [List.append_assoc, List.append_assoc, List.append_assoc]
      exact (((hclose rest).props fields).var_len length).types kinds

theorem takes_rel_pat {rel : RelPat} {u : List Token} (h : IsRelPat rel u) : Takes (parse_rel_pat texts) rel u Anything := by
  cases h with
  | @forward l r body u left inner right =>
    have hleading : Takes parse_leading false [l] Anything :=
      (takes_eat left).bind_nil (N := Anything) Takes.pure fun _ _ => trivial
    have htrailing : Takes parse_trailing true [r] Anything :=
      (takes_eat right).bind_nil (N := Anything) Takes.pure fun _ _ => trivial
    exact hleading.bind ((takes_rel_body texts inner (F := [.ArrowR]) (by decide)).bind
      (htrailing.bind_nil (N := Anything) Takes.pure fun _ _ => trivial)
      fun rest _ => .cons right List.mem_cons_self) fun _ _ => trivial
  | @backward l r body u left inner right =>
    have hleading : Takes parse_leading true [l] Anything := by
      refine takes_no_eat.bind (u := []) ((takes_eat left).bind_nil (N := Anything) Takes.pure fun _ _ => trivial)
        fun rest _ => next_is_other left (by decide)
    have htrailing : Takes parse_trailing false [r] Anything := by
      refine takes_no_eat.bind (u := []) ((takes_eat right).bind_nil (N := Anything) Takes.pure fun _ _ => trivial)
        fun rest _ => next_is_other right (by decide)
    exact hleading.bind ((takes_rel_body texts inner (F := [.Dash]) (by decide)).bind
      (htrailing.bind_nil (N := Anything) Takes.pure fun _ _ => trivial)
      fun rest _ => .cons right List.mem_cons_self) fun _ _ => trivial

theorem takes_path_var {var : Option String} {u : List Token} (h : Opt IsPathVar var u) :
    Takes parse_path_var var u fun rest => next_is .LParen rest = true := by
  intro rest hrest
  rw [parse_path_var, get_run]
  cases h with
  | none =>
    obtain ⟨o, tail, rfl, ho⟩ := next_is_iff.mp hrest
    have hpeek : peek ([] ++ o :: tail) = .Fixed .LParen := ho
    rw [hpeek]
    rfl
  | some part =>
    cases part with
    | @intro t e _ ident eq =>
      have hpeek : peek ([t, e] ++ rest) = .Ident _ := ident
      have hnext : next_is .Eq ([t, e] ++ rest).tail = true := next_is_cons eq
      rw [hpeek]
      simp only [hnext, if_true]
      rw [bind_run, List.cons_append, bump_cons (by simp [ident]), results.except_bind_ok, bind_run,
        List.singleton_append, bump_cons eq.ne_eof]
      rfl

theorem IsStep.head {step : RelPat × NodePat} {u : List Token} (h : IsStep step u) :
    ∃ t v, u = t :: v ∧ (t.Is .Dash ∨ t.Is .ArrowL) := by
  cases h with
  | intro relation _ =>
    cases relation with
    | forward left _ _ => exact ⟨_, _, rfl, .inl left⟩
    | backward left _ _ => exact ⟨_, _, rfl, .inr left⟩

theorem IsStep.at_arrow {step : RelPat × NodePat} {u : List Token} (h : IsStep step u) (rest : List Token) :
    next_is_arrow (u ++ rest) = true := by
  obtain ⟨t, v, rfl, ht | ht⟩ := h.head
  · simp [next_is_arrow, next_is_cons ht]
  · simp [next_is_arrow, next_is_cons ht]

theorem takes_steps {steps : List (RelPat × NodePat)} {u : List Token} (h : Many IsStep steps u) :
    Takes (many next_is_arrow (parse_step texts)) steps u fun rest => next_is_arrow rest = false := by
  have hsteps : Many (fun step u => u ≠ [] ∧ (∀ rest, next_is_arrow (u ++ rest) = true ∧ Anything (u ++ rest)) ∧
      Takes (parse_step texts) step u Anything) steps u := by
    refine h.imp fun step v hstep => ⟨?_, fun rest => ⟨hstep.at_arrow rest, trivial⟩, ?_⟩
    · obtain ⟨t, w, rfl, -⟩ := hstep.head
      simp
    · cases hstep with
      | intro relation target =>
        exact (takes_rel_pat texts relation).bind (takes_node_pat texts target).bind_pure fun _ _ => trivial
  exact (Takes.many hsteps).imp fun rest hrest => ⟨hrest, trivial⟩

theorem takes_path {path : PathPattern} {u : List Token} (h : IsPath path u) :
    Takes (parse_path_pattern texts) path u fun rest => next_is_arrow rest = false := by
  cases h with
  | @intro var start steps u v w name first hops =>
    rw [List.append_assoc]
    refine (takes_path_var name).bind ((takes_node_pat texts first).bind (takes_steps texts hops).bind_pure
      fun _ _ => trivial) fun rest _ => ?_
    obtain ⟨o, x, rfl, ho⟩ := first.head
    exact next_is_cons ho

end parser

/-! ### Groups of parentheses -/

/-- Tokens the scan for a closing parenthesis passes over. -/
def Balanced (used : List Token) : Prop :=
  ∀ depth rest, 0 < depth → group_is_pattern depth (used ++ rest) = group_is_pattern depth rest

namespace Balanced

theorem nil : Balanced [] := fun _ _ _ => rfl

theorem append {u v : List Token} (hu : Balanced u) (hv : Balanced v) : Balanced (u ++ v) := by
  intro depth rest hdepth
  rw [List.append_assoc, hu depth _ hdepth, hv depth _ hdepth]

theorem token {t : Token} (hleft : t.kind ≠ .Fixed .LParen) (hright : t.kind ≠ .Fixed .RParen) (hend : t.kind ≠ .Eof) :
    Balanced [t] := by
  intro depth rest _
  rw [List.singleton_append, group_is_pattern]
  split
  · next h => exact absurd h hleft
  · next h => exact absurd h hright
  · next h => exact absurd h hend
  · rfl

theorem cons {t : Token} {u : List Token} (ht : Balanced [t]) (hu : Balanced u) : Balanced (t :: u) :=
  append ht hu

theorem sign {f : Fixed} {t : Token} (ht : t.Is f) (hleft : f ≠ .LParen) (hright : f ≠ .RParen) : Balanced [t] := by
  have hkind : t.kind = .Fixed f := ht
  refine token ?_ ?_ ?_
  · simpa [hkind] using hleft
  · simpa [hkind] using hright
  · simp [hkind]

/-- The scan of a whole group looks at the token behind it. -/
theorem scan_group {o c : Token} {u : List Token} (ho : o.Is .LParen) (hu : Balanced u) (hc : c.Is .RParen) (depth : Nat)
    (rest : List Token) : group_is_pattern depth (o :: (u ++ [c]) ++ rest) =
      if depth = 0 then next_is_arrow rest else group_is_pattern depth rest := by
  have hopen : o.kind = .Fixed .LParen := ho
  have hclose : c.kind = .Fixed .RParen := hc
  rw [List.cons_append, group_is_pattern, hopen, List.append_assoc]
  simp only
  rw [hu (depth + 1) _ (by omega), List.singleton_append, group_is_pattern, hclose]
  simp only [Nat.add_sub_cancel]

theorem group {o c : Token} {u : List Token} (ho : o.Is .LParen) (hu : Balanced u) (hc : c.Is .RParen) :
    Balanced (o :: (u ++ [c])) := by
  intro depth rest hdepth
  rw [scan_group ho hu hc, if_neg (by omega)]

section shapes

variable {α : Type} {R : α → List Token → Prop} (hR : ∀ a u, R a u → Balanced u)

include hR

theorem opt {a : Option α} {u : List Token} (h : Opt R a u) : Balanced u := by
  cases h with
  | none => exact nil
  | some part => exact hR _ _ part

theorem after {f : Fixed} {a : α} {u : List Token} (hleft : f ≠ .LParen) (hright : f ≠ .RParen)
    (h : After (Token.Is f) R a u) : Balanced u := by
  cases h with
  | intro token part => exact cons (sign token hleft hright) (hR _ _ part)

theorem many {as : List α} {u : List Token} (h : Many R as u) : Balanced u := by
  induction h with
  | nil => exact nil
  | cons head _ ih => exact append (hR _ _ head) ih

theorem separated {f : Fixed} {as : List α} {u : List Token} (hleft : f ≠ .LParen) (hright : f ≠ .RParen)
    (h : Separated (Token.Is f) R as u) : Balanced u := by
  cases h with
  | intro head tail => exact append (hR _ _ head) (many (fun _ _ h => after hR hleft hright h) tail)

end shapes

theorem name {name : Spanned String} {u : List Token} (h : IsName name u) : Balanced u := by
  obtain ⟨t, rfl, ht, -⟩ := h.opens
  exact token (by simp [ht]) (by simp [ht]) (by simp [ht])

theorem ident {name : String} {u : List Token} (h : IsIdent name u) : Balanced u := by
  cases h with
  | intro ident => exact token (by simp [ident]) (by simp [ident]) (by simp [ident])

theorem scalar {t : Token} {v : Value} (h : cql.scalar t.kind = some v) : Balanced [t] := by
  refine token ?_ ?_ ?_
  all_goals
    intro hkind
    rw [hkind] at h
    cases h

theorem literal {phrase : LiteralPhrase} {u : List Token} (h : IsLiteral phrase u) : Balanced u := by
  induction h with
  | scalar value => exact scalar value
  | empty left right => exact cons (sign left (by decide) (by decide)) (sign right (by decide) (by decide))
  | list left _ _ right ih_first ih_further =>
    exact cons (sign left (by decide) (by decide))
      (append (append ih_first ih_further) (sign right (by decide) (by decide)))
  | done => exact nil
  | more comma _ _ ih_first ih_further => exact append (cons (sign comma (by decide) (by decide)) ih_first) ih_further

theorem prop_entry {entry : PropEntry} {u : List Token} (h : IsPropEntry entry u) : Balanced u := by
  cases h with
  | intro key colon value => exact append (name key) (cons (sign colon (by decide) (by decide)) (literal value))

theorem props {props : List PropEntry} {u : List Token} (h : IsProps props u) : Balanced u := by
  cases h with
  | none => exact nil
  | map entries =>
    cases entries with
    | empty left right => exact cons (sign left (by decide) (by decide)) (sign right (by decide) (by decide))
    | items left items right =>
      exact cons (sign left (by decide) (by decide)) (append (separated (fun _ _ h => prop_entry h) (by decide) (by decide)
        items) (sign right (by decide) (by decide)))

/-- A node pattern is a group. -/
theorem node_group {node : NodePat} {u : List Token} (h : IsNodePat node u) :
    ∃ o v c, u = o :: (v ++ [c]) ∧ o.Is .LParen ∧ Balanced v ∧ c.Is .RParen := by
  cases h with
  | @intro o c var label fields u v w left id kind entries right =>
    have hkind : Balanced v := opt (fun _ _ h => after (fun _ _ h => name h) (by decide) (by decide) h) kind
    exact ⟨o, u ++ v ++ w, c, rfl, left, append (append (opt (fun _ _ h => ident h) id) hkind) (props entries), right⟩

theorem node {node : NodePat} {u : List Token} (h : IsNodePat node u) : Balanced u := by
  obtain ⟨o, v, c, rfl, ho, hv, hc⟩ := node_group h
  exact group ho hv hc

theorem bound {n : UInt32} {u : List Token} (h : IsBound n u) : Balanced u := by
  cases h with
  | intro int _ _ => exact token (by simp [int]) (by simp [int]) (by simp [int])

theorem var_len {len : VarLen} {u : List Token} (h : IsVarLen len u) : Balanced u := by
  have hbound : ∀ {b v}, Opt IsBound b v → Balanced v := fun h => opt (fun _ _ h => bound h) h
  cases h with
  | exactly star count => exact cons (sign star (by decide) (by decide)) (hbound count)
  | range star lower dots upper =>
    exact cons (sign star (by decide) (by decide))
      (append (hbound lower) (cons (sign dots (by decide) (by decide)) (hbound upper)))

theorem rel_body {body : RelBody} {u : List Token} (h : IsRelBody body u) : Balanced u := by
  cases h with
  | bare => exact nil
  | @brackets o c var types len fields u v w x left id kinds length entries right =>
    have hkinds : Balanced v := by
      cases kinds with
      | none => exact nil
      | some colon names =>
        exact cons (sign colon (by decide) (by decide)) (separated (fun _ _ h => name h) (by decide) (by decide) names)
    exact cons (sign left (by decide) (by decide)) (append (append (append (append (opt (fun _ _ h => ident h) id) hkinds)
      (opt (fun _ _ h => var_len h) length)) (props entries)) (sign right (by decide) (by decide)))

theorem step {step : RelPat × NodePat} {u : List Token} (h : IsStep step u) : Balanced u := by
  cases h with
  | intro relation target =>
    refine append ?_ (node target)
    cases relation with
    | forward left inner right =>
      exact cons (sign left (by decide) (by decide)) (append (rel_body inner) (sign right (by decide) (by decide)))
    | backward left inner right =>
      exact cons (sign left (by decide) (by decide)) (append (rel_body inner) (sign right (by decide) (by decide)))

theorem pattern {pat : PathPattern} {u : List Token} (h : IsPatternPredicate pat u) : Balanced u := by
  cases h with
  | intro first hops => exact append (node first) (many (fun _ _ h => step h) hops)

theorem comparison {t : Token} {op : BinOp} (h : comparison_op t.kind = some op) : Balanced [t] := by
  refine token ?_ ?_ ?_
  all_goals
    intro hkind
    rw [hkind] at h
    cases h

theorem quantifier {t : Token} {kind : QuantifierKind} (h : quantifier_kind t.kind = some kind) : Balanced [t] := by
  refine token ?_ ?_ ?_
  all_goals
    intro hkind
    rw [hkind] at h
    cases h

/-- Every expression closes the parentheses it opens. -/
theorem expr {phrase : Phrase} {u : List Token} (h : IsExpr phrase u) : Balanced u := by
  induction h with
  | or _ _ ih_head ih_links => exact append ih_head ih_links
  | and _ _ ih_head ih_links => exact append ih_head ih_links
  | chain_done => exact nil
  | @chain_link c _ _ _ _ _ _ operator _ _ ih_right ih_links =>
    have hsign : c.sign ≠ .LParen ∧ c.sign ≠ .RParen := by
      cases c with
      | or => decide
      | and => decide
    exact append (cons (sign operator hsign.1 hsign.2) ih_right) ih_links
  | not_pattern not pat => exact cons (sign not (by decide) (by decide)) (pattern pat)
  | not_not not _ _ ih => exact cons (sign not (by decide) (by decide)) ih
  | not_comparison not _ ih => exact cons (sign not (by decide) (by decide)) ih
  | pattern pat => exact pattern pat
  | comparison _ ih => exact ih
  | primary _ ih => exact ih
  | binary _ operator _ ih_left ih_right => exact append ih_left (cons (comparison operator) ih_right)
  | group left _ right ih => exact group left ih right
  | literal value => exact literal value
  | comprehension left id member _ pipe _ right ih_source ih_result =>
    exact cons (sign left (by decide) (by decide)) (append (ident id) (cons (sign member (by decide) (by decide))
      (append ih_source (cons (sign pipe (by decide) (by decide))
        (append ih_result (sign right (by decide) (by decide)))))))
  | filtered left id member _ keyword _ pipe _ right ih_source ih_condition ih_result =>
    exact cons (sign left (by decide) (by decide)) (append (ident id) (cons (sign member (by decide) (by decide))
      (append ih_source (cons (sign keyword (by decide) (by decide)) (append ih_condition
        (cons (sign pipe (by decide) (by decide)) (append ih_result (sign right (by decide) (by decide)))))))))
  | quantifier keyword left id member _ condition _ right ih_source ih_inner =>
    have hinner := append (ident id) (cons (sign member (by decide) (by decide))
      (append ih_source (cons (sign condition (by decide) (by decide)) ih_inner)))
    simpa using cons (quantifier keyword) (group left hinner right)
  | property id path => exact append (name id) (many (fun _ _ h => after (fun _ _ h => name h) (by decide) (by decide) h) path)
  | call_star function left star right =>
    exact append (name function) (group left (sign star (by decide) (by decide)) right)
  | call_empty function left right => exact append (name function) (group left nil right)
  | call function left _ _ right ih_head ih_tail =>
    exact append (name function) (group left (append ih_head ih_tail) right)
  | args_done => exact nil
  | args_more comma _ _ ih_head ih_tail =>
    exact append (cons (sign comma (by decide) (by decide)) ih_head) ih_tail

end Balanced

/-! ### Expressions -/

/-- No comparison starts with `NOT`. -/
theorem IsExpr.comparison_head {e : Expr} {u : List Token} (h : IsExpr (.expr .comparison e) u) :
    ∃ t v, u = t :: v ∧ t.kind ≠ .Fixed .Not := by
  have hprimary : ∀ {e u}, IsExpr (.expr .primary e) u → ∃ t v, u = t :: v ∧ t.kind ≠ .Fixed .Not := by
    intro e u h
    cases h with
    | group left _ _ => exact ⟨_, _, rfl, by rw [left]; simp⟩
    | literal value =>
      obtain ⟨t, w, rfl, ⟨s, hs⟩ | ht⟩ := literal_head value
      · refine ⟨t, w, rfl, fun hkind => ?_⟩
        rw [hkind] at hs
        cases hs
      · exact ⟨t, w, rfl, by rw [ht]; simp⟩
    | comprehension left => exact ⟨_, _, rfl, by rw [left]; simp⟩
    | filtered left => exact ⟨_, _, rfl, by rw [left]; simp⟩
    | quantifier keyword =>
      refine ⟨_, _, rfl, fun hkind => ?_⟩
      rw [hkind] at keyword
      cases keyword
    | property name _ =>
      obtain ⟨t, rfl, ht, -⟩ := name.opens
      exact ⟨t, _, rfl, by simp [ht]⟩
    | call_star function _ _ _ =>
      obtain ⟨t, rfl, ht, -⟩ := function.opens
      exact ⟨t, _, rfl, by simp [ht]⟩
    | call_empty function _ _ =>
      obtain ⟨t, rfl, ht, -⟩ := function.opens
      exact ⟨t, _, rfl, by simp [ht]⟩
    | call function _ _ _ _ =>
      obtain ⟨t, rfl, ht, -⟩ := function.opens
      exact ⟨t, _, rfl, by simp [ht]⟩
  cases h with
  | primary inner => exact hprimary inner
  | binary left _ _ =>
    obtain ⟨t, v, rfl, ht⟩ := hprimary left
    exact ⟨t, _, rfl, ht⟩

/-- The tokens behind a whole expression. -/
def ends : List Fixed :=
  [.RParen, .RBracket, .Comma, .Pipe, .Where, .As, .Order, .Limit, .Asc, .Desc, .Match, .Call, .With, .Return]

/-- The tokens behind an expression of a level. -/
def follow : Level → List Fixed
  | .or => ends
  | .and => .Or :: ends
  | .not | .comparison => .And :: .Or :: ends
  | .primary => [.Eq, .Ne, .Lt, .Le, .Gt, .Ge, .In] ++ .And :: .Or :: ends

theorem Before.not_arrow {F : List Fixed} {rest : List Token} (h : Before F rest) (hdash : Fixed.Dash ∉ F)
    (harrow : Fixed.ArrowL ∉ F) : next_is_arrow rest = false := by
  rw [next_is_arrow, h.not_next hdash, h.not_next harrow]
  rfl

theorem pattern_scan {pat : PathPattern} {u : List Token} (h : IsPatternPredicate pat u) (rest : List Token) :
    next_is .LParen (u ++ rest) = true ∧ paren_group_is_pattern (u ++ rest) = true := by
  cases h with
  | @intro start step steps u v first hops =>
    obtain ⟨o, w, c, rfl, ho, hw, hc⟩ := Balanced.node_group first
    refine ⟨next_is_cons ho, ?_⟩
    rw [List.append_assoc, paren_group_is_pattern, Balanced.scan_group ho hw hc, if_pos rfl]
    cases hops with
    | cons head _ =>
      rw [List.append_assoc]
      exact head.at_arrow _

/-- A primary expression is no pattern when no arrow follows it. -/
theorem primary_no_pattern {e : Expr} {u : List Token} (h : IsExpr (.expr .primary e) u) {rest : List Token}
    (hrest : next_is_arrow rest = false) :
    (next_is .LParen (u ++ rest) && paren_group_is_pattern (u ++ rest)) = false := by
  have hother : next_is .LParen (u ++ rest) = false →
      (next_is .LParen (u ++ rest) && paren_group_is_pattern (u ++ rest)) = false := by
    intro hnext
    rw [hnext, Bool.false_and]
  cases h with
  | group left inner right =>
    rw [paren_group_is_pattern, Balanced.scan_group left (Balanced.expr inner) right, if_pos rfl, hrest, Bool.and_false]
  | literal value => exact hother (literal_not_next value rfl (by decide) rest)
  | comprehension left => exact hother (next_is_other left (by decide))
  | filtered left => exact hother (next_is_other left (by decide))
  | quantifier keyword =>
    refine hother (next_is_ne fun hkind => ?_)
    rw [hkind] at keyword
    cases keyword
  | property name _ =>
    rw [List.append_assoc] at hother ⊢
    exact hother (name_not_next name _)
  | call_star function _ _ _ =>
    rw [List.append_assoc] at hother ⊢
    exact hother (name_not_next function _)
  | call_empty function _ _ =>
    rw [List.append_assoc] at hother ⊢
    exact hother (name_not_next function _)
  | call function _ _ _ _ =>
    rw [List.append_assoc] at hother ⊢
    exact hother (name_not_next function _)

theorem comparison_no_pattern {e : Expr} {u : List Token} (h : IsExpr (.expr .comparison e) u) {rest : List Token}
    (hrest : Before (follow .comparison) rest) :
    (next_is .LParen (u ++ rest) && paren_group_is_pattern (u ++ rest)) = false := by
  cases h with
  | primary inner => exact primary_no_pattern inner (hrest.not_arrow (by decide) (by decide))
  | @binary lhs rhs op t u v left operator right =>
    rw [List.append_assoc]
    refine primary_no_pattern left ?_
    have hother : ∀ f, comparison_op (.Fixed f) = none → next_is f (t :: v ++ rest) = false := by
      intro f hf
      refine next_is_ne fun hkind => ?_
      rw [hkind, hf] at operator
      cases operator
    rw [next_is_arrow, hother .Dash rfl, hother .ArrowL rfl]
    rfl

section parser

variable (texts : Texts)

theorem takes_pattern_predicate {pat : PathPattern} {u : List Token} (h : IsPatternPredicate pat u) :
    Takes (try_pattern_predicate texts) (some pat) u fun rest => next_is_arrow rest = false := by
  intro rest hrest
  obtain ⟨hopen, hscan⟩ := pattern_scan h rest
  rw [try_pattern_predicate, get_run, hopen, hscan, Bool.and_self, if_pos rfl]
  cases h with
  | intro first hops =>
    have htake := takes_path texts (.intro .none first hops) rest hrest
    rw [List.nil_append] at htake
    rw [bind_run, htake]
    rfl

theorem no_pattern_predicate {input : List Token}
    (h : (next_is .LParen input && paren_group_is_pattern input) = false) :
    try_pattern_predicate texts input = .ok (none, input) := by
  rw [try_pattern_predicate, get_run, h]
  rfl

/-- The parser of a level, where nested expressions have the fuel `k`. -/
def parser_at (k : Nat) : Level → Parser Expr
  | .or => parse_or texts (parse_expr_within texts k)
  | .and => parse_and texts (parse_expr_within texts k)
  | .not => parse_not texts (parse_expr_within texts k)
  | .comparison => parse_comparison texts (parse_expr_within texts k)
  | .primary => parse_primary texts (parse_expr_within texts k)

/-- A link of a chain whose operand is taken. -/
def TakenLink (k : Nat) (c : Connective) (lhs : Expr) (u : List Token) (e : Expr) : Prop :=
  ∃ t rhs v, u = t :: v ∧ t.Is c.sign ∧ Takes (parser_at texts k c.operand) rhs v (Before (follow c.operand)) ∧
    e = .Binary c.op lhs rhs t.span

/-- Expressions, where the fuel covers their tokens. -/
def ExprTaken : Phrase → List Token → Prop
  | .expr level e, u => ∀ k, u.length ≤ k + 1 → Takes (parser_at texts k level) e u (Before (follow level))
  | .args es, u => ∀ k, u.length ≤ k → Many (After (Token.Is .Comma) fun e v =>
      IsQueryExpr e v ∧ Takes (parse_expr_within texts k) e v (Before ends)) es u
  | .chain c lhs e, u => ∀ k, u.length ≤ k + 1 → Run (TakenLink texts k c) lhs u e

theorem follow_operand (c : Connective) : follow c.operand = c.sign :: follow c.level := by
  cases c with
  | or => rfl
  | and => rfl

theorem sign_not_follow (c : Connective) : c.sign ∉ follow c.level := by
  cases c with
  | or => decide
  | and => decide

theorem takes_chain {k : Nat} {c : Connective} {first e : Expr} {u v : List Token}
    (hfirst : Takes (parser_at texts k c.operand) first u (Before (follow c.operand)))
    (hlinks : Run (TakenLink texts k c) first v e) :
    Takes (binary_chain c.sign c.op (parser_at texts k c.operand)) e (u ++ v) (Before (follow c.level)) := by
  have hsteps := hlinks.imp (S := fun lhs w b => w ≠ [] ∧
      (∀ rest, next_is c.sign (w ++ rest) = true ∧ Before (follow c.operand) (w ++ rest)) ∧ Takes (do
        let span := peek_span (← get)
        bump
        let rhs ← parser_at texts k c.operand
        return .Binary c.op lhs rhs span) b w (Before (follow c.operand))) fun lhs w b hlink => by
    obtain ⟨t, rhs, x, rfl, ht, hrhs, rfl⟩ := hlink
    refine ⟨by simp, fun rest => ⟨next_is_cons ht, ?_⟩, ?_⟩
    · rw [follow_operand]
      exact .cons ht List.mem_cons_self
    · exact .get fun rest hrest => ((takes_bump ht.ne_eof).bind hrhs.bind_pure fun _ _ => trivial) rest hrest
  refine hfirst.bind ((Takes.loop hsteps).imp fun rest hrest => ⟨hrest.not_next (sign_not_follow c), ?_⟩) fun rest hrest => ?_
  · rw [follow_operand]
    exact hrest.mono fun f hf => List.mem_cons_of_mem _ hf
  · cases hlinks with
    | done =>
      rw [follow_operand]
      exact hrest.mono fun f hf => List.mem_cons_of_mem _ hf
    | step head _ =>
      obtain ⟨t, rhs, x, rfl, ht, -, -⟩ := head
      rw [follow_operand]
      exact .cons ht List.mem_cons_self

/-- A nested expression, which has fewer tokens than the fuel. -/
theorem takes_nested {k : Nat} {e : Expr} {u : List Token} (hexpr : IsQueryExpr e u) (h : ExprTaken texts (.expr .or e) u)
    (hk : u.length ≤ k) : Takes (parse_expr_within texts k) e u (Before ends) := by
  obtain ⟨t, v, rfl, -⟩ := hexpr.head
  cases k with
  | zero => simp at hk
  | succ k => exact h k hk

theorem takes_not_comparison {k : Nat} {e : Expr} {u : List Token} (hexpr : IsExpr (.expr .comparison e) u)
    (h : Takes (parser_at texts k .comparison) e u (Before (follow .comparison))) :
    Takes (parser_at texts k .not) e u (Before (follow .not)) := by
  intro rest hrest
  have hbare : parse_bare texts (parse_expr_within texts k) (u ++ rest) = .ok (e, rest) := by
    rw [parse_bare, bind_run, no_pattern_predicate texts (comparison_no_pattern hexpr hrest), results.except_bind_ok]
    exact h rest hrest
  obtain ⟨t, v, rfl, ht⟩ := hexpr.comparison_head
  rw [parser_at, List.cons_append, parse_not, next_is_ne ht]
  exact hbare

/-- `NOT` in front of an operand that is no pattern. -/
theorem takes_not {k : Nat} {t : Token} {e : Expr} {u : List Token} {N : List Token → Prop} (ht : t.Is .Not)
    (h : Takes (parser_at texts k .not) e u N)
    (hpat : ∀ rest, N rest → (next_is .LParen (u ++ rest) && paren_group_is_pattern (u ++ rest)) = false) :
    Takes (parser_at texts k .not) (.Not e) (t :: u) N := by
  intro rest hrest
  have hinner : parse_not texts (parse_expr_within texts k) (u ++ rest) = .ok (e, rest) := h rest hrest
  rw [parser_at, List.cons_append, parse_not, next_is_cons ht, if_pos rfl,
    no_pattern_predicate texts (hpat rest hrest), results.except_bind_ok]
  simp only
  rw [hinner]
  rfl

theorem expr_not_next {level : Level} {e : Expr} {u : List Token} (h : IsExpr (.expr level e) u) {f : Fixed}
    (hf : opens_expr (.Fixed f) = false) (rest : List Token) : next_is f (u ++ rest) = false := by
  obtain ⟨t, v, rfl, ht⟩ := h.head
  refine next_is_ne fun hkind => ?_
  rw [hkind, hf] at ht
  cases ht

/-- A call whose arguments are taken. -/
theorem takes_call {k : Nat} {name : Spanned String} {args : List Expr} {n u : List Token} {o c : Token}
    (hname : IsName name n) (ho : o.Is .LParen) (hc : c.Is .RParen)
    (hargs : Takes (parse_call_args (parse_expr_within texts k)) args u fun rest => next_is .RParen rest = true) :
    Takes (parse_named texts (parse_expr_within texts k)) (.FunctionCall name args) (n ++ o :: (u ++ [c])) Anything := by
  refine (takes_name texts hname).bind (Takes.get fun rest _ => ?_) fun _ _ => trivial
  have hopen : next_is .LParen (o :: (u ++ [c]) ++ rest) = true := next_is_cons ho
  rw [if_pos hopen]
  exact ((takes_expect texts ho).bind (hargs.bind (takes_expect texts hc).bind_pure fun _ _ => next_is_cons hc)
    fun _ _ => trivial) rest trivial

theorem takes_args {k : Nat} {args : List Expr} {u : List Token}
    (hargs : (args = [] ∧ u = []) ∨ Separated (Token.Is .Comma) (fun e v =>
      IsQueryExpr e v ∧ Takes (parse_expr_within texts k) e v (Before ends)) args u) :
    Takes (parse_call_args (parse_expr_within texts k)) args u fun rest => next_is .RParen rest = true := by
  refine Takes.get fun rest hrest => ?_
  have hstar : next_is .Star (u ++ rest) = false := by
    obtain ⟨rfl, rfl⟩ | hsep := hargs
    · obtain ⟨c, tail, rfl, hc⟩ := next_is_iff.mp hrest
      exact next_is_other hc (by decide)
    · cases hsep with
      | intro head _ =>
        rw [List.append_assoc]
        exact expr_not_next head.1 rfl _
  rw [hstar]
  exact takes_list (by decide) (fun e v h => expr_not_next h.1 rfl)
    (fun e v h => h.2.imp fun rest hrest => hrest.mono (by decide)) hargs rest hrest

theorem takes_named {k : Nat} {e : Expr} {name : Spanned String} {n u : List Token} {F : List Fixed}
    (hname : IsName name n)
    (h : Takes (parse_named texts (parse_expr_within texts k)) e (n ++ u) (Before F)) :
    Takes (parser_at texts k .primary) e (n ++ u) (Before F) := by
  intro rest hrest
  obtain ⟨t, rfl, ht, -⟩ := hname.opens
  have hpeek : peek ([t] ++ u ++ rest) = .Ident name.value := ht
  have hother : ∀ f, next_is f ([t] ++ u ++ rest) = false := fun f => by rw [next_is, hpeek]
  rw [parser_at, parse_primary, get_run, hother, hother, hpeek]
  simp only [quantifier_kind, scalar, Bool.false_eq_true, if_false]
  exact h rest hrest

theorem comparison_sign {k : TokenKind} {op : BinOp} (h : comparison_op k = some op) :
    ∃ f ∈ follow .primary, k = .Fixed f := by
  unfold comparison_op at h
  split at h
  all_goals first | exact ⟨_, by decide, rfl⟩ | cases h

theorem quantifier_of_scalar {k : TokenKind} {v : Value} (h : scalar k = some v) : quantifier_kind k = none := by
  unfold scalar at h
  split at h
  all_goals first | rfl | cases h

theorem literal_not_ident {v : Value} {u : List Token} (h : IsLiteral (.one v) u) (rest : List Token) :
    at_ident (u ++ rest) = false := by
  obtain ⟨t, w, rfl, ⟨s, hs⟩ | ht⟩ := literal_head h
  · have hpeek : peek (t :: w ++ rest) = t.kind := rfl
    rw [at_ident, hpeek]
    split
    · next name hname =>
      rw [hname] at hs
      cases hs
    · rfl
  · have hpeek : peek (t :: w ++ rest) = .Fixed .LBracket := ht
    rw [at_ident, hpeek]

theorem takes_primary_literal {k : Nat} {v : Value} {u : List Token} (h : IsLiteral (.one v) u) :
    Takes (parser_at texts k .primary) (.Literal v) u Anything := by
  have hlist : ∀ {o c : Token} {vs : List Value} {w : List Token}, o.Is .LBracket → c.Is .RBracket →
      ((vs = [] ∧ w = []) ∨ Separated (Token.Is .Comma) (fun v w => IsLiteral (.one v) w) vs w) →
      Takes (parser_at texts k .primary) (.Literal (.List vs)) (o :: (w ++ [c])) Anything := by
    intro o c vs w ho hc hitems rest hrest
    have hparen : next_is .LParen (o :: (w ++ [c]) ++ rest) = false := next_is_other ho (by decide)
    have hopen : next_is .LBracket (o :: (w ++ [c]) ++ rest) = true := next_is_cons ho
    have hcomp : bracket_is_comprehension (o :: (w ++ [c]) ++ rest) = false := by
      have hident : at_ident (w ++ [c] ++ rest) = false := by
        obtain ⟨rfl, rfl⟩ | hsep := hitems
        · have hpeek : peek ([] ++ [c] ++ rest) = .Fixed .RBracket := hc
          rw [at_ident, hpeek]
        · cases hsep with
          | intro head _ =>
            rw [List.append_assoc, List.append_assoc]
            exact literal_not_ident head _
      rw [bracket_is_comprehension, List.cons_append, List.drop_one, List.tail_cons, hident, Bool.false_and]
    have htake : Takes (parse_list_literal texts (parse_literal texts)) (.List vs) (o :: (w ++ [c])) Anything :=
      takes_list_literal texts ho hc (fun v w h => ⟨h, takes_literal texts h⟩) hitems
    rw [parser_at, parse_primary, get_run, hparen, hopen, hcomp]
    simp only [Bool.false_eq_true, if_false, if_true]
    rw [map_run, htake rest hrest]
    rfl
  cases h with
  | @scalar t _ value =>
    intro rest hrest
    have hpeek : peek ([t] ++ rest) = t.kind := rfl
    have hparen : next_is .LParen ([t] ++ rest) = false := next_is_scalar value rfl
    have hopen : next_is .LBracket ([t] ++ rest) = false := next_is_scalar value rfl
    have hkind := quantifier_of_scalar value
    rw [parser_at, parse_primary, get_run, hparen, hopen, hpeek, hkind, value]
    simp only [Bool.false_eq_true, if_false]
    rw [map_run, takes_literal texts (.scalar value) rest hrest]
    rfl
  | empty left right => exact hlist left right (.inl ⟨rfl, rfl⟩)
  | list left first further right =>
    exact hlist left right (.inr (.intro first ((literal_taken texts further _ le_rfl).imp fun _ _ h => h.imp fun _ _ h => h.1)))

/-- A bracket with an identifier and `IN` behind it. -/
theorem takes_comprehension {k : Nat} {e : Expr} {var : String} {o i : Token} {x u : List Token} {N : List Token → Prop}
    (ho : o.Is .LBracket) (hx : IsIdent var x) (hi : i.Is .In)
    (h : Takes (parse_list_comp texts (parse_expr_within texts k)) e (o :: (x ++ i :: u)) N) :
    Takes (parser_at texts k .primary) e (o :: (x ++ i :: u)) N := by
  intro rest hrest
  cases hx with
  | @intro t _ ident =>
    have hparen : next_is .LParen (o :: ([t] ++ i :: u) ++ rest) = false := next_is_other ho (by decide)
    have hopen : next_is .LBracket (o :: ([t] ++ i :: u) ++ rest) = true := next_is_cons ho
    have hcomp : bracket_is_comprehension (o :: ([t] ++ i :: u) ++ rest) = true := by
      have hident : at_ident (t :: i :: (u ++ rest)) = true := by
        have hpeek : peek (t :: i :: (u ++ rest)) = .Ident _ := ident
        rw [at_ident, hpeek]
      have hin : next_is .In (i :: (u ++ rest)) = true := next_is_cons hi
      simp [bracket_is_comprehension, hident, hin]
    rw [parser_at, parse_primary, get_run, hparen, hopen, hcomp]
    simp only [Bool.false_eq_true, if_false, if_true]
    exact h rest hrest

theorem takes_ident (what : String) {var : String} {x : List Token} (h : IsIdent var x) :
    ∃ span, Takes (expect_ident texts what) ⟨var, span⟩ x Anything := by
  cases h with
  | intro ident => exact ⟨_, takes_name texts (.intro ident)⟩

theorem expr_taken {phrase : Phrase} {u : List Token} (h : IsExpr phrase u) : ExprTaken texts phrase u := by
  induction h with
  | @or first e u v head links ih_head ih_links =>
    intro k hk
    rw [List.length_append] at hk
    exact takes_chain texts (c := .or) (ih_head k (by omega)) (ih_links k (by omega))
  | @and first e u v head links ih_head ih_links =>
    intro k hk
    rw [List.length_append] at hk
    exact takes_chain texts (c := .and) (ih_head k (by omega)) (ih_links k (by omega))
  | chain_done => exact fun _ _ => .done
  | @chain_link c lhs rhs e t u v operator right links ih_right ih_links =>
    intro k hk
    simp only [List.length_cons, List.length_append] at hk
    exact .step ⟨t, rhs, u, rfl, operator, ih_right k (by omega), rfl⟩ (ih_links k (by omega))
  | @not_pattern t pat u not pattern =>
    intro k _ rest hrest
    rw [parser_at, List.cons_append, parse_not, next_is_cons not, if_pos rfl,
      takes_pattern_predicate texts pattern rest (hrest.not_arrow (by decide) (by decide))]
    rfl
  | @not_not t n e u not inner_not inner ih =>
    intro k hk
    simp only [List.length_cons] at hk
    refine takes_not texts not (ih k (by simp only [List.length_cons]; omega)) fun rest _ => ?_
    rw [List.cons_append, next_is_other inner_not (by decide), Bool.false_and]
  | @not_comparison t e u not inner ih =>
    intro k hk
    simp only [List.length_cons] at hk
    exact takes_not texts not (takes_not_comparison texts inner (ih k (by omega))) fun rest hrest =>
      comparison_no_pattern inner hrest
  | @pattern pat u pattern =>
    intro k _ rest hrest
    have hbare : parse_bare texts (parse_expr_within texts k) (u ++ rest) = .ok (.PatternPredicate false pat, rest) := by
      rw [parse_bare, bind_run,
        takes_pattern_predicate texts pattern rest (hrest.not_arrow (by decide) (by decide))]
      rfl
    obtain ⟨o, v, rfl, ho⟩ := pattern.head
    rw [parser_at, List.cons_append, parse_not, next_is_other ho (by decide)]
    exact hbare
  | comparison inner ih => exact fun k hk => takes_not_comparison texts inner (ih k hk)
  | @primary e u inner ih =>
    intro k hk
    refine (ih k hk).bind_nil (N := Before (follow .comparison)) (Takes.get fun rest hrest => ?_) fun rest hrest => ?_
    · rw [List.nil_append, hrest.no_comparison (by decide), hrest.not_word]
      rfl
    · exact hrest.mono fun f hf => List.mem_append_right _ hf
  | @binary lhs rhs op t u v left operator right ih_left ih_right =>
    intro k hk
    simp only [List.length_cons, List.length_append] at hk
    have hend : t.kind ≠ .Eof := by
      intro heof
      rw [heof] at operator
      cases operator
    refine (ih_left k (by omega)).bind (N := Before (follow .comparison)) (Takes.get fun rest hrest => ?_)
      fun rest hrest => ?_
    · have hpeek : peek (t :: v ++ rest) = t.kind := rfl
      rw [hpeek, operator]
      refine ((takes_bump hend).bind (ih_right k (by omega)).bind_pure fun _ _ => trivial) rest (hrest.mono ?_)
      exact fun f hf => List.mem_append_right _ hf
    · obtain ⟨f, hf, hkind⟩ := comparison_sign operator
      exact .cons hkind hf
  | @group e o c u left inner right ih =>
    intro k hk
    simp only [List.length_cons, List.length_append] at hk
    refine Takes.get fun rest hrest => ?_
    have hopen : next_is .LParen (o :: (u ++ [c]) ++ rest) = true := next_is_cons left
    rw [if_pos hopen]
    exact ((takes_bump left.ne_eof).bind ((takes_nested texts inner ih (by omega)).bind
      (takes_expect texts right).bind_pure fun rest _ => .cons right (by decide)) fun _ _ => trivial) rest trivial
  | literal value => exact fun k _ => (takes_primary_literal texts value).imp fun _ _ => trivial
  | @comprehension o i p c var list projection x u w left name member source pipe result right ih_source ih_result =>
    intro k hk
    simp only [List.length_cons, List.length_append] at hk
    obtain ⟨span, hvar⟩ := takes_ident texts "comprehension variable" name
    refine (takes_comprehension texts left name member (N := Anything) ?_).imp fun _ _ => trivial
    refine (takes_expect texts left).bind (hvar.bind ((takes_expect texts member).bind
      ((takes_nested texts source ih_source (by omega)).bind ((takes_opt_after (F := [.Pipe]) (by decide)
        (R := fun _ _ => False) (fun _ _ h => h.elim) .none).bind ((takes_expect texts pipe).bind
          ((takes_nested texts result ih_result (by omega)).bind (takes_expect texts right).bind_pure
            fun _ _ => .cons right (by decide)) fun _ _ => trivial) fun _ _ => .cons pipe (by decide))
        fun _ _ => .cons pipe (by decide)) fun _ _ => trivial) fun _ _ => trivial) fun _ _ => trivial
  | @filtered o i f p c var list filter projection x u v w left name member source keyword condition pipe result right
      ih_source ih_condition ih_result =>
    intro k hk
    simp only [List.length_cons, List.length_append] at hk
    obtain ⟨span, hvar⟩ := takes_ident texts "comprehension variable" name
    have hfilter := takes_opt_after (f := .Where) (F := [.Pipe]) (by decide)
      (R := fun e u => Takes (parse_expr_within texts k) e u (Before ends))
      (fun e u h => h.imp fun rest hrest => hrest.mono (by decide))
      (.some (.intro keyword (takes_nested texts condition ih_condition (by omega))))
    refine (takes_comprehension texts left name member (N := Anything) ?_).imp fun _ _ => trivial
    refine (takes_expect texts left).bind (hvar.bind ((takes_expect texts member).bind
      ((takes_nested texts source ih_source (by omega)).bind (v := f :: v ++ p :: (w ++ [c])) (hfilter.bind
        ((takes_expect texts pipe).bind ((takes_nested texts result ih_result (by omega)).bind
          (takes_expect texts right).bind_pure fun _ _ => .cons right (by decide)) fun _ _ => trivial)
          fun _ _ => .cons pipe (by decide))
        fun _ _ => .cons keyword (by decide)) fun _ _ => trivial) fun _ _ => trivial) fun _ _ => trivial
  | @quantifier q o i f c kind var list predicate x u v keyword left name member source condition inner right
      ih_source ih_inner =>
    intro k hk
    simp only [List.length_cons, List.length_append] at hk
    obtain ⟨span, hvar⟩ := takes_ident texts "quantifier variable" name
    have hend : q.kind ≠ .Eof := by
      intro heof
      rw [heof] at keyword
      cases keyword
    have htake : Takes (parse_quantifier texts (parse_expr_within texts k) kind) (.Quantifier kind var list predicate)
        (q :: o :: (x ++ i :: (u ++ f :: (v ++ [c])))) Anything :=
      (takes_bump hend).bind ((takes_expect texts left).bind (hvar.bind ((takes_expect texts member).bind
        ((takes_nested texts source ih_source (by omega)).bind ((takes_expect texts condition).bind
          ((takes_nested texts inner ih_inner (by omega)).bind (takes_expect texts right).bind_pure
            fun _ _ => .cons right (by decide)) fun _ _ => trivial) fun _ _ => .cons condition (by decide))
        fun _ _ => trivial) fun _ _ => trivial) fun _ _ => trivial) fun _ _ => trivial
    refine Takes.imp (N := Anything) ?_ fun _ _ => trivial
    refine Takes.get fun rest hrest => ?_
    have hother : ∀ g, quantifier_kind (.Fixed g) = none → next_is g
        (q :: o :: (x ++ i :: (u ++ f :: (v ++ [c]))) ++ rest) = false := by
      intro g hg
      refine next_is_ne fun hkind => ?_
      rw [hkind, hg] at keyword
      cases keyword
    have hpeek : peek (q :: o :: (x ++ i :: (u ++ f :: (v ++ [c]))) ++ rest) = q.kind := rfl
    rw [hother .LParen rfl, hother .LBracket rfl, hpeek, keyword]
    exact htake rest hrest
  | @property head segments u v name path =>
    intro k _
    refine takes_named texts name ((takes_name texts name).bind (Takes.get fun rest hrest => ?_) fun _ _ => trivial)
    have hopen := (hrest.many path).not_next (f := .LParen) (by decide)
    rw [hopen]
    refine (takes_many_after (F := follow .primary) (by decide) (fun a x hx => ?_) path).bind_pure rest hrest
    exact (takes_name texts hx).imp fun _ _ => trivial
  | @call_star name o s c u function left star right =>
    intro k _
    refine takes_named texts function ?_
    have hargs : Takes (parse_call_args (parse_expr_within texts k)) [.Property ⟨"*", s.span⟩ []] [s]
        fun rest => next_is .RParen rest = true := by
      refine Takes.get fun rest _ => ?_
      have hstar : next_is .Star ([s] ++ rest) = true := next_is_cons star
      rw [if_pos hstar]
      exact (takes_bump star.ne_eof).bind_pure rest trivial
    exact (takes_call texts function left right hargs).imp fun _ _ => trivial
  | @call_empty name o c u function left right =>
    intro k _
    refine takes_named texts function ?_
    exact (takes_call texts function left right (takes_args texts (.inl ⟨rfl, rfl⟩))).imp fun _ _ => trivial
  | @call name first further o c u v w function left head tail right ih_head ih_tail =>
    intro k hk
    simp only [List.length_cons, List.length_append] at hk
    refine takes_named texts function ?_
    have hargs := takes_args texts (k := k) (.inr (.intro ⟨head, takes_nested texts head ih_head (by omega)⟩
      (ih_tail k (by omega))))
    exact (takes_call texts function left right hargs).imp fun _ _ => trivial
  | args_done => exact fun _ _ => .nil
  | @args_more t e es u v comma head tail ih_head ih_tail =>
    intro k hk
    simp only [List.length_cons, List.length_append] at hk
    exact .cons (.intro comma ⟨head, takes_nested texts head ih_head (by omega)⟩) (ih_tail k (by omega))

end parser

end cgx.cql
