import Mathlib
import Cgx.Cql.Parser

namespace cgx.cql

/-! ### Texts of tokens and of what stands between them -/

/-- Blanks and line comments in front of a rest. -/
inductive Gap : List Char → List Char → Prop
  | done {rest : List Char} : Gap [] rest
  | blank {c : Char} {g rest : List Char} (blank : is_blank c = true) (further : Gap g rest) : Gap (c :: g) rest
  | comment {body g rest : List Char} (line : ∀ c ∈ body, c ≠ '\n')
    (ends : ∀ c, (g ++ rest).head? = some c → c = '\n') (further : Gap g rest) :
    Gap ('/' :: '/' :: (body ++ g)) rest

def Digits (digits : List Char) : Prop := digits ≠ [] ∧ ∀ d ∈ digits, d.isDigit = true

/-- The fraction of a float, which may be missing. -/
inductive Fraction : List Char → Prop
  | none : Fraction []
  | point {digits : List Char} (h : Digits digits) : Fraction ('.' :: digits)

/-- The exponent of a float, which may be missing. -/
inductive Exponent : List Char → Prop
  | none : Exponent []
  | power {e : Char} {sign digits : List Char} (letter : e = 'e' ∨ e = 'E')
    (signed : sign = [] ∨ sign = ['+'] ∨ sign = ['-']) (h : Digits digits) : Exponent (e :: (sign ++ digits))

/-- A string as it is written between its quotes. -/
inductive Quoted : List Char → List Char → Prop
  | done : Quoted [] []
  | plain {c : Char} {body value : List Char} (quote : c ≠ '"') (escape : c ≠ '\\') (further : Quoted body value) :
    Quoted (c :: body) (c :: value)
  | escape {esc d : Char} {body value : List Char} (decoded : decode_escape esc = some d) (further : Quoted body value) :
    Quoted ('\\' :: esc :: body) (d :: value)

/-- The signs, which are spelled in one way. -/
def signs : List Fixed :=
  [.LParen, .RParen, .LBracket, .RBracket, .LBrace, .RBrace, .Colon, .Comma, .Dot, .Pipe, .At, .Star, .DotDot, .Eq, .Ne,
    .Lt, .Le, .Gt, .Ge, .Dash, .ArrowR, .ArrowL]

/-- The spellings of a token. -/
inductive Spells (parse_f64 : String → Option Float) : TokenKind → List Char → Prop
  | keyword {c : Char} {w : List Char} {f : Fixed} (start : is_ident_start c = true)
    (tail : ∀ d ∈ w, is_ident_continue d = true) (word : keyword (String.ofList (c :: w)) = some f) :
    Spells parse_f64 (.Fixed f) (c :: w)
  | ident {c : Char} {w : List Char} (start : is_ident_start c = true) (tail : ∀ d ∈ w, is_ident_continue d = true)
    (word : keyword (String.ofList (c :: w)) = none) : Spells parse_f64 (.Ident (String.ofList (c :: w))) (c :: w)
  | int {digits : List Char} (h : Digits digits) (range : digits_value digits < 2 ^ 63) :
    Spells parse_f64 (.Int (digits_value digits)) digits
  | float {digits frac exp : List Char} {f : Float} (h : Digits digits) (fraction : Fraction frac)
    (exponent : Exponent exp) (float : frac ≠ [] ∨ exp ≠ [])
    (value : parse_f64 (String.ofList (digits ++ frac ++ exp)) = some f) :
    Spells parse_f64 (.Float f) (digits ++ frac ++ exp)
  | str {body value : List Char} (h : Quoted body value) :
    Spells parse_f64 (.Str (String.ofList value)) ('"' :: (body ++ ['"']))
  | sign {f : Fixed} (h : f ∈ signs) : Spells parse_f64 (.Fixed f) (token_text f).toList

/-- The text of words with the gaps in front of them, and of a last gap. -/
def laid_text : List (List Char × TokenKind × List Char) → List Char → List Char
  | [], last => last
  | (gap, _, word) :: words, last => gap ++ (word ++ laid_text words last)

/-- The tokens of words in their layout, with their byte ranges. -/
def laid_tokens (pos : Nat) : List (List Char × TokenKind × List Char) → List Char → List Token
  | [], last => [⟨.Eof, ⟨pos + byte_len last, pos + byte_len last⟩⟩]
  | (gap, kind, word) :: words, last =>
    let start := pos + byte_len gap
    let stop := start + byte_len word
    ⟨kind, ⟨start, stop⟩⟩ :: laid_tokens stop words last

/-- The gaps are blanks and comments, and the words spell their tokens. -/
inductive Laid (parse_f64 : String → Option Float) : List (List Char × TokenKind × List Char) → List Char → Prop
  | done {last : List Char} (gap : Gap last []) : Laid parse_f64 [] last
  | word {gap word last : List Char} {kind : TokenKind} {words : List (List Char × TokenKind × List Char)}
    (before : Gap gap (word ++ laid_text words last)) (spelling : Spells parse_f64 kind word)
    (further : Laid parse_f64 words last) : Laid parse_f64 ((gap, kind, word) :: words) last

/-! ### Bytes -/

theorem byte_len_append (u v : List Char) : byte_len (u ++ v) = byte_len u + byte_len v := by
  simp [byte_len]

theorem byte_len_cons (c : Char) (cs : List Char) : byte_len (c :: cs) = c.utf8Size + byte_len cs := by
  simp [byte_len]

theorem utf8Size_ascii {c : Char} (h : c.val ≤ 127) : c.utf8Size = 1 := by
  simp [Char.utf8Size, h]

theorem digit_size {c : Char} (h : c.isDigit = true) : c.utf8Size = 1 := by
  simp only [Char.isDigit, Bool.and_eq_true, decide_eq_true_eq] at h
  exact utf8Size_ascii (UInt32.le_trans h.2 (by decide))

theorem continue_size {c : Char} (h : is_ident_continue c = true) : c.utf8Size = 1 := by
  simp only [is_ident_continue, Char.isAlphanum, Char.isAlpha, Char.isUpper, Char.isLower, Char.isDigit, Bool.or_eq_true,
    Bool.and_eq_true, decide_eq_true_eq, beq_iff_eq] at h
  obtain (((h | h) | h) | rfl) := h
  · exact utf8Size_ascii (UInt32.le_trans h.2 (by decide))
  · exact utf8Size_ascii (UInt32.le_trans h.2 (by decide))
  · exact utf8Size_ascii (UInt32.le_trans h.2 (by decide))
  · rfl

theorem start_continue {c : Char} (h : is_ident_start c = true) : is_ident_continue c = true := by
  simp only [is_ident_start, is_ident_continue, Char.isAlphanum, Bool.or_eq_true] at h ⊢
  obtain h | h := h
  · exact .inl (.inl h)
  · exact .inr h

theorem blank_size {c : Char} (h : is_blank c = true) : c.utf8Size = 1 := by
  simp only [is_blank, Bool.or_eq_true, beq_iff_eq] at h
  obtain ((rfl | rfl) | rfl) | rfl := h
  · rfl
  · rfl
  · rfl
  · rfl

theorem byte_len_eq_length {cs : List Char} (h : ∀ c ∈ cs, c.utf8Size = 1) : byte_len cs = cs.length := by
  induction cs with
  | nil => rfl
  | cons c cs ih =>
    rw [byte_len_cons, h c List.mem_cons_self, ih fun d hd => h d (List.mem_cons_of_mem c hd), List.length_cons,
      Nat.add_comm]

/-! ### What the lexer reads -/

/-- What starts a token: no blank and no comment. -/
def Starts (rest : List Char) : Prop :=
  ∀ c tail, rest = c :: tail → is_blank c = false ∧ ¬(c = '/' ∧ tail.head? = some '/')

theorem skip_trivia_reads {in_comment : Bool} {pos pos' : Nat} {cs rest : List Char}
    (h : skip_trivia in_comment pos cs = (pos', rest)) :
    ∃ body g, cs = body ++ g ++ rest ∧ Gap g rest ∧ (∀ c ∈ body, c ≠ '\n') ∧ (in_comment = false → body = []) ∧
      (in_comment = true → ∀ c, (g ++ rest).head? = some c → c = '\n') ∧ pos' = pos + byte_len (body ++ g) ∧
      Starts rest := by
  fun_induction skip_trivia in_comment pos cs with
  | case1 in_comment pos =>
    cases h
    refine ⟨[], [], rfl, .done, by simp, fun _ => rfl, by simp, rfl, ?_⟩
    intro c tail heq
    cases heq
  | case2 pos c cs ih =>
    obtain ⟨body, g, hcs, hgap, hline, hfalse, htrue, hpos, hstarts⟩ := ih h
    by_cases hc : c = '\n'
    · -- The line ends, and its end is a blank.
      subst hc
      have hbody : body = [] := hfalse (by decide)
      subst hbody
      refine ⟨[], '\n' :: g, by rw [hcs]; rfl, .blank (by decide) hgap, by simp, by simp, ?_, ?_, hstarts⟩
      · intro _ c hc
        simpa using hc.symm
      · rw [hpos, List.nil_append, List.nil_append, byte_len_cons]
        omega
    · refine ⟨c :: body, g, by rw [hcs]; rfl, hgap, ?_, by simp, ?_, ?_, hstarts⟩
      · intro d hd
        obtain rfl | hd := List.mem_cons.mp hd
        · exact hc
        · exact hline d hd
      · exact fun _ => htrue (by simpa using hc)
      · rw [hpos, List.cons_append, byte_len_cons]
        omega
  | case3 in_comment pos c cs hcomment hblank ih =>
    obtain ⟨body, g, hcs, hgap, hline, hfalse, htrue, hpos, hstarts⟩ := ih h
    obtain rfl := hfalse rfl
    refine ⟨[], c :: g, by rw [hcs]; rfl, .blank hblank hgap, by simp, fun _ => rfl, fun hc => absurd hc hcomment, ?_, hstarts⟩
    rw [hpos, List.nil_append, List.nil_append, byte_len_cons, blank_size hblank]
    omega
  | case4 in_comment pos c cs hcomment hblank hslash ih =>
    obtain ⟨body, g, hcs, hgap, hline, hfalse, htrue, hpos, hstarts⟩ := ih h
    obtain ⟨rfl, hhead⟩ := hslash
    rw [hcs] at hhead
    -- The second slash is on the line of the comment.
    obtain ⟨body, rfl⟩ : ∃ tail, body = '/' :: tail := by
      cases body with
      | nil =>
        have hnewline := htrue rfl '/' hhead
        cases hnewline
      | cons d tail =>
        obtain rfl : d = '/' := by simpa using hhead
        exact ⟨tail, rfl⟩
    refine ⟨[], '/' :: '/' :: (body ++ g), by rw [hcs]; simp, ?_, by simp, fun _ => rfl, fun hc => absurd hc hcomment, ?_,
      hstarts⟩
    · exact .comment (fun d hd => hline d (List.mem_cons_of_mem _ hd)) (htrue rfl) hgap
    · rw [hpos, List.nil_append, byte_len_cons, List.cons_append]
      simp only [show ('/' : Char).utf8Size = 1 from rfl]
      omega
  | case5 in_comment pos c cs hcomment hblank hslash =>
    cases h
    refine ⟨[], [], rfl, .done, by simp, fun _ => rfl, fun hc => absurd hc hcomment, rfl, ?_⟩
    intro d tail heq
    obtain ⟨rfl, rfl⟩ := List.cons_eq_cons.mp heq
    exact ⟨by simpa using hblank, hslash⟩

/-- Between two tokens the lexer skips a gap, and all of it. -/
theorem skip_gap {pos pos' : Nat} {cs rest : List Char} (h : skip_trivia false pos cs = (pos', rest)) :
    ∃ g, cs = g ++ rest ∧ Gap g rest ∧ pos' = pos + byte_len g ∧ Starts rest := by
  obtain ⟨body, g, hcs, hgap, -, hfalse, -, hpos, hstarts⟩ := skip_trivia_reads h
  obtain rfl := hfalse rfl
  exact ⟨g, hcs, hgap, hpos, hstarts⟩

theorem takeWhile_digits (cs : List Char) : ∀ d ∈ cs.takeWhile Char.isDigit, d.isDigit = true :=
  fun _ hd => List.mem_takeWhile_imp hd

theorem fraction_reads (cs : List Char) : ∃ behind, cs = fraction cs ++ behind ∧ Fraction (fraction cs) := by
  unfold fraction
  split
  · next d rest =>
    split
    · next hd =>
      refine ⟨(d :: rest).dropWhile Char.isDigit, ?_, .point ⟨?_, takeWhile_digits _⟩⟩
      · rw [List.cons_append, List.takeWhile_append_dropWhile]
      · rw [List.takeWhile_cons_of_pos hd]
        simp
    · exact ⟨_, rfl, .none⟩
  · exact ⟨_, rfl, .none⟩

theorem exponent_sign_reads (cs : List Char) : ∃ tail, cs = exponent_sign cs ++ tail ∧
    (exponent_sign cs = [] ∨ exponent_sign cs = ['+'] ∨ exponent_sign cs = ['-']) := by
  unfold exponent_sign
  split
  · exact ⟨_, rfl, .inr (.inl rfl)⟩
  · exact ⟨_, rfl, .inr (.inr rfl)⟩
  · exact ⟨_, rfl, .inl rfl⟩

theorem exponent_reads (cs : List Char) : ∃ behind, cs = exponent cs ++ behind ∧ Exponent (exponent cs) := by
  cases cs with
  | nil => exact ⟨[], rfl, .none⟩
  | cons e rest =>
    obtain ⟨tail, hrest, hsigned⟩ := exponent_sign_reads rest
    have hdrop : rest.drop (exponent_sign rest).length = tail := by
      conv_lhs => rw [hrest]
      exact List.drop_left' (by rw [← hrest])
    rw [exponent]
    simp only [hdrop]
    split
    · next h =>
      refine ⟨tail.dropWhile Char.isDigit, ?_, .power h.1 hsigned ⟨h.2, takeWhile_digits _⟩⟩
      rw [List.cons_append, List.append_assoc, List.takeWhile_append_dropWhile, ← hrest]
    · exact ⟨_, rfl, .none⟩

theorem digits_size {digits : List Char} (h : Digits digits) : byte_len digits = digits.length :=
  byte_len_eq_length fun d hd => digit_size (h.2 d hd)

theorem fraction_size {frac : List Char} (h : Fraction frac) : byte_len frac = frac.length := by
  cases h with
  | none => rfl
  | point h =>
    rw [byte_len_cons, digits_size h, List.length_cons, show ('.' : Char).utf8Size = 1 from rfl]
    omega

theorem exponent_size {exp : List Char} (h : Exponent exp) : byte_len exp = exp.length := by
  cases h with
  | none => rfl
  | @power e sign digits letter signed h =>
    have hletter : e.utf8Size = 1 := by
      obtain rfl | rfl := letter
      · rfl
      · rfl
    have hsign : byte_len sign = sign.length := by
      obtain rfl | rfl | rfl := signed
      · rfl
      · rfl
      · rfl
    rw [byte_len_cons, byte_len_append, hletter, hsign, digits_size h, List.length_cons, List.length_append]
    omega

/-- What a lexed token stands for. -/
def Lexes (parse_f64 : String → Option Float) (start : Nat) (cs : List Char) (token : Token) (rest : List Char) : Prop :=
  ∃ word, word ≠ [] ∧ cs = word ++ rest ∧ Spells parse_f64 token.kind word ∧ token.span = ⟨start, start + byte_len word⟩

section lexer

variable {parse_f64 : String → Option Float}

theorem lex_ident_reads {start : Nat} {c : Char} {cs : List Char} (h : is_ident_start c = true) :
    Lexes parse_f64 start (c :: cs) (lex_ident start (c :: cs)).1 (lex_ident start (c :: cs)).2 := by
  have htake : (c :: cs).takeWhile is_ident_continue = c :: cs.takeWhile is_ident_continue :=
    List.takeWhile_cons_of_pos (start_continue h)
  have htail : ∀ d ∈ cs.takeWhile is_ident_continue, is_ident_continue d = true := fun _ hd => List.mem_takeWhile_imp hd
  have hsize : byte_len ((c :: cs).takeWhile is_ident_continue) = ((c :: cs).takeWhile is_ident_continue).length :=
    byte_len_eq_length fun _ hd => continue_size (List.mem_takeWhile_imp hd)
  refine ⟨(c :: cs).takeWhile is_ident_continue, by rw [htake]; simp, List.takeWhile_append_dropWhile.symm, ?_, ?_⟩
  · rw [lex_ident, htake]
    simp only [word_kind]
    cases hword : keyword (String.ofList (c :: cs.takeWhile is_ident_continue)) with
    | some f => exact .keyword h htail hword
    | none => exact .ident h htail hword
  · rw [lex_ident, hsize]

theorem number_token_reads {start : Nat} {digits frac exp : List Char} {token : Token} (hdigits : Digits digits)
    (hfrac : Fraction frac) (hexp : Exponent exp) (h : number_token parse_f64 start digits frac exp = .ok token) :
    Spells parse_f64 token.kind (digits ++ frac ++ exp) ∧
      token.span = ⟨start, start + byte_len (digits ++ frac ++ exp)⟩ := by
  have hsize : byte_len (digits ++ frac ++ exp) = (digits ++ frac ++ exp).length := by
    rw [byte_len_append, byte_len_append, digits_size hdigits, fraction_size hfrac, exponent_size hexp,
      List.length_append, List.length_append]
  rw [hsize]
  rw [number_token] at h
  split at h
  · next hfloat =>
    split at h
    · next f hf =>
      cases h
      exact ⟨.float hdigits hfrac hexp hfloat hf, rfl⟩
    · cases h
  · next hfloat =>
    obtain ⟨rfl, rfl⟩ : frac = [] ∧ exp = [] := by
      constructor
      · by_contra hne
        exact hfloat (.inl hne)
      · by_contra hne
        exact hfloat (.inr hne)
    split at h
    · next hrange =>
      cases h
      rw [List.append_nil, List.append_nil]
      exact ⟨.int hdigits hrange, rfl⟩
    · cases h

theorem lex_number_reads {start : Nat} {c : Char} {cs rest : List Char} {token : Token} (hc : c.isDigit = true)
    (h : lex_number parse_f64 start (c :: cs) = .ok (token, rest)) : Lexes parse_f64 start (c :: cs) token rest := by
  obtain ⟨behind, hbehind, hfrac⟩ := fraction_reads ((c :: cs).dropWhile Char.isDigit)
  have hdrop : ((c :: cs).dropWhile Char.isDigit).drop (fraction ((c :: cs).dropWhile Char.isDigit)).length = behind := by
    conv_lhs => rw [hbehind]
    exact List.drop_left' (by rw [← hbehind])
  obtain ⟨further, hfurther, hexp⟩ := exponent_reads behind
  have hdigits : Digits ((c :: cs).takeWhile Char.isDigit) := by
    refine ⟨?_, takeWhile_digits _⟩
    rw [List.takeWhile_cons_of_pos hc]
    simp
  have hsplit : c :: cs = (c :: cs).takeWhile Char.isDigit ++ fraction ((c :: cs).dropWhile Char.isDigit) ++
      exponent behind ++ further := by
    conv_lhs => rw [← List.takeWhile_append_dropWhile (p := Char.isDigit) (l := c :: cs), hbehind, hfurther]
    simp only [List.append_assoc]
  rw [lex_number] at h
  simp only [hdrop] at h
  obtain ⟨token', htoken, h⟩ := results.bind_ok_iff.mp h
  cases h
  obtain ⟨hspell, hspan⟩ := number_token_reads hdigits hfrac hexp htoken
  refine ⟨_, by simp [hdigits.1], ?_, hspell, hspan⟩
  have hrest : (c :: cs).drop ((c :: cs).takeWhile Char.isDigit ++ fraction ((c :: cs).dropWhile Char.isDigit) ++
      exponent behind).length = further := by
    conv_lhs => rw [hsplit]
    exact List.drop_left' (by rw [← hsplit])
  rw [hrest]
  exact hsplit

theorem escape_size {esc d : Char} (h : decode_escape esc = some d) : esc.utf8Size = 1 := by
  unfold decode_escape at h
  split at h
  · next hesc =>
    obtain rfl | rfl | rfl := hesc
    · rfl
    · rfl
    · rfl
  · split at h
    · next hesc =>
      rw [hesc]
      rfl
    · split at h
      · next hesc =>
        rw [hesc]
        rfl
      · split at h
        · next hesc =>
          rw [hesc]
          rfl
        · cases h

theorem lex_string_reads {start i : Nat} {value cs rest : List Char} {token : Token}
    (h : lex_string start i value cs = .ok (token, rest)) :
    ∃ body further, cs = body ++ '"' :: rest ∧ Quoted body further ∧ token.kind = .Str (String.ofList (value ++ further)) ∧
      token.span = ⟨start, i + byte_len body + 1⟩ := by
  fun_induction lex_string start i value cs with
  | case1 => cases h
  | case2 i value rest =>
    cases h
    exact ⟨[], [], rfl, .done, by simp, rfl⟩
  | case3 => cases h
  | case4 i value esc rest d hd hquote ih =>
    obtain ⟨body, further, rfl, hbody, hkind, hspan⟩ := ih h
    refine ⟨'\\' :: esc :: body, d :: further, rfl, .escape hd hbody, by rw [hkind]; simp, ?_⟩
    have hesc := escape_size hd
    rw [hspan, byte_len_cons, byte_len_cons, hesc, show ('\\' : Char).utf8Size = 1 from rfl]
    simp only [Span.mk.injEq, true_and]
    omega
  | case5 => cases h
  | case6 i value c rest hquote hescape ih =>
    obtain ⟨body, further, rfl, hbody, hkind, hspan⟩ := ih h
    refine ⟨c :: body, c :: further, rfl, .plain hquote hescape hbody, by rw [hkind]; simp, ?_⟩
    rw [hspan, byte_len_cons]
    simp only [Span.mk.injEq, true_and]
    omega

theorem sign_size : ∀ f ∈ signs, byte_len (token_text f).toList = (token_text f).toList.length := by
  decide

theorem operator_reads {c : Char} {two : Option Char} {f : Fixed} {len : Nat} (h : operator c two = some (f, len)) :
    f ∈ signs ∧ ((len = 1 ∧ (token_text f).toList = [c]) ∨
      (len = 2 ∧ ∃ d, two = some d ∧ (token_text f).toList = [c, d])) := by
  unfold operator at h
  split at h
  all_goals
    cases h
  all_goals
    refine ⟨by decide, ?_⟩
  all_goals
    first | exact .inl ⟨rfl, rfl⟩ | exact .inr ⟨rfl, _, rfl, rfl⟩

/-- A lexed token is spelled by the text in front of the rest. -/
theorem next_token_reads {start : Nat} {c : Char} {cs rest : List Char} {token : Token}
    (h : next_token parse_f64 start c cs = .ok (token, rest)) : Lexes parse_f64 start (c :: cs) token rest := by
  unfold next_token at h
  split at h
  · next hc =>
    have hread : Lexes parse_f64 start (c :: cs) (lex_ident start (c :: cs)).1 (lex_ident start (c :: cs)).2 :=
      lex_ident_reads hc
    obtain ⟨rfl, rfl⟩ := Prod.mk.inj (Except.ok.inj h)
    exact hread
  · split at h
    · next hc => exact lex_number_reads hc h
    · split at h
      · next hc =>
        subst hc
        obtain ⟨body, further, rfl, hbody, hkind, hspan⟩ := lex_string_reads h
        refine ⟨'"' :: (body ++ ['"']), by simp, by simp, ?_, ?_⟩
        · rw [hkind, List.nil_append]
          exact .str hbody
        · rw [hspan, byte_len_cons, byte_len_append, byte_len_cons, show ('"' : Char).utf8Size = 1 from rfl]
          simp only [byte_len, List.map_nil, List.sum_nil, Span.mk.injEq, true_and]
          omega
      · split at h
        · next f len hop =>
          cases h
          obtain ⟨hf, ⟨rfl, htext⟩ | ⟨rfl, d, htwo, htext⟩⟩ := operator_reads hop
          · have hsize := sign_size f hf
            rw [htext] at hsize
            refine ⟨[c], by simp, rfl, ?_, by rw [hsize]; rfl⟩
            rw [← htext]
            exact .sign hf
          · obtain ⟨cs, rfl⟩ : ∃ tail, cs = d :: tail := by
              cases cs with
              | nil => cases htwo
              | cons d' tail =>
                obtain rfl : d' = d := by simpa using htwo
                exact ⟨tail, rfl⟩
            have hsize := sign_size f hf
            rw [htext] at hsize
            refine ⟨[c, d], by simp, rfl, ?_, by rw [hsize]; rfl⟩
            rw [← htext]
            exact .sign hf
        · cases h

theorem lex_from_laid {fuel pos : Nat} {cs : List Char} {tokens : List Token} (hfuel : cs.length < fuel)
    (h : lex_from parse_f64 fuel pos cs = .ok tokens) :
    ∃ words last, Laid parse_f64 words last ∧ cs = laid_text words last ∧ tokens = laid_tokens pos words last := by
  induction fuel generalizing pos cs tokens with
  | zero => omega
  | succ fuel ih =>
    rw [lex_from] at h
    split at h
    · next behind hskip =>
      cases h
      obtain ⟨g, hcs, hgap, hpos, -⟩ := skip_gap hskip
      rw [List.append_nil] at hcs
      exact ⟨[], g, .done hgap, hcs, by rw [hpos]; rfl⟩
    · next behind c rest hskip =>
      obtain ⟨⟨token, further⟩, htoken, h⟩ := results.bind_ok_iff.mp h
      obtain ⟨tokens, htokens, h⟩ := results.bind_ok_iff.mp h
      cases h
      obtain ⟨g, hcs, hgap, rfl, -⟩ := skip_gap hskip
      obtain ⟨word, hne, hword, hspell, hspan⟩ := next_token_reads htoken
      have hlen := List.length_pos_iff.mpr hne
      have hcount := congrArg List.length (hcs.trans (by rw [hword]))
      simp only [List.length_append] at hcount
      obtain ⟨words, last, hlaid, rfl, rfl⟩ := ih (by omega) htokens
      rw [hword] at hgap hcs
      refine ⟨(g, token.kind, word) :: words, last, .word hgap hspell hlaid, hcs, ?_⟩
      obtain ⟨kind, span⟩ := token
      obtain rfl : span = ⟨pos + byte_len g, pos + byte_len g + byte_len word⟩ := hspan
      rfl

/-- The tokens tile the text: every character belongs to one token's spelling, at the token's byte range, or to a gap of
blanks and comments, and the end of the input stands behind them all. -/
theorem tokenize_tiles {src : String} {tokens : List Token} (h : tokenize parse_f64 src = .ok tokens) :
    ∃ words last, Laid parse_f64 words last ∧ src.toList = laid_text words last ∧ tokens = laid_tokens 0 words last :=
  lex_from_laid (Nat.lt_succ_self _) h

theorem tokenize_tiles_comparison :
    ∃ words last, Laid (fun _ => none) words last ∧ "a <= 1 //b".toList = laid_text words last ∧
      [⟨.Ident "a", ⟨0, 1⟩⟩, ⟨.Fixed .Le, ⟨2, 4⟩⟩, ⟨.Int 1, ⟨5, 6⟩⟩, ⟨.Eof, ⟨10, 10⟩⟩] = laid_tokens 0 words last :=
  tokenize_tiles rfl

end lexer

/-! ### What the lexer takes -/

/-- A text that is empty or starts with a blank. -/
def OpensBlank (cs : List Char) : Prop :=
  ∀ c, cs.head? = some c → is_blank c = true

/-- Behind every word stands a blank, or the end of the text. -/
def Spaced : List (List Char × TokenKind × List Char) → List Char → Prop
  | [], _ => True
  | _ :: words, last => OpensBlank (laid_text words last) ∧ Spaced words last

theorem skip_comment {pos : Nat} {body rest : List Char} (hbody : ∀ c ∈ body, c ≠ '\n')
    (hrest : ∀ c, rest.head? = some c → c = '\n') :
    skip_trivia true pos (body ++ rest) = skip_trivia false (pos + byte_len body) rest := by
  induction body generalizing pos with
  | nil =>
    cases rest with
    | nil => rfl
    | cons c tail =>
      obtain rfl := hrest c rfl
      rfl
  | cons c body ih =>
    have hc : c ≠ '\n' := hbody c List.mem_cons_self
    rw [List.cons_append, skip_trivia, if_pos rfl, byte_len_cons, ← Nat.add_assoc]
    have hnext : (c != '\n') = true := by simpa using hc
    rw [hnext]
    exact ih fun d hd => hbody d (List.mem_cons_of_mem c hd)

theorem skip_of_gap {pos : Nat} {g rest : List Char} (h : Gap g rest) (hstarts : Starts rest) :
    skip_trivia false pos (g ++ rest) = (pos + byte_len g, rest) := by
  induction h generalizing pos with
  | @done rest =>
    cases rest with
    | nil => rfl
    | cons c tail =>
      obtain ⟨hblank, hslash⟩ := hstarts c tail rfl
      rw [List.nil_append, skip_trivia, if_neg (by simp), hblank, if_neg (by simp), if_neg hslash]
      rfl
  | blank blank _ ih =>
    rw [List.cons_append, skip_trivia, if_neg (by simp), if_pos blank, ih hstarts, byte_len_cons, blank_size blank]
    rw [Nat.add_assoc]
  | @comment body g rest line ends _ ih =>
    have hslash : ('/' : Char) = '/' ∧ ('/' :: (body ++ g) ++ rest).head? = some '/' := ⟨rfl, rfl⟩
    have hline : ∀ c ∈ '/' :: body, c ≠ '\n' := by
      intro c hc
      obtain rfl | hc := List.mem_cons.mp hc
      · decide
      · exact line c hc
    rw [List.cons_append, skip_trivia, if_neg (by simp), if_neg (by decide), if_pos hslash, ← List.cons_append,
      List.append_assoc, skip_comment hline ends, ih hstarts]
    simp only [byte_len_cons, byte_len_append, show ('/' : Char).utf8Size = 1 from rfl]
    congr 1
    omega

section lexer

variable {parse_f64 : String → Option Float}

theorem takes_while {p : Char → Bool} {u v : List Char} (hu : ∀ d ∈ u, p d = true)
    (hv : ∀ c, v.head? = some c → p c = false) : (u ++ v).takeWhile p = u ∧ (u ++ v).dropWhile p = v := by
  have hstop : v.takeWhile p = [] ∧ v.dropWhile p = v := by
    cases v with
    | nil => exact ⟨rfl, rfl⟩
    | cons c tail =>
      have hc := hv c rfl
      exact ⟨by simp [hc], by simp [hc]⟩
  constructor
  · rw [List.takeWhile_append_of_pos hu, hstop.1, List.append_nil]
  · rw [List.dropWhile_append_of_pos hu, hstop.2]

theorem blank_not {p : Char → Bool} (hp : [' ', '\t', '\r', '\n'].any p = false) {rest : List Char}
    (h : OpensBlank rest) : ∀ c, rest.head? = some c → p c = false := by
  intro c hc
  have hblank := h c hc
  simp only [is_blank, Bool.or_eq_true, beq_iff_eq] at hblank
  have hmem : c ∈ [' ', '\t', '\r', '\n'] := by simpa [or_assoc] using hblank
  exact Bool.eq_false_iff.mpr (List.any_eq_false.mp hp c hmem)

theorem takes_fraction {frac rest : List Char} (h : Fraction frac) (hdot : ∀ c, rest.head? = some c → c ≠ '.')
    (hdigit : ∀ c, rest.head? = some c → c.isDigit = false) : fraction (frac ++ rest) = frac := by
  cases h with
  | none =>
    unfold fraction
    split
    · next heq => exact absurd rfl (hdot '.' (by rw [← List.nil_append rest, heq]; rfl))
    · rfl
  | @point digits h =>
    obtain ⟨hne, hall⟩ := h
    cases digits with
    | nil => exact absurd rfl hne
    | cons d digits =>
      rw [List.cons_append, List.cons_append, fraction, if_pos (hall d List.mem_cons_self), ← List.cons_append,
        (takes_while hall hdigit).1]

theorem takes_exponent {exp rest : List Char} (h : Exponent exp) (hletter : ∀ c, rest.head? = some c → c ≠ 'e' ∧ c ≠ 'E')
    (hdigit : ∀ c, rest.head? = some c → c.isDigit = false) : exponent (exp ++ rest) = exp := by
  cases h with
  | none =>
    cases rest with
    | nil => rfl
    | cons c tail =>
      rw [List.nil_append, exponent, if_neg]
      rintro ⟨hc | hc, -⟩
      · exact (hletter c rfl).1 hc
      · exact (hletter c rfl).2 hc
  | @power e sign digits letter signed h =>
    have hsign : exponent_sign (sign ++ (digits ++ rest)) = sign := by
      obtain rfl | rfl | rfl := signed
      · obtain ⟨d, tail, rfl⟩ := List.exists_cons_of_ne_nil h.1
        have hd := h.2 d List.mem_cons_self
        unfold exponent_sign
        split
        · next heq =>
          obtain ⟨rfl, -⟩ := List.cons_eq_cons.mp heq
          cases hd
        · next heq =>
          obtain ⟨rfl, -⟩ := List.cons_eq_cons.mp heq
          cases hd
        · rfl
      · rfl
      · rfl
    rw [List.cons_append, List.append_assoc, exponent]
    simp only [hsign, List.drop_left, (takes_while h.2 hdigit).1]
    rw [if_pos ⟨letter, h.1⟩]

theorem takes_string {start i : Nat} {value body further rest : List Char} (h : Quoted body further) :
    lex_string start i value (body ++ '"' :: rest) =
      .ok (⟨.Str (String.ofList (value ++ further)), ⟨start, i + byte_len body + 1⟩⟩, rest) := by
  induction h generalizing i value with
  | done =>
    rw [List.nil_append, lex_string.eq_def]
    simp only [if_true]
    rw [List.append_nil]
    rfl
  | @plain c body further quote escape _ ih =>
    rw [List.cons_append, lex_string.eq_def]
    simp only [quote, escape, if_false]
    rw [ih, byte_len_cons, List.append_assoc, Nat.add_assoc i]
    rfl
  | @escape esc d body further decoded _ ih =>
    rw [List.cons_append, List.cons_append, lex_string.eq_def]
    simp only [decoded, if_true, show ('\\' : Char) ≠ '"' by decide, if_false]
    rw [ih, byte_len_cons, byte_len_cons, escape_size decoded, List.append_assoc]
    simp only [show ('\\' : Char).utf8Size = 1 from rfl, List.singleton_append]
    have hstop : i + 2 + byte_len body + 1 = i + (1 + (1 + byte_len body)) + 1 := by omega
    rw [hstop]

theorem takes_number {start : Nat} {digits frac exp rest : List Char} {token : Token} (hdigits : Digits digits)
    (hfrac : Fraction frac) (hexp : Exponent exp) (hrest : OpensBlank rest)
    (htoken : number_token parse_f64 start digits frac exp = .ok token) :
    lex_number parse_f64 start (digits ++ frac ++ exp ++ rest) = .ok (token, rest) := by
  have hblank : ∀ {p : Char → Bool}, [' ', '\t', '\r', '\n'].any p = false →
      ∀ c, rest.head? = some c → p c = false := fun hp => blank_not hp hrest
  have hexp_head : ∀ c, (exp ++ rest).head? = some c → c.isDigit = false ∧ c ≠ '.' := by
    intro c hc
    cases hexp with
    | none =>
      have hnot := hblank (p := fun c => c.isDigit || c == '.') (by decide) c hc
      simpa using hnot
    | power letter _ _ =>
      obtain rfl := Option.some.inj hc
      obtain rfl | rfl := letter
      · decide
      · decide
  have hfrac_head : ∀ c, (frac ++ (exp ++ rest)).head? = some c → c.isDigit = false := by
    intro c hc
    cases hfrac with
    | none => exact (hexp_head c hc).1
    | point _ =>
      obtain rfl := Option.some.inj hc
      rfl
  have hwhile := takes_while hdigits.2 hfrac_head
  have hf := takes_fraction hfrac (fun c hc => (hexp_head c hc).2) fun c hc => (hexp_head c hc).1
  have he : exponent (exp ++ rest) = exp := by
    refine takes_exponent hexp (fun c hc => ?_) (hblank (by decide))
    have hnot := hblank (p := fun c => c == 'e' || c == 'E') (by decide) c hc
    simpa using hnot
  have hassoc : digits ++ frac ++ exp ++ rest = digits ++ (frac ++ (exp ++ rest)) := by simp only [List.append_assoc]
  have hdrop : (digits ++ (frac ++ (exp ++ rest))).drop (digits ++ frac ++ exp).length = rest := by
    rw [← hassoc]
    exact List.drop_left
  rw [lex_number, hassoc]
  simp only [hwhile.1, hwhile.2, hf, List.drop_left, he, htoken, results.except_bind_ok]
  rw [hdrop]

/-- Whether a sign in front of the character `two` is lexed as itself. -/
def sign_taken (f : Fixed) (two : Option Char) : Bool :=
  match (token_text f).toList with
  | [c] => !is_ident_start c && !c.isDigit && c != '"' && operator c two == some (f, 1)
  | [c, d] => !is_ident_start c && !c.isDigit && c != '"' && operator c (some d) == some (f, 2)
  | _ => false

theorem signs_taken : ∀ f ∈ signs, ∀ two ∈ [none, some ' ', some '\t', some '\r', some '\n'], sign_taken f two = true := by
  decide

theorem head_of_blank {rest : List Char} (h : OpensBlank rest) :
    rest.head? ∈ [none, some ' ', some '\t', some '\r', some '\n'] := by
  cases rest with
  | nil => simp
  | cons c tail =>
    have hblank := h c rfl
    simp only [is_blank, Bool.or_eq_true, beq_iff_eq] at hblank
    simpa [or_assoc] using hblank

theorem digit_not_start {c : Char} (h : c.isDigit = true) : is_ident_start c = false := by
  simp only [Char.isDigit, Bool.and_eq_true, decide_eq_true_eq] at h
  have hval : c.val.toNat ≤ 57 := UInt32.le_iff_toNat_le.mp h.2
  by_contra hnot
  simp only [is_ident_start, Char.isAlpha, Char.isUpper, Char.isLower, Bool.not_eq_false, Bool.or_eq_true,
    Bool.and_eq_true, decide_eq_true_eq, beq_iff_eq] at hnot
  obtain (hnot | hnot) | rfl := hnot
  · have hle : 65 ≤ c.val.toNat := UInt32.le_iff_toNat_le.mp hnot.1
    omega
  · have hle : 97 ≤ c.val.toNat := UInt32.le_iff_toNat_le.mp hnot.1
    omega
  · revert hval
    decide

theorem takes_word {start : Nat} {c : Char} {w rest : List Char} (hc : is_ident_start c = true)
    (hw : ∀ d ∈ w, is_ident_continue d = true) (hrest : OpensBlank rest) :
    next_token parse_f64 start c (w ++ rest) =
      .ok (⟨word_kind (String.ofList (c :: w)), ⟨start, start + byte_len (c :: w)⟩⟩, rest) := by
  have hall : ∀ d ∈ c :: w, is_ident_continue d = true := by
    intro d hd
    obtain rfl | hd := List.mem_cons.mp hd
    · exact start_continue hc
    · exact hw d hd
  have hwhile := takes_while hall (blank_not (p := is_ident_continue) (by decide) hrest)
  rw [List.cons_append] at hwhile
  rw [next_token, if_pos hc, lex_ident, hwhile.1, hwhile.2, byte_len_eq_length fun d hd => continue_size (hall d hd)]

/-- A word in front of a blank is lexed to the token it spells. -/
theorem takes_token (start : Nat) {kind : TokenKind} {word rest : List Char} (h : Spells parse_f64 kind word)
    (hrest : OpensBlank rest) : ∃ c tail, word = c :: tail ∧
      next_token parse_f64 start c (tail ++ rest) = .ok (⟨kind, ⟨start, start + byte_len word⟩⟩, rest) := by
  have hnumber : ∀ {digits frac exp : List Char} {token : Token}, Digits digits → Fraction frac → Exponent exp →
      number_token parse_f64 start digits frac exp = .ok token → ∃ c tail, digits ++ frac ++ exp = c :: tail ∧
        next_token parse_f64 start c (tail ++ rest) = .ok (token, rest) := by
    intro digits frac exp token hdigits hfrac hexp htoken
    have htake := takes_number hdigits hfrac hexp hrest htoken
    obtain ⟨c, digits, rfl⟩ := List.exists_cons_of_ne_nil hdigits.1
    have hc := hdigits.2 c List.mem_cons_self
    refine ⟨c, digits ++ frac ++ exp, rfl, ?_⟩
    rw [next_token, if_neg (by simp [digit_not_start hc]), if_pos hc]
    exact htake
  cases h with
  | @keyword c w f start tail word =>
    refine ⟨c, w, rfl, ?_⟩
    rw [takes_word start tail hrest, word_kind, word]
  | @ident c w start tail word =>
    refine ⟨c, w, rfl, ?_⟩
    rw [takes_word start tail hrest, word_kind, word]
  | int h range =>
    have htoken : number_token parse_f64 start word [] [] =
        .ok ⟨.Int (digits_value word), ⟨start, start + byte_len word⟩⟩ := by
      rw [number_token, if_neg (by simp), if_pos range, List.append_nil, List.append_nil, digits_size h]
    have htake := hnumber h .none .none htoken
    rw [List.append_nil, List.append_nil] at htake
    exact htake
  | @float digits frac exp f h fraction exponent float value =>
    have hsize : byte_len (digits ++ frac ++ exp) = (digits ++ frac ++ exp).length := by
      rw [byte_len_append, byte_len_append, digits_size h, fraction_size fraction, exponent_size exponent,
        List.length_append, List.length_append]
    have htoken : number_token parse_f64 start digits frac exp =
        .ok ⟨.Float f, ⟨start, start + byte_len (digits ++ frac ++ exp)⟩⟩ := by
      rw [number_token, if_pos float, hsize]
      simp only [value]
    exact hnumber h fraction exponent htoken
  | @str body value h =>
    refine ⟨'"', body ++ ['"'], rfl, ?_⟩
    have hstring : lex_string start (start + 1) [] (body ++ '"' :: rest) =
        .ok (⟨.Str (String.ofList ([] ++ value)), ⟨start, start + 1 + byte_len body + 1⟩⟩, rest) := takes_string h
    rw [next_token, if_neg (by decide), if_neg (by decide), if_pos rfl, List.append_assoc, List.singleton_append, hstring,
      byte_len_cons, byte_len_append, byte_len_cons]
    simp only [show ('"' : Char).utf8Size = 1 from rfl, byte_len, List.map_nil, List.sum_nil, List.nil_append]
    have hstop : start + 1 + (body.map Char.utf8Size).sum + 1 = start + (1 + ((body.map Char.utf8Size).sum + (1 + 0))) := by
      omega
    rw [hstop]
  | @sign f h =>
    have htaken := signs_taken f h _ (head_of_blank hrest)
    have hsize := sign_size f h
    unfold sign_taken at htaken
    split at htaken
    · next c htext =>
      simp only [Bool.and_eq_true, Bool.not_eq_true', bne_iff_ne, beq_iff_eq] at htaken
      obtain ⟨⟨⟨hstart, hdigit⟩, hquote⟩, hop⟩ := htaken
      refine ⟨c, [], htext, ?_⟩
      rw [next_token, if_neg (by simp [hstart]), if_neg (by simp [hdigit]), if_neg hquote, List.nil_append, hop, hsize, htext]
      rfl
    · next c d htext =>
      simp only [Bool.and_eq_true, Bool.not_eq_true', bne_iff_ne, beq_iff_eq] at htaken
      obtain ⟨⟨⟨hstart, hdigit⟩, hquote⟩, hop⟩ := htaken
      refine ⟨c, [d], htext, ?_⟩
      have hhead : ([d] ++ rest).head? = some d := rfl
      rw [next_token, if_neg (by simp [hstart]), if_neg (by simp [hdigit]), if_neg hquote, hhead, hop, hsize, htext]
      rfl
    · cases htaken

theorem signs_start : ∀ f ∈ signs, ((token_text f).toList.take 1).all (fun c => !is_blank c && c != '/') = true := by
  decide

/-- No token starts with a blank or a slash. -/
theorem Spells.head {kind : TokenKind} {c : Char} {tail : List Char} (h : Spells parse_f64 kind (c :: tail)) :
    is_blank c = false ∧ c ≠ '/' := by
  have hprop : ∀ {p : Char → Bool}, p c = true → [' ', '\t', '\r', '\n', '/'].any p = false →
      is_blank c = false ∧ c ≠ '/' := by
    intro p hp hany
    have hnot : ∀ d ∈ [' ', '\t', '\r', '\n', '/'], p d = false :=
      fun d hd => Bool.eq_false_iff.mpr (List.any_eq_false.mp hany d hd)
    constructor
    · by_contra hblank
      simp only [is_blank, Bool.not_eq_false, Bool.or_eq_true, beq_iff_eq] at hblank
      have hc := hnot c (by
        obtain ((rfl | rfl) | rfl) | rfl := hblank
        · decide
        · decide
        · decide
        · decide)
      rw [hp] at hc
      cases hc
    · rintro rfl
      rw [hnot '/' (by decide)] at hp
      cases hp
  have hdigits : ∀ {digits further : List Char}, Digits digits → digits ++ further = c :: tail →
      is_blank c = false ∧ c ≠ '/' := by
    intro digits further hd heq
    obtain ⟨d, digits, rfl⟩ := List.exists_cons_of_ne_nil hd.1
    obtain ⟨rfl, -⟩ := List.cons_eq_cons.mp heq
    exact hprop (hd.2 d List.mem_cons_self) (by decide)
  generalize hword : c :: tail = word at h
  cases h with
  | keyword start _ _ =>
    obtain ⟨rfl, -⟩ := List.cons_eq_cons.mp hword
    exact hprop start (by decide)
  | ident start _ _ =>
    obtain ⟨rfl, -⟩ := List.cons_eq_cons.mp hword
    exact hprop start (by decide)
  | int h _ => exact hdigits h ((List.append_nil _).trans hword.symm)
  | float h _ _ _ _ =>
    rw [List.append_assoc] at hword
    exact hdigits h hword.symm
  | str _ =>
    obtain ⟨rfl, -⟩ := List.cons_eq_cons.mp hword
    decide
  | @sign f hf =>
    have hstart := signs_start f hf
    rw [← hword] at hstart
    simpa using hstart

theorem lex_from_spaced {words : List (List Char × TokenKind × List Char)} {last : List Char}
    (hlaid : Laid parse_f64 words last) (hspaced : Spaced words last) {fuel pos : Nat}
    (hfuel : (laid_text words last).length < fuel) :
    lex_from parse_f64 fuel pos (laid_text words last) = .ok (laid_tokens pos words last) := by
  induction hlaid generalizing fuel pos with
  | @done last gap =>
    obtain ⟨fuel, rfl⟩ : ∃ n, fuel = n + 1 := ⟨fuel - 1, by omega⟩
    have hskip : skip_trivia false pos (last ++ []) = (pos + byte_len last, []) :=
      skip_of_gap gap fun c tail h => by cases h
    rw [List.append_nil] at hskip
    rw [lex_from, laid_text, hskip]
    rfl
  | @word gap word last kind words before spelling further ih =>
    obtain ⟨c, tail, rfl, htoken⟩ := takes_token (pos + byte_len gap) spelling hspaced.1
    simp only [laid_text, List.length_append, List.length_cons] at hfuel
    obtain ⟨fuel, rfl⟩ : ∃ n, fuel = n + 1 := ⟨fuel - 1, by omega⟩
    have hstarts : Starts (c :: tail ++ laid_text words last) := by
      intro d further heq
      obtain ⟨rfl, -⟩ := List.cons_eq_cons.mp heq
      obtain ⟨hblank, hslash⟩ := spelling.head
      exact ⟨hblank, fun h => hslash h.1⟩
    rw [lex_from, laid_text, skip_of_gap before hstarts]
    simp only [List.cons_append]
    rw [htoken, results.except_bind_ok]
    simp only
    rw [ih hspaced.2 (by omega)]
    rfl

/-- Words that spell tokens, with blanks and comments around them and a blank behind each, are lexed to these tokens, at
the byte ranges where the words stand. -/
theorem tokenize_spaced {words : List (List Char × TokenKind × List Char)} {last : List Char}
    (hlaid : Laid parse_f64 words last) (hspaced : Spaced words last) :
    tokenize parse_f64 (String.ofList (laid_text words last)) = .ok (laid_tokens 0 words last) := by
  rw [tokenize, String.toList_ofList]
  exact lex_from_spaced hlaid hspaced (Nat.lt_succ_self _)

theorem tokenize_spaced_comparison :
    tokenize (fun _ => none) (String.ofList (laid_text [([], .Ident "a", ['a']), ([' '], .Fixed .Le, ['<', '=']),
      ([' '], .Int 1, ['1'])] [' ', '/', '/', 'b'])) =
      .ok (laid_tokens 0 [([], .Ident "a", ['a']), ([' '], .Fixed .Le, ['<', '=']), ([' '], .Int 1, ['1'])]
        [' ', '/', '/', 'b']) := by
  have hword : Spells (fun _ => none) (.Ident "a") ['a'] := .ident (by decide) (by simp) (by decide)
  have hsign : Spells (fun _ => none) (.Fixed .Le) ['<', '='] := .sign (by decide)
  have hdigits : Digits ['1'] := ⟨by decide, by simp⟩
  have hnumber : Spells (fun _ => none) (.Int 1) ['1'] := .int hdigits (by decide)
  have hcomment : Gap ('/' :: '/' :: (['b'] ++ [])) [] := .comment (by simp) (by simp) .done
  refine tokenize_spaced (.word .done hword (.word (.blank (by decide) .done) hsign
    (.word (.blank (by decide) .done) hnumber (.done (.blank (by decide) hcomment))))) ⟨?_, ?_, ?_, trivial⟩
  · intro c hc
    cases hc
    rfl
  · intro c hc
    cases hc
    rfl
  · intro c hc
    cases hc
    rfl

end lexer

end cgx.cql
