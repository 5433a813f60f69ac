import Mathlib.Data.List.Infix
import Cgx.Core.Node
import Cgx.Lib.Utf8

namespace cgx.core

/-- How a `SymbolPattern` is interpreted. -/
inductive PatternKind where
  | Fqn
  | Glob
  | ShortName
deriving DecidableEq, Inhabited

/-- A pattern naming a set of symbols by FQN, by glob over the FQN, or by the
last segment of the FQN. -/
structure SymbolPattern where
  kind : PatternKind
  text : String
deriving DecidableEq, Inhabited

/-- The bytes of a string, in order. -/
def as_bytes (s : String) : List UInt8 :=
  s.toUTF8.data.toList

def STAR : UInt8 := 42
def SLASH : UInt8 := 47
def COLON : UInt8 := 58
def QUESTION : UInt8 := 63

/-- Length in bytes of a segment separator at the head of `bytes`, or `0`. The
separators are the two-byte pair `::` and the single byte `/`. -/
def segment_separator_len : List UInt8 → Nat
  | b :: rest =>
    if b = SLASH then 1
    else if b = COLON ∧ rest.head? = some COLON then 2
    else 0
  | [] => 0

/-- Whether `s` contains any segment separator. -/
def contains_segment_separator (s : String) : Bool :=
  (as_bytes s).tails.any fun bytes => 0 < segment_separator_len bytes

/-- The scan behind `short_name`: `start` is the segment begun last, the argument
the bytes still to scan. -/
def short_name_from (start : List UInt8) : List UInt8 → List UInt8
  | [] => start
  | b :: rest =>
    match segment_separator_len (b :: rest), rest with
    | 0, rest => short_name_from start rest
    | 1, rest => short_name_from rest rest
    | _, [] => start
    | _, _ :: rest => short_name_from rest rest

/-- The last segment of an FQN, where segments are delimited by `::` or `/`. -/
def short_name (fqn : String) : List UInt8 :=
  short_name_from (as_bytes fqn) (as_bytes fqn)

/-- The suffixes of a text that a `*` may leave unconsumed: it stops at the first
segment separator. -/
def segment_tails : List UInt8 → List (List UInt8)
  | [] => [[]]
  | c :: cs => (c :: cs) :: if segment_separator_len (c :: cs) = 0 then segment_tails cs else []

/-- A deterministic glob matcher over the bytes of an FQN: `**` matches any run,
`*` any run within one segment, `?` one byte that is neither `:` nor `/`. -/
def glob_match_at : List UInt8 → List UInt8 → Bool
  | [], text => text.isEmpty
  | [p], text =>
    if p = STAR then (segment_tails text).any (glob_match_at [])
    else
      match text with
      | [] => false
      | c :: cs =>
        if p = QUESTION then (c != COLON && c != SLASH) && glob_match_at [] cs
        else p = c && glob_match_at [] cs
  | p :: q :: rest, text =>
    if p = STAR then
      if q = STAR then text.tails.any (glob_match_at rest)
      else (segment_tails text).any (glob_match_at (q :: rest))
    else
      match text with
      | [] => false
      | c :: cs =>
        if p = QUESTION then (c != COLON && c != SLASH) && glob_match_at (q :: rest) cs
        else p = c && glob_match_at (q :: rest) cs

def glob_match (pattern text : String) : Bool :=
  glob_match_at (as_bytes pattern) (as_bytes text)

/-- Whether a bare FQN matches the pattern. -/
def SymbolPattern.matches_fqn (pat : SymbolPattern) (fqn : String) : Bool :=
  match pat.kind with
  | .Fqn => fqn = pat.text
  | .ShortName => short_name fqn = as_bytes pat.text
  | .Glob => glob_match pat.text fqn

/-- Whether the FQN of `node` matches the pattern. -/
def SymbolPattern.matches_node (pat : SymbolPattern) (node : NodeRecord) : Bool :=
  pat.matches_fqn node.fqn

example : SymbolPattern.matches_fqn ⟨.Glob, "a::*::c?"⟩ "a::bb::cd" = true := by decide

example : SymbolPattern.matches_fqn ⟨.ShortName, "Open"⟩ "example.com/store::Open" = true := by decide

end cgx.core

open utf8

namespace cgx.core

/-- What stands in a glob pattern. -/
inductive Token where
  /-- `**`: any run of characters. -/
  | AnyRun
  /-- `*`: a run without a separator. -/
  | Star
  /-- `?`: a single character. -/
  | One
  /-- Any other character, which stands for itself. -/
  | Lit (c : Char)
deriving DecidableEq

/-- The tokens of a pattern, read from the left. -/
def tokens : List Char → List Token
  | '*' :: '*' :: rest => .AnyRun :: tokens rest
  | '*' :: rest => .Star :: tokens rest
  | '?' :: rest => .One :: tokens rest
  | c :: rest => .Lit c :: tokens rest
  | [] => []

/-- What a character of an FQN is to its segments. -/
inductive Place where
  | Plain
  | Slash
  /-- The first of the two colons of `::`. -/
  | First
  /-- The second of the two colons of `::`. -/
  | Second
deriving DecidableEq

structure Glyph where
  char : Char
  place : Place
deriving DecidableEq

/-- The characters of an FQN with their places. The separators are found from the
left, as `short_name` finds them: of `:::` the first two colons are one. -/
def lay_out : List Char → List Glyph
  | ':' :: ':' :: rest => ⟨':', .First⟩ :: ⟨':', .Second⟩ :: lay_out rest
  | '/' :: rest => ⟨'/', .Slash⟩ :: lay_out rest
  | c :: rest => ⟨c, .Plain⟩ :: lay_out rest
  | [] => []

/-- The runs of characters a token may cover, given what `?` covers. -/
def Spans (single : Glyph → Prop) : Token → List Glyph → Prop
  | .AnyRun, _ => True
  | .Star, run => ∀ g ∈ run, g.place = .Plain
  | .One, run => ∃ g, run = [g] ∧ single g
  | .Lit c, run => ∃ g, run = [g] ∧ g.char = c

/-- The tokens can be laid over the whole text, one run after the other. -/
inductive Covers (single : Glyph → Prop) : List Token → List Glyph → Prop
  | nil : Covers single [] []
  | cons {tok : Token} {toks : List Token} {run rest : List Glyph} :
    Spans single tok run → Covers single toks rest → Covers single (tok :: toks) (run ++ rest)

theorem Covers.split {single : Glyph → Prop} {tok : Token} {toks : List Token} {txt : List Glyph}
    (h : Covers single (tok :: toks) txt) :
    ∃ run rest, txt = run ++ rest ∧ Spans single tok run ∧ Covers single toks rest := by
  cases h with
  | cons hspans hcovers => exact ⟨_, _, rfl, hspans, hcovers⟩

/-- The bytes of a laid out text. -/
def bytes_of (txt : List Glyph) : List UInt8 :=
  encode (txt.map Glyph.char)

@[simp] theorem bytes_of_nil : bytes_of [] = [] := rfl

@[simp] theorem bytes_of_cons (g : Glyph) (txt : List Glyph) :
    bytes_of (g :: txt) = String.utf8EncodeChar g.char ++ bytes_of txt := by
  simp [bytes_of]

theorem map_char_lay_out (chars : List Char) : (lay_out chars).map Glyph.char = chars := by
  fun_induction lay_out chars with
  | case1 rest ih => simp [ih]
  | case2 rest ih => simp [ih]
  | case3 c rest _ _ ih => simp [ih]
  | case4 => rfl

theorem bytes_of_lay_out (chars : List Char) : bytes_of (lay_out chars) = encode chars := by
  rw [bytes_of, map_char_lay_out]

/-- A tail of a laid out text: the scan begins afresh, or one colon of a separator
is still to come. -/
def LaidOut (txt : List Glyph) : Prop :=
  ∃ chars, txt = lay_out chars ∨ txt = ⟨':', .Second⟩ :: lay_out chars

theorem LaidOut.tail {g : Glyph} {txt : List Glyph} (h : LaidOut (g :: txt)) : LaidOut txt := by
  obtain ⟨chars, hfresh | hinside⟩ := h
  · revert hfresh
    fun_cases lay_out chars with
    | case1 rest => exact fun heq => ⟨rest, .inr (List.cons.inj heq).2⟩
    | case2 rest => exact fun heq => ⟨rest, .inl (List.cons.inj heq).2⟩
    | case3 c rest => exact fun heq => ⟨rest, .inl (List.cons.inj heq).2⟩
    | case4 => exact fun heq => nomatch heq
  · exact ⟨chars, .inl (List.cons.inj hinside).2⟩

theorem LaidOut.rest {run rest : List Glyph} (h : LaidOut (run ++ rest)) : LaidOut rest := by
  induction run with
  | nil => exact h
  | cons g run ih => exact ih h.tail

theorem laid_out (chars : List Char) : LaidOut (lay_out chars) :=
  ⟨chars, .inl rfl⟩

/-! ## What the matcher does with a token -/

theorem glob_any_run (rest text : List UInt8) :
    glob_match_at (STAR :: STAR :: rest) text = text.tails.any (glob_match_at rest) := by
  conv_lhs => unfold glob_match_at
  simp

theorem glob_star {rest : List UInt8} (text : List UInt8) (hrest : rest.head? ≠ some STAR) :
    glob_match_at (STAR :: rest) text = (segment_tails text).any (glob_match_at rest) := by
  cases rest with
  | nil =>
    conv_lhs => unfold glob_match_at
    simp
  | cons q rest =>
    have hq : q ≠ STAR := fun heq => hrest (by simp [heq])
    conv_lhs => unfold glob_match_at
    simp [hq]

theorem glob_one (rest text : List UInt8) :
    glob_match_at (QUESTION :: rest) text = true ↔
      ∃ c cs, text = c :: cs ∧ c ≠ COLON ∧ c ≠ SLASH ∧ glob_match_at rest cs = true := by
  have hne : QUESTION ≠ STAR := by decide
  cases rest <;> cases text <;> simp [glob_match_at, hne, and_assoc]

theorem glob_byte {p : UInt8} (rest text : List UInt8) (hstar : p ≠ STAR) (hone : p ≠ QUESTION) :
    glob_match_at (p :: rest) text = true ↔
      ∃ cs, text = p :: cs ∧ glob_match_at rest cs = true := by
  cases rest <;> cases text <;> simp [glob_match_at, hstar, hone] <;> grind

theorem glob_bytes {bytes : List UInt8} (rest text : List UInt8)
    (hbytes : ∀ b ∈ bytes, b ≠ STAR ∧ b ≠ QUESTION) :
    glob_match_at (bytes ++ rest) text = true ↔
      ∃ cs, text = bytes ++ cs ∧ glob_match_at rest cs = true := by
  induction bytes generalizing text with
  | nil => simp
  | cons b bytes ih =>
    have hb := hbytes b List.mem_cons_self
    have htail := fun b hb => hbytes b (List.mem_cons_of_mem _ hb)
    rw [List.cons_append, glob_byte _ _ hb.1 hb.2]
    constructor
    · rintro ⟨cs, rfl, hcs⟩
      obtain ⟨cs', rfl, hmatch⟩ := (ih cs htail).1 hcs
      exact ⟨cs', rfl, hmatch⟩
    · rintro ⟨cs, rfl, hcs⟩
      exact ⟨bytes ++ cs, rfl, (ih _ htail).2 ⟨cs, rfl, hcs⟩⟩

/-- A literal stands for the bytes of its character. -/
theorem glob_lit {c : Char} (rest text : List UInt8) (hstar : c ≠ '*') (hone : c ≠ '?') :
    glob_match_at (String.utf8EncodeChar c ++ rest) text = true ↔
      ∃ cs, text = String.utf8EncodeChar c ++ cs ∧ glob_match_at rest cs = true :=
  glob_bytes rest text fun _ hb =>
    ⟨ne_of_mem_encode hb (by decide) (char_ne hstar), ne_of_mem_encode hb (by decide) (char_ne hone)⟩

/-- A `*` not followed by another is a star for the matcher too. -/
theorem head_encode_ne_star {chars : List Char} (h : ∀ rest, chars ≠ '*' :: rest) :
    (encode chars).head? ≠ some STAR := by
  intro hhead
  obtain ⟨bytes, hbytes⟩ := List.head?_eq_some_iff.1 hhead
  obtain ⟨rest, hrest⟩ := encode_eq_sign_cons (d := '*') (by decide) hbytes
  exact h rest hrest

/-! ## Where a star may end -/

/-- The bytes left by reading whole characters of `txt`, or by stopping inside the
last one read. Those read whole and the broken one all meet `ok`. -/
inductive Left (ok : Glyph → Prop) (txt : List Glyph) : List UInt8 → Prop
  | whole {run rest : List Glyph} : txt = run ++ rest → (∀ g ∈ run, ok g) → Left ok txt (bytes_of rest)
  | inside {run rest : List Glyph} {g : Glyph} {left : List UInt8} :
    txt = run ++ g :: rest → (∀ g' ∈ run, ok g') → ok g → Broken g.char left →
    Left ok txt (left ++ bytes_of rest)

/-- Nothing read. -/
theorem left_self (ok : Glyph → Prop) (txt : List Glyph) : Left ok txt (bytes_of txt) :=
  .whole (List.nil_append txt).symm fun _ hg => absurd hg List.not_mem_nil

theorem Left.cons {ok : Glyph → Prop} {g : Glyph} {txt : List Glyph} {left : List UInt8}
    (hg : ok g) (h : Left ok txt left) : Left ok (g :: txt) left := by
  cases h with
  | whole htxt hrun =>
    exact .whole (by rw [htxt, List.cons_append]) (List.forall_mem_cons.2 ⟨hg, hrun⟩)
  | inside htxt hrun hbreak hleft =>
    exact .inside (by rw [htxt, List.cons_append]) (List.forall_mem_cons.2 ⟨hg, hrun⟩) hbreak hleft

/-- Nothing read, or the first character read in part or as a whole. -/
theorem left_cons_iff {ok : Glyph → Prop} {g : Glyph} {txt : List Glyph} {left : List UInt8}
    (hg : ok g) :
    Left ok (g :: txt) left ↔
      (∃ part, part ≠ [] ∧ part <:+ String.utf8EncodeChar g.char ∧ left = part ++ bytes_of txt) ∨
      Left ok txt left := by
  constructor
  · intro h
    cases h with
    | @whole run rest htxt hrun =>
      cases run with
      | nil =>
        rw [List.nil_append] at htxt
        subst htxt
        exact .inl ⟨_, String.utf8EncodeChar_ne_nil, List.suffix_rfl, bytes_of_cons _ _⟩
      | cons g' run =>
        obtain ⟨rfl, rfl⟩ := List.cons.inj htxt
        exact .inr (.whole rfl (List.forall_mem_cons.1 hrun).2)
    | @inside run rest g' part htxt hrun hbreak hpart =>
      cases run with
      | nil =>
        obtain ⟨rfl, rfl⟩ := List.cons.inj htxt
        exact .inl ⟨part, hpart.1, (suffix_encode_iff hpart.1).2 (.inr hpart), rfl⟩
      | cons g' run =>
        obtain ⟨rfl, rfl⟩ := List.cons.inj htxt
        exact .inr (.inside rfl (List.forall_mem_cons.1 hrun).2 hbreak hpart)
  · rintro (⟨part, hpart, hsuffix, rfl⟩ | h)
    · obtain rfl | hbroken := (suffix_encode_iff hpart).1 hsuffix
      · rw [← bytes_of_cons]
        exact left_self ok _
      · exact .inside (List.nil_append _).symm (fun _ hg' => absurd hg' List.not_mem_nil) hg hbroken
    · exact h.cons hg

theorem left_nil_iff {ok : Glyph → Prop} {left : List UInt8} : Left ok [] left ↔ left = [] := by
  constructor
  · intro h
    cases h with
    | whole htxt hrun =>
      obtain ⟨-, rfl⟩ := List.append_eq_nil_iff.1 htxt.symm
      rfl
    | inside htxt => simp at htxt
  · rintro rfl
    exact left_self ok []

/-- Where the first character may not be read, nothing is. -/
theorem left_cons_iff_of_not {ok : Glyph → Prop} {g : Glyph} {txt : List Glyph} {left : List UInt8}
    (hg : ¬ ok g) : Left ok (g :: txt) left ↔ left = bytes_of (g :: txt) := by
  constructor
  · intro h
    cases h with
    | @whole run rest htxt hrun =>
      cases run with
      | nil => rw [htxt, List.nil_append]
      | cons g' run =>
        obtain ⟨rfl, -⟩ := List.cons.inj htxt
        exact absurd (hrun _ List.mem_cons_self) hg
    | @inside run rest g' part htxt hrun hok hpart =>
      cases run with
      | nil =>
        obtain ⟨rfl, -⟩ := List.cons.inj htxt
        exact absurd hok hg
      | cons g'' run =>
        obtain ⟨rfl, -⟩ := List.cons.inj htxt
        exact absurd (hrun _ List.mem_cons_self) hg
  · rintro rfl
    exact left_self ok _

theorem mem_tails_append {left part rest : List UInt8} :
    left ∈ (part ++ rest).tails ↔
      (∃ some, some ≠ [] ∧ some <:+ part ∧ left = some ++ rest) ∨ left ∈ rest.tails := by
  simp only [List.mem_tails]
  constructor
  · rintro ⟨read, heq⟩
    obtain ⟨cut, rfl, hrest⟩ | ⟨cut, rfl, hleft⟩ := List.append_eq_append_iff.1 heq
    · by_cases hcut : cut = []
      · subst hcut
        exact .inr (by simp [hrest])
      · exact .inl ⟨cut, hcut, ⟨read, rfl⟩, hrest⟩
    · exact .inr ⟨cut, hleft.symm⟩
  · rintro (⟨part', -, ⟨read, rfl⟩, rfl⟩ | ⟨read, rfl⟩)
    · exact ⟨read, by simp⟩
    · exact ⟨part ++ read, by simp⟩

/-- The suffixes of the bytes of a text. -/
theorem mem_tails_bytes_of {txt : List Glyph} {left : List UInt8} :
    left ∈ (bytes_of txt).tails ↔ Left (fun _ => True) txt left := by
  induction txt generalizing left with
  | nil => rw [left_nil_iff, bytes_of_nil, List.mem_tails, List.suffix_nil]
  | cons g txt ih => rw [bytes_of_cons, mem_tails_append, left_cons_iff trivial, ih]

/-- A star runs over bytes of which none begins a separator. -/
theorem mem_segment_tails_append {left part rest : List UInt8}
    (hpart : ∀ read b after, part = read ++ b :: after →
      segment_separator_len (b :: (after ++ rest)) = 0) :
    left ∈ segment_tails (part ++ rest) ↔
      (∃ some, some ≠ [] ∧ some <:+ part ∧ left = some ++ rest) ∨ left ∈ segment_tails rest := by
  induction part with
  | nil => simp
  | cons b part ih =>
    have hzero := hpart [] b part rfl
    have htail := ih fun read b' after heq => hpart (b :: read) b' after (by simp [heq])
    rw [List.cons_append, segment_tails, if_pos hzero, List.mem_cons, htail, or_assoc.symm]
    apply or_congr_left
    simp only [List.suffix_cons_iff]
    constructor
    · rintro (rfl | ⟨part', hne, hsuffix, rfl⟩)
      · exact ⟨b :: part, by simp, .inl rfl, rfl⟩
      · exact ⟨part', hne, .inr hsuffix, rfl⟩
    · rintro ⟨part', hne, rfl | hsuffix, rfl⟩
      · exact .inl rfl
      · exact .inr ⟨part', hne, hsuffix, rfl⟩

theorem separator_len_of_ne {b : UInt8} (rest : List UInt8) (hslash : b ≠ SLASH) (hcolon : b ≠ COLON) :
    segment_separator_len (b :: rest) = 0 := by
  simp [segment_separator_len, hslash, hcolon]

/-- A star stops in front of a separator. -/
theorem mem_segment_tails_separator {bytes left : List UInt8}
    (hlen : segment_separator_len bytes ≠ 0) : left ∈ segment_tails bytes ↔ left = bytes := by
  cases bytes with
  | nil => exact absurd rfl hlen
  | cons b bytes => rw [segment_tails, if_neg hlen, List.mem_singleton]

theorem encode_colon : String.utf8EncodeChar ':' = [COLON] := rfl

theorem encode_slash : String.utf8EncodeChar '/' = [SLASH] := rfl

/-- No separator begins at a plain character. -/
theorem separator_len_plain {c : Char} {rest : List Char} {read after : List UInt8} {b : UInt8}
    (hcolons : ∀ rest', c = ':' → rest = ':' :: rest' → False) (hslash : c ≠ '/')
    (hbytes : String.utf8EncodeChar c = read ++ b :: after) :
    segment_separator_len (b :: (after ++ encode rest)) = 0 := by
  have hb : b ∈ String.utf8EncodeChar c := by simp [hbytes]
  have hbslash : b ≠ SLASH := ne_of_mem_encode hb (by decide) (char_ne hslash)
  by_cases hcolon : c = ':'
  · subst hcolon
    rw [encode_colon] at hbytes
    have hread : read = [] := by
      cases read with
      | nil => rfl
      | cons b' read => simp at hbytes
    subst hread
    obtain ⟨rfl, rfl⟩ := List.cons.inj hbytes
    have hhead : (encode rest).head? ≠ some COLON := by
      intro hhead
      obtain ⟨bytes, hrest⟩ := List.head?_eq_some_iff.1 hhead
      obtain ⟨rest', rfl⟩ := encode_eq_sign_cons (d := ':') (by decide) hrest
      exact hcolons rest' rfl rfl
    simp [segment_separator_len, hbslash, hhead]
  · exact separator_len_of_ne _ hbslash (ne_of_mem_encode hb (by decide) (char_ne hcolon))

/-- Over a text whose scan begins afresh, a star runs over the plain characters up
to the first separator. -/
theorem mem_segment_tails_bytes_of {chars : List Char} {left : List UInt8} :
    left ∈ segment_tails (bytes_of (lay_out chars)) ↔
      Left (fun g => g.place = .Plain) (lay_out chars) left := by
  fun_induction lay_out chars generalizing left with
  | case1 rest ih =>
    rw [left_cons_iff_of_not (by decide)]
    apply mem_segment_tails_separator
    simp [segment_separator_len, encode_colon, COLON, SLASH]
  | case2 rest ih =>
    rw [left_cons_iff_of_not (by decide)]
    apply mem_segment_tails_separator
    simp [segment_separator_len, encode_slash]
  | case3 c rest hcolons hslash ih =>
    have hcons : Left (fun g => g.place = .Plain) (⟨c, .Plain⟩ :: lay_out rest) left ↔ _ := left_cons_iff rfl
    rw [bytes_of_cons, mem_segment_tails_append, ih]
    · exact hcons.symm
    · intro read b after hbytes
      rw [bytes_of_lay_out]
      exact separator_len_plain hcolons hslash hbytes
  | case4 => rw [left_nil_iff, bytes_of_nil, segment_tails, List.mem_singleton]

theorem mem_segment_tails_self (bytes : List UInt8) : bytes ∈ segment_tails bytes := by
  cases bytes <;> simp [segment_tails]

/-- No separator begins inside a character. -/
theorem no_separator_inside {c : Char} {left rest : List UInt8} (h : Broken c left) :
    ∀ read b after, left = read ++ b :: after →
      segment_separator_len (b :: (after ++ rest)) = 0 := by
  rintro read b after rfl
  have hle : 128 ≤ b.toNat := h.le_of_mem (by simp)
  apply separator_len_of_ne
  · rintro rfl
    exact absurd hle (by decide)
  · rintro rfl
    exact absurd hle (by decide)

/-! ## The matcher and the laying of tokens -/

/-- A character a `?` takes: neither a slash nor a colon, also a lone one. -/
def Single (g : Glyph) : Prop :=
  g.char ≠ ':' ∧ g.char ≠ '/'

/-- A token stands where its bytes and its characters agree: a `?` at an ASCII
character, a `*` not between the two colons of a separator. -/
def Fair : Token → List Glyph → Prop
  | .One, txt => ∀ g ∈ txt.head?, g.char.toNat < 128
  | .Star, txt => ∀ g ∈ txt.head?, g.place ≠ .Second
  | _, _ => True

/-- However the tokens in front of a token are laid, it comes to stand at a fair
place. -/
def SlipFree (toks : List Token) (txt : List Glyph) : Prop :=
  ∀ before tok after left right, toks = before ++ tok :: after → txt = left ++ right →
    Covers Single before left → Fair tok right

theorem slip_free_nil (txt : List Glyph) : SlipFree [] txt := by
  intro before tok after left right htoks
  simp at htoks

theorem slip_free_cons_iff {tok : Token} {toks : List Token} {txt : List Glyph} :
    SlipFree (tok :: toks) txt ↔
      Fair tok txt ∧ ∀ run rest, txt = run ++ rest → Spans Single tok run → SlipFree toks rest := by
  constructor
  · intro hfree
    refine ⟨hfree [] tok toks [] txt rfl rfl .nil, ?_⟩
    intro run rest htxt hspans before tok' after left right htoks hrest hcovers
    exact hfree (tok :: before) tok' after (run ++ left) right (by simp [htoks])
      (by simp [htxt, hrest]) (.cons hspans hcovers)
  · rintro ⟨hfair, hrest⟩ before tok' after left right htoks htxt hcovers
    cases hcovers with
    | nil =>
      obtain ⟨rfl, rfl⟩ := List.cons.inj htoks
      obtain rfl : txt = right := htxt
      exact hfair
    | cons hspans hcovers =>
      obtain ⟨rfl, rfl⟩ := List.cons.inj htoks
      rw [List.append_assoc] at htxt
      exact hrest _ _ htxt hspans _ _ _ _ _ rfl rfl hcovers

theorem slip_free_lit_iff {c : Char} {toks : List Token} {g : Glyph} {txt : List Glyph} :
    SlipFree (.Lit c :: toks) (g :: txt) ↔ (g.char = c → SlipFree toks txt) := by
  rw [slip_free_cons_iff]
  constructor
  · rintro ⟨-, hrest⟩ hg
    exact hrest [g] txt rfl ⟨g, rfl, hg⟩
  · intro htail
    refine ⟨trivial, ?_⟩
    rintro run rest htxt ⟨g', rfl, hg'⟩
    obtain ⟨rfl, rfl⟩ := List.cons.inj htxt
    exact htail hg'

/-- A `?` covers a byte of an ASCII character. -/
theorem single_byte_iff {g : Glyph} (hascii : g.char.toNat < 128) :
    Single g ↔ UInt8.ofNat g.char.toNat ≠ COLON ∧ UInt8.ofNat g.char.toNat ≠ SLASH := by
  have sign : ∀ d : Char, d.toNat < 128 →
      (UInt8.ofNat g.char.toNat = UInt8.ofNat d.toNat ↔ g.char = d) := by
    intro d hd
    constructor
    · intro heq
      have hnat := congrArg UInt8.toNat heq
      rw [UInt8.toNat_ofNat', UInt8.toNat_ofNat'] at hnat
      exact Char.toNat_inj.1 (by omega)
    · rintro rfl
      rfl
  exact and_congr (not_congr (sign ':' (by decide)).symm) (not_congr (sign '/' (by decide)).symm)

/-- A pattern that matches from inside a character matches from behind it too: only
a star can take bytes from inside, and a star can take the whole character. -/
theorem glob_match_inside {pattern : List Char} {g : Glyph} {txt : List Glyph} {left : List UInt8}
    (hbroken : Broken g.char left) (hfree : SlipFree (tokens pattern) (g :: txt))
    (hmatch : glob_match_at (encode pattern) (left ++ bytes_of txt) = true) :
    glob_match_at (encode pattern) (bytes_of txt) = true := by
  fun_induction tokens pattern generalizing left with
  | case1 rest ih =>
    have hencode : encode ('*' :: '*' :: rest) = STAR :: STAR :: encode rest := rfl
    rw [hencode, glob_any_run, List.any_eq_true] at hmatch ⊢
    obtain ⟨tail, htail, hrest⟩ := hmatch
    rw [mem_tails_append] at htail
    obtain ⟨part, hpart, ⟨read, rfl⟩, rfl⟩ | htail := htail
    · refine ⟨bytes_of txt, by simp, ?_⟩
      exact ih (hbroken.suffix hpart) ((slip_free_cons_iff.1 hfree).2 [] _ rfl trivial) hrest
    · exact ⟨tail, htail, hrest⟩
  | case2 rest hstar ih =>
    have hhead := head_encode_ne_star hstar
    have hencode : encode ('*' :: rest) = STAR :: encode rest := rfl
    rw [hencode, glob_star _ hhead, List.any_eq_true] at hmatch ⊢
    obtain ⟨tail, htail, hrest⟩ := hmatch
    rw [mem_segment_tails_append (no_separator_inside hbroken)] at htail
    obtain ⟨part, hpart, ⟨read, rfl⟩, rfl⟩ | htail := htail
    · refine ⟨bytes_of txt, mem_segment_tails_self _, ?_⟩
      have hempty : Spans Single .Star [] := fun g hg => by cases hg
      exact ih (hbroken.suffix hpart) ((slip_free_cons_iff.1 hfree).2 [] _ rfl hempty) hrest
    · exact ⟨tail, htail, hrest⟩
  | case3 rest ih =>
    have hfair := (slip_free_cons_iff.1 hfree).1 g rfl
    have hwide := hbroken.wide
    omega
  | case4 c rest hrun hstar hone ih =>
    rw [encode_cons, glob_lit _ _ hstar hone] at hmatch
    obtain ⟨cs, hheads, -⟩ := hmatch
    exact absurd hheads hbroken.ne_encode_append
  | case5 =>
    cases left with
    | nil => exact absurd rfl hbroken.1
    | cons b left => simp [glob_match_at] at hmatch

/-- A token that takes any run of `ok` characters, laid where the matcher stopped. -/
theorem covers_of_left {ok : Glyph → Prop} {tok : Token} {pattern : List Char} {txt : List Glyph}
    {left : List UInt8} (hspans : ∀ run, (∀ g ∈ run, ok g) → Spans Single tok run)
    (hlaid : LaidOut txt) (hfree : SlipFree (tok :: tokens pattern) txt) (hleft : Left ok txt left)
    (hmatch : glob_match_at (encode pattern) left = true)
    (covers : ∀ txt, LaidOut txt → SlipFree (tokens pattern) txt →
      glob_match_at (encode pattern) (bytes_of txt) = true → Covers Single (tokens pattern) txt) :
    Covers Single (tok :: tokens pattern) txt := by
  have hrest := (slip_free_cons_iff.1 hfree).2
  cases hleft with
  | @whole run rest htxt hrun =>
    subst htxt
    exact .cons (hspans run hrun) (covers rest hlaid.rest (hrest run rest rfl (hspans run hrun)) hmatch)
  | @inside run rest g part htxt hrun hg hbroken =>
    have hread : ∀ g' ∈ run ++ [g], ok g' := by
      intro g' hg'
      obtain hg' | hg' := List.mem_append.1 hg'
      · exact hrun g' hg'
      · rwa [List.mem_singleton.1 hg']
    have hsplit : txt = (run ++ [g]) ++ rest := by simp [htxt]
    have hbehind := glob_match_inside hbroken (hrest run _ htxt (hspans run hrun)) hmatch
    have hfree' := hrest _ _ hsplit (hspans _ hread)
    subst hsplit
    exact .cons (hspans _ hread) (covers rest hlaid.rest hfree' hbehind)

theorem covers_of_glob_match {pattern : List Char} {txt : List Glyph} (hlaid : LaidOut txt)
    (hfree : SlipFree (tokens pattern) txt)
    (hmatch : glob_match_at (encode pattern) (bytes_of txt) = true) :
    Covers Single (tokens pattern) txt := by
  fun_induction tokens pattern generalizing txt with
  | case1 rest ih =>
    have hencode : encode ('*' :: '*' :: rest) = STAR :: STAR :: encode rest := rfl
    rw [hencode, glob_any_run, List.any_eq_true] at hmatch
    obtain ⟨left, hleft, hrest⟩ := hmatch
    exact covers_of_left (fun _ _ => trivial) hlaid hfree (mem_tails_bytes_of.1 hleft) hrest
      fun _ => ih
  | case2 rest hstar ih =>
    have hencode : encode ('*' :: rest) = STAR :: encode rest := rfl
    rw [hencode, glob_star _ (head_encode_ne_star hstar), List.any_eq_true] at hmatch
    obtain ⟨left, hleft, hrest⟩ := hmatch
    have hfair := (slip_free_cons_iff.1 hfree).1
    obtain ⟨chars, rfl | rfl⟩ := hlaid
    · exact covers_of_left (fun _ hrun => hrun) (laid_out chars) hfree
        (mem_segment_tails_bytes_of.1 hleft) hrest fun _ => ih
    · exact absurd rfl (hfair _ rfl)
  | case3 rest ih =>
    have hencode : encode ('?' :: rest) = QUESTION :: encode rest := rfl
    rw [hencode, glob_one] at hmatch
    obtain ⟨b, bytes, htxt, hcolon, hslash, hrest⟩ := hmatch
    cases txt with
    | nil => cases htxt
    | cons g txt =>
      obtain ⟨hfair, hfree⟩ := slip_free_cons_iff.1 hfree
      have hascii : g.char.toNat < 128 := hfair g rfl
      rw [bytes_of_cons, encode_ascii hascii, List.singleton_append] at htxt
      obtain ⟨rfl, rfl⟩ := List.cons.inj htxt
      have hspans : Spans Single .One [g] := ⟨g, rfl, (single_byte_iff hascii).2 ⟨hcolon, hslash⟩⟩
      exact .cons hspans (ih hlaid.tail (hfree [g] txt rfl hspans) hrest)
  | case4 c rest _ hstar hone ih =>
    rw [encode_cons, glob_lit _ _ hstar hone] at hmatch
    obtain ⟨bytes, htxt, hrest⟩ := hmatch
    cases txt with
    | nil =>
      have hnil := List.append_eq_nil_iff.1 htxt.symm
      exact absurd hnil.1 String.utf8EncodeChar_ne_nil
    | cons g txt =>
      rw [bytes_of_cons] at htxt
      obtain ⟨hchar, rfl⟩ := encode_append_inj htxt
      have hspans : Spans Single (.Lit c) [g] := ⟨g, rfl, hchar⟩
      exact .cons hspans (ih hlaid.tail (slip_free_lit_iff.1 hfree hchar) hrest)
  | case5 =>
    cases txt with
    | nil => exact .nil
    | cons g txt =>
      obtain ⟨b, bytes, hchar⟩ :=
        List.exists_cons_of_ne_nil (String.utf8EncodeChar_ne_nil (c := g.char))
      simp [glob_match_at, hchar] at hmatch

/-- A laying whose single characters are ASCII is found, whatever else the text
holds. -/
theorem glob_match_of_covers {pattern : List Char} {txt : List Glyph} (hlaid : LaidOut txt)
    (hcovers : Covers (fun g => g.char.toNat < 128 ∧ Single g) (tokens pattern) txt) :
    glob_match_at (encode pattern) (bytes_of txt) = true := by
  fun_induction tokens pattern generalizing txt with
  | case1 rest ih =>
    obtain ⟨run, txt, rfl, -, htail⟩ := hcovers.split
    have hencode : encode ('*' :: '*' :: rest) = STAR :: STAR :: encode rest := rfl
    rw [hencode, glob_any_run, List.any_eq_true]
    have hleft : Left (fun _ => True) (run ++ txt) (bytes_of txt) := .whole rfl fun _ _ => trivial
    exact ⟨_, mem_tails_bytes_of.2 hleft, ih hlaid.rest htail⟩
  | case2 rest hstar ih =>
    obtain ⟨run, txt, rfl, hplain, htail⟩ := hcovers.split
    have hencode : encode ('*' :: rest) = STAR :: encode rest := rfl
    rw [hencode, glob_star _ (head_encode_ne_star hstar), List.any_eq_true]
    refine ⟨_, ?_, ih hlaid.rest htail⟩
    obtain ⟨chars, hfresh | hinside⟩ := hlaid
    · rw [hfresh]
      exact mem_segment_tails_bytes_of.2 (.whole hfresh.symm hplain)
    · cases run with
      | nil => exact mem_segment_tails_self _
      | cons g run =>
        obtain ⟨rfl, -⟩ := List.cons.inj hinside
        exact absurd (hplain _ List.mem_cons_self) (by decide)
  | case3 rest ih =>
    obtain ⟨run, txt, rfl, ⟨g, rfl, hascii, hsingle⟩, htail⟩ := hcovers.split
    have hencode : encode ('?' :: rest) = QUESTION :: encode rest := rfl
    rw [hencode, glob_one, List.singleton_append, bytes_of_cons, encode_ascii hascii]
    obtain ⟨hcolon, hslash⟩ := (single_byte_iff hascii).1 hsingle
    exact ⟨_, _, rfl, hcolon, hslash, ih hlaid.tail htail⟩
  | case4 c rest _ hstar hone ih =>
    obtain ⟨run, txt, rfl, ⟨g, rfl, rfl⟩, htail⟩ := hcovers.split
    rw [encode_cons, glob_lit _ _ hstar hone, List.singleton_append, bytes_of_cons]
    exact ⟨_, rfl, ih hlaid.tail htail⟩
  | case5 =>
    cases hcovers
    rfl

/-- Where no slip is possible, a `?` is laid on ASCII characters only. -/
theorem Covers.ascii {toks : List Token} {txt : List Glyph} (hcovers : Covers Single toks txt)
    (hfree : SlipFree toks txt) : Covers (fun g => g.char.toNat < 128 ∧ Single g) toks txt := by
  induction hcovers with
  | nil => exact .nil
  | @cons tok toks run rest hspans _ ih =>
    obtain ⟨hfair, hrest⟩ := slip_free_cons_iff.1 hfree
    refine .cons ?_ (ih (hrest run rest rfl hspans))
    cases tok with
    | AnyRun => trivial
    | Star => exact hspans
    | One =>
      obtain ⟨g, rfl, hsingle⟩ := hspans
      exact ⟨g, rfl, hfair g rfl, hsingle⟩
    | Lit c => exact hspans

/-- Glob patterns mean what they say: away from the places where bytes and characters
part, a pattern matches exactly the FQNs its tokens can be laid over. -/
theorem glob_match_iff_covers (pattern fqn : String)
    (hfree : SlipFree (tokens pattern.toList) (lay_out fqn.toList)) :
    glob_match pattern fqn = true ↔
      Covers Single (tokens pattern.toList) (lay_out fqn.toList) := by
  have hpattern : as_bytes pattern = encode pattern.toList := toUTF8_eq_encode pattern
  have hfqn : as_bytes fqn = bytes_of (lay_out fqn.toList) := by
    rw [bytes_of_lay_out]
    exact toUTF8_eq_encode fqn
  rw [glob_match, hpattern, hfqn]
  constructor
  · exact covers_of_glob_match (laid_out _) hfree
  · exact fun hcovers => glob_match_of_covers (laid_out _) (hcovers.ascii hfree)

theorem glob_match_iff_covers_segments :
    glob_match "a::*::c?" "a::bb::cd" = true ↔
      Covers Single (tokens "a::*::c?".toList) (lay_out "a::bb::cd".toList) := by
  apply glob_match_iff_covers
  have htoks : tokens "a::*::c?".toList =
      [.Lit 'a', .Lit ':', .Lit ':', .Star, .Lit ':', .Lit ':', .Lit 'c', .One] := by decide
  have htxt : lay_out "a::bb::cd".toList =
      [⟨'a', .Plain⟩, ⟨':', .First⟩, ⟨':', .Second⟩, ⟨'b', .Plain⟩, ⟨'b', .Plain⟩,
        ⟨':', .First⟩, ⟨':', .Second⟩, ⟨'c', .Plain⟩, ⟨'d', .Plain⟩] := by decide
  rw [htoks, htxt]
  simp only [slip_free_lit_iff, forall_const]
  rw [slip_free_cons_iff]
  refine ⟨by simp [Fair], ?_⟩
  intro run rest hsplit hplain
  obtain ⟨rfl, rfl⟩ | ⟨run, rfl, hsplit₁⟩ := List.cons_eq_append_iff.1 hsplit
  · exact slip_free_lit_iff.2 fun hcolon => absurd hcolon (by decide)
  obtain ⟨rfl, rfl⟩ | ⟨run, rfl, hsplit₂⟩ := List.cons_eq_append_iff.1 hsplit₁
  · exact slip_free_lit_iff.2 fun hcolon => absurd hcolon (by decide)
  obtain ⟨rfl, rfl⟩ | ⟨run, rfl, -⟩ := List.cons_eq_append_iff.1 hsplit₂
  · simp only [slip_free_lit_iff, forall_const]
    rw [slip_free_cons_iff]
    exact ⟨by simp [Fair], fun _ _ _ _ => slip_free_nil _⟩
  · exact absurd (hplain ⟨':', .First⟩ (by simp)) (by decide)

/-- A `?` does not take a lone colon, which is no part of a separator. -/
theorem glob_match_refuses_a_lone_colon :
    ¬ ∀ pattern fqn : String, glob_match pattern fqn = true ↔
      Covers (fun g => g.place = .Plain) (tokens pattern.toList) (lay_out fqn.toList) := by
  intro hmeans
  have hone : Spans (fun g => g.place = .Plain) .One [⟨':', .Plain⟩] := ⟨_, rfl, rfl⟩
  have hlit : ∀ c, Spans (fun g => g.place = .Plain) (.Lit c) [⟨c, .Plain⟩] := fun c => ⟨_, rfl, rfl⟩
  have hcovers : Covers (fun g => g.place = .Plain) (tokens "a?b".toList) (lay_out "a:b".toList) :=
    .cons (hlit 'a') (.cons hone (.cons (hlit 'b') .nil))
  have hmatch : glob_match "a?b" "a:b" = false := by decide
  rw [(hmeans "a?b" "a:b").2 hcovers] at hmatch
  cases hmatch

end cgx.core
