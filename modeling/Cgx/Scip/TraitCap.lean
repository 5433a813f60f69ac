import Cgx.Lib.History
import Cgx.Scip.Scan
import Cgx.Scip.Resolver

open last

namespace cgx.scip

/-! ### The type around a member -/

/-- The descriptors of at most `fuel` steps, each with the text behind it. -/
def consumed_within : Nat → List Char → List (Descriptor × List Char)
  | 0, _ => []
  | fuel + 1, chars =>
    match next_descriptor chars with
    | none => []
    | some (d, rest) => (d, rest) :: consumed_within fuel rest

/-- The descriptors of a tail, each with the text behind it. -/
def consumed (tail : List Char) : List (Descriptor × List Char) :=
  consumed_within tail.length tail

theorem map_fst_consumed (tail : List Char) : (consumed tail).map Prod.fst = parse_descriptors tail := by
  rw [consumed, parse_descriptors]
  generalize tail.length = fuel
  induction fuel generalizing tail with
  | zero => rfl
  | succ fuel ih =>
    rw [consumed_within, descriptors_within]
    cases next_descriptor tail with
    | none => rfl
    | some found => rw [List.map_cons, ih]

def callable (d : Descriptor) : Bool :=
  d.kind = .Method ∨ d.kind = .Term ∨ d.kind = .Macro

def is_type (d : Descriptor) : Bool :=
  d.kind = .Type

/-- The fields of a symbol with a descriptor tail. -/
structure HeaderFields (symbol : String) (scheme manager package version tail : List Char) : Prop where
  split : splitn ' ' 5 symbol.toList = [scheme, manager, package, version, tail]

/-- The final named descriptor of a symbol is a method, a term or a macro. -/
def EndsCallable (symbol : String) : Prop :=
  ∃ scheme manager package version tail before final groups,
    HeaderFields symbol scheme manager package version tail ∧
    parse_descriptors tail = before ++ final :: groups ∧ callable final = true ∧ ∀ d ∈ groups, d.kind = .Dropped

/-- `t` is the part of a symbol up to its last type descriptor in front of its final
method, term or macro. -/
def OwnType (symbol t : String) : Prop :=
  ∃ scheme manager package version tail before type rest between final groups,
    HeaderFields symbol scheme manager package version tail ∧
    consumed tail = before ++ (type, rest) :: (between ++ final :: groups) ∧
    is_type type = true ∧ (∀ d ∈ between, is_type d.1 = false) ∧
    callable final.1 = true ∧ (∀ d ∈ groups, d.1.kind = .Dropped) ∧
    t.toList ++ rest = symbol.toList

/-- `t` is that part with its descriptors written anew: methods without disambiguators, and
no type parameters and parameters. -/
def PlainType (symbol t : String) : Prop :=
  ∃ scheme manager package version tail before type between final groups,
    HeaderFields symbol scheme manager package version tail ∧ package ≠ [] ∧ version ≠ [] ∧
    parse_descriptors tail = before ++ type :: (between ++ final :: groups) ∧
    is_type type = true ∧ (∀ d ∈ between, is_type d = false) ∧
    callable final = true ∧ (∀ d ∈ groups, d.kind = .Dropped) ∧
    t.toList = scheme ++ ' ' :: (manager ++ ' ' :: (package ++ ' ' :: (version ++ ' ' ::
      (before ++ [type]).flatMap render_descriptor)))

/-! ### What the index says of a type -/

/-- An enclosing symbol is recorded for a symbol; the last one counts. -/
def Recorded (scip : ScipResolver) (symbol t : String) : Prop :=
  ∃ info, LastOf (fun info => decide (info.symbol = symbol ∧ info.enclosing_symbol ≠ "")) scip.infos info ∧
    info.enclosing_symbol = t

/-- Some entry of the index gives a symbol the kind of a trait. -/
def SaysTrait (scip : ScipResolver) (t : String) : Prop :=
  ∃ info ∈ scip.infos, info.symbol = t ∧ info.kind = SCIP_KIND_TRAIT

/-- The last entry for a symbol gives it the kind of a trait. -/
def LastSaysTrait (scip : ScipResolver) (t : String) : Prop :=
  ∃ info, LastOf (fun info => decide (info.symbol = t)) scip.infos info ∧ info.kind = SCIP_KIND_TRAIT

/-- The index says that a method, term or macro is a member of a trait. -/
def InTrait (scip : ScipResolver) (symbol : String) : Prop :=
  EndsCallable symbol ∧ ∃ t, (OwnType symbol t ∨ Recorded scip symbol t) ∧ SaysTrait scip t

/-- What it takes for the resolver to see that: a global symbol of a rust-analyzer index,
for which the last entry of its recorded enclosing symbol gives the kind of a trait, or the
last entry of the type around it when that is written without groups. -/
def Seen (scip : ScipResolver) (symbol : String) : Prop :=
  scip.scheme = .RustAnalyzer ∧ is_local symbol = false ∧
    ∃ t, (PlainType symbol t ∨ Recorded scip symbol t) ∧ LastSaysTrait scip t

theorem kind_by_symbol_iff (scip : ScipResolver) (t : String) :
    scip.kind_by_symbol t = some SCIP_KIND_TRAIT ↔ LastSaysTrait scip t := by
  rw [ScipResolver.kind_by_symbol, Option.map_eq_some_iff]
  simp only [find?_reverse_eq_some_iff]
  rfl

theorem enclosing_by_symbol_iff (scip : ScipResolver) (symbol t : String) :
    scip.enclosing_by_symbol symbol = some t ↔ Recorded scip symbol t := by
  rw [ScipResolver.enclosing_by_symbol, Option.map_eq_some_iff]
  simp only [find?_reverse_eq_some_iff]
  rfl

theorem rposition_eq_some_iff {p : Descriptor → Bool} {descriptors : List Descriptor} {i : Nat} :
    rust.rposition p descriptors = some i ↔
      ∃ before d after, descriptors = before ++ d :: after ∧ before.length = i ∧ p d = true ∧
        ∀ x ∈ after, p x = false := by
  rw [rust.rposition, Option.map_eq_some_iff]
  constructor
  · rintro ⟨⟨d, i⟩, hfind, rfl⟩
    obtain ⟨before, after, hsplit⟩ := zipIdx_find?_reverse_iff.mp hfind
    exact ⟨before, d, after, hsplit⟩
  · rintro ⟨before, d, after, hsplit⟩
    exact ⟨(d, i), zipIdx_find?_reverse_iff.mpr ⟨before, after, hsplit⟩, rfl⟩

/-- The last descriptor that satisfies a predicate stands in one place. -/
theorem split_unique {p : Descriptor → Bool} {before after before' after' : List Descriptor} {d d' : Descriptor}
    (h : before ++ d :: after = before' ++ d' :: after') (hd : p d = true) (hafter : ∀ x ∈ after, p x = false)
    (hd' : p d' = true) (hafter' : ∀ x ∈ after', p x = false) : before = before' ∧ d = d' ∧ after = after' := by
  have hplace := rposition_eq_some_iff.mpr ⟨before, d, after, rfl, rfl, hd, hafter⟩
  rw [h, rposition_eq_some_iff.mpr ⟨before', d', after', rfl, rfl, hd', hafter'⟩] at hplace
  obtain ⟨hbefore, hrest⟩ := List.append_inj h (Option.some.inj hplace).symm
  obtain ⟨hsame, hafter⟩ := List.cons.inj hrest
  exact ⟨hbefore, hsame, hafter⟩

theorem not_callable_of_dropped {groups : List Descriptor} (h : ∀ d ∈ groups, d.kind = .Dropped) :
    ∀ d ∈ groups, callable d = false := by
  intro d hd
  simp [callable, h d hd]

theorem HeaderFields.inj {symbol : String} {scheme manager package version tail scheme' manager' package' version' tail' :
    List Char} (h : HeaderFields symbol scheme manager package version tail)
    (h' : HeaderFields symbol scheme' manager' package' version' tail') :
    scheme = scheme' ∧ manager = manager' ∧ package = package' ∧ version = version' ∧ tail = tail' := by
  have heq := h.split.symm.trans h'.split
  simpa using heq

theorem intercalate_fields (scheme manager package version rest : List Char) :
    " ".toList.intercalate [scheme, manager, package, version] ++ [' '] ++ rest =
      scheme ++ ' ' :: (manager ++ ' ' :: (package ++ ' ' :: (version ++ ' ' :: rest))) := by
  simp [List.intercalate]

theorem HeaderFields.tokenize {symbol : String} {scheme manager package version tail : List Char}
    (h : HeaderFields symbol scheme manager package version tail) (hpackage : package ≠ []) (hversion : version ≠ []) :
    rust.tokenize symbol = some (package, version, parse_descriptors tail) := by
  rw [rust.tokenize, h.split]
  dsimp only
  rw [if_neg (not_or.mpr ⟨hpackage, hversion⟩), List.head?_cons, Option.getD_some]

theorem HeaderFields.tokenize_inv {symbol : String} {scheme manager package version tail p v : List Char} {ds : List Descriptor}
    (h : HeaderFields symbol scheme manager package version tail) (htokens : rust.tokenize symbol = some (p, v, ds)) :
    package ≠ [] ∧ version ≠ [] ∧ ds = parse_descriptors tail := by
  rw [rust.tokenize, h.split] at htokens
  dsimp only at htokens
  split at htokens
  · cases htokens
  · rename_i hempty
    cases htokens
    exact ⟨fun hp => hempty (.inl hp), fun hv => hempty (.inr hv), rfl⟩

/-- The text of the type around a member, written anew. -/
def plain_text (scheme manager package version : List Char) (descriptors : List Descriptor) : List Char :=
  scheme ++ ' ' :: (manager ++ ' ' :: (package ++ ' ' :: (version ++ ' ' :: descriptors.flatMap render_descriptor)))

theorem HeaderFields.enclosing_type_symbol {symbol : String} {scheme manager package version tail : List Char}
    (h : HeaderFields symbol scheme manager package version tail) (hpackage : package ≠ []) (hversion : version ≠ [])
    {before between groups : List Descriptor} {type final : Descriptor}
    (hparse : parse_descriptors tail = before ++ type :: (between ++ final :: groups)) (htype : is_type type = true)
    (hbetween : ∀ d ∈ between, is_type d = false) (hfinal : callable final = true)
    (hgroups : ∀ d ∈ groups, d.kind = .Dropped) :
    rust.enclosing_type_symbol symbol =
      some (String.ofList (plain_text scheme manager package version (before ++ [type]))) := by
  have hsplit : parse_descriptors tail = (before ++ type :: between) ++ final :: groups := by
    rw [hparse, List.append_assoc, List.cons_append]
  have hlast : rust.rposition callable (parse_descriptors tail) = some (before ++ type :: between).length :=
    rposition_eq_some_iff.mpr ⟨_, final, groups, hsplit, rfl, hfinal, not_callable_of_dropped hgroups⟩
  have htypes : rust.rposition is_type ((parse_descriptors tail).take (before ++ type :: between).length) =
      some before.length := by
    rw [hsplit, List.take_left]
    exact rposition_eq_some_iff.mpr ⟨before, type, between, rfl, rfl, htype, hbetween⟩
  have hnodes : (parse_descriptors tail).take (before.length + 1) = before ++ [type] := by
    have hlen : (before ++ [type]).length = before.length + 1 := List.length_append
    rw [hparse, List.append_cons, ← hlen, List.take_left]
  simp only [rust.enclosing_type_symbol, Option.bind_eq_bind, Option.bind_eq_some_iff]
  refine ⟨_, h.tokenize hpackage hversion, _, hlast, _, htypes, ?_⟩
  have hfour : ¬ ([scheme, manager, package, version, tail].take 4).length < 4 := Nat.lt_irrefl 4
  rw [h.split, if_neg hfour]
  dsimp only
  rw [hnodes, plain_text, ← intercalate_fields]
  rfl

/-- The type that the resolver looks up for a member is the plainly written one. -/
theorem enclosing_type_symbol_iff {symbol : String} (hends : EndsCallable symbol) (t : String) :
    rust.enclosing_type_symbol symbol = some t ↔ PlainType symbol t := by
  obtain ⟨scheme, manager, package, version, tail, before, final, groups, hfields, hparse, hfinal, hgroups⟩ := hends
  constructor
  · intro h
    have hcopy := h
    simp only [rust.enclosing_type_symbol, Option.bind_eq_bind, Option.bind_eq_some_iff] at hcopy
    obtain ⟨⟨p, v, ds⟩, htokens, last_named, hlast, type_idx, htype, _⟩ := hcopy
    obtain ⟨hpackage, hversion, rfl⟩ := hfields.tokenize_inv htokens
    obtain ⟨before', final', groups', hparse', rfl, hfinal', hgroups'⟩ :=
      (rposition_eq_some_iff (p := callable)).mp hlast
    obtain ⟨rfl, rfl, rfl⟩ := split_unique (hparse.symm.trans hparse') hfinal (not_callable_of_dropped hgroups)
      hfinal' hgroups'
    rw [hparse, List.take_left] at htype
    obtain ⟨front, type, between, rfl, rfl, htype, hbetween⟩ := (rposition_eq_some_iff (p := is_type)).mp htype
    rw [List.append_assoc, List.cons_append] at hparse
    rw [hfields.enclosing_type_symbol hpackage hversion hparse htype hbetween hfinal hgroups, Option.some.injEq] at h
    exact ⟨scheme, manager, package, version, tail, front, type, between, final, groups, hfields, hpackage, hversion,
      hparse, htype, hbetween, hfinal, hgroups, by rw [← h, String.toList_ofList, plain_text]⟩
  · rintro ⟨scheme', manager', package', version', tail', front, type, between, final', groups', hfields', hpackage,
      hversion, hparse', htype, hbetween, hfinal', hgroups', ht⟩
    rw [hfields'.enclosing_type_symbol hpackage hversion hparse' htype hbetween hfinal' hgroups', plain_text, ← ht,
      String.ofList_toList]

/-! ### The cap -/

/-- For a member of a trait the resolver says so exactly when it sees that it is one. -/
theorem classify_iff {scip : ScipResolver} {symbol : String} (hends : EndsCallable symbol) :
    scip.classify symbol = .TraitMember ↔ Seen scip symbol := by
  rw [Seen, ScipResolver.classify]
  cases hscheme : scip.scheme with
  | ScipClang =>
    dsimp only
    rw [cxx.classify]
    split
    · simp
    · simp
  | RustAnalyzer =>
    rw [rust.classify]
    cases hlocal : is_local symbol with
    | true => simp
    | false =>
      have hrecorded : ((scip.enclosing_by_symbol symbol).bind scip.kind_by_symbol) = some SCIP_KIND_TRAIT ↔
          ∃ t, Recorded scip symbol t ∧ LastSaysTrait scip t := by
        simp only [Option.bind_eq_some_iff, enclosing_by_symbol_iff, kind_by_symbol_iff]
      have hplain : ((rust.enclosing_type_symbol symbol).bind scip.kind_by_symbol) = some SCIP_KIND_TRAIT ↔
          ∃ t, PlainType symbol t ∧ LastSaysTrait scip t := by
        simp only [Option.bind_eq_some_iff, enclosing_type_symbol_iff hends, kind_by_symbol_iff]
      simp only [Bool.false_eq_true, ↓reduceIte, true_and, or_and_right, exists_or, ← hrecorded, ← hplain]
      split
      · rename_i h
        simp [h]
      · rename_i h
        split
        · rename_i h'
          simp [h']
        · rename_i h'
          simp [h, h']

/-- The cap of trait members holds for a symbol: where the index says that it is a member
of a trait, the resolver classifies it as one. -/
def Capped (scip : ScipResolver) (symbol : String) : Prop :=
  InTrait scip symbol → scip.classify symbol = .TraitMember

/-- The cap holds for exactly the symbols that the resolver sees to be in a trait if they are. -/
theorem capped_iff (scip : ScipResolver) (symbol : String) :
    Capped scip symbol ↔ (InTrait scip symbol → Seen scip symbol) := by
  constructor
  · intro hcapped hin
    exact (classify_iff hin.1).mp (hcapped hin)
  · intro hseen hin
    exact (classify_iff hin.1).mpr (hseen hin)

/-- An index that lists a trait inside of a type with a type parameter. -/
def inner_trait_index : ScipIndex where
  metadata := ⟨"", "rust-analyzer"⟩
  documents := [⟨"lib.rs", [], [⟨"rust-analyzer cargo p 1.0 Outer#[T]Inner#", SCIP_KIND_TRAIT, "", []⟩]⟩]
  external_symbols := []

/-- The trait is looked up without the type parameter of its symbol, and not found. -/
theorem type_parameter_hides_trait :
    ¬ Capped ⟨inner_trait_index⟩ "rust-analyzer cargo p 1.0 Outer#[T]Inner#f()." := by
  intro hcapped
  have hfields : HeaderFields "rust-analyzer cargo p 1.0 Outer#[T]Inner#f()." "rust-analyzer".toList "cargo".toList
      "p".toList "1.0".toList "Outer#[T]Inner#f().".toList := ⟨by decide +kernel⟩
  have hin : InTrait ⟨inner_trait_index⟩ "rust-analyzer cargo p 1.0 Outer#[T]Inner#f()." := by
    refine ⟨⟨_, _, _, _, _, [⟨"Outer".toList, .Type⟩, ⟨"T".toList, .Dropped⟩, ⟨"Inner".toList, .Type⟩],
      ⟨"f".toList, .Method⟩, [], hfields, by decide +kernel, rfl, by simp⟩,
      "rust-analyzer cargo p 1.0 Outer#[T]Inner#", .inl ?_, _, List.mem_singleton_self _, rfl, rfl⟩
    exact ⟨_, _, _, _, _, [(⟨"Outer".toList, .Type⟩, "[T]Inner#f().".toList), (⟨"T".toList, .Dropped⟩, "Inner#f().".toList)],
      ⟨"Inner".toList, .Type⟩, "f().".toList, [], (⟨"f".toList, .Method⟩, []), [], hfields, by decide +kernel, rfl,
      by simp, rfl, by simp, by decide +kernel⟩
  have hclass : ScipResolver.classify ⟨inner_trait_index⟩ "rust-analyzer cargo p 1.0 Outer#[T]Inner#f()." =
      .FreeOrInherent := by
    decide +kernel
  rw [hcapped hin] at hclass
  cases hclass

end cgx.scip
