import Cgx.Scip.Grammar

namespace cgx.scip

/-! ### The scanner by index -/

namespace scan

/-- The characters from `start` up to `stop`; `none` where slicing would panic. -/
def slice (chars : List Char) (start stop : Nat) : Option (List Char) :=
  if start ≤ stop ∧ stop ≤ chars.length then some ((chars.drop start).take (stop - start)) else none

def find_close (chars : List Char) (open_idx : Nat) (opening closing : Char) : Option (Option Nat) := do
  let tail ← slice chars open_idx chars.length
  some ((scip.find_close opening closing tail).map fun offset => open_idx + offset)

/-- A group at `i` that is dropped. -/
def dropped (chars : List Char) (i : Nat) (opening closing : Char) : Option (Option (Descriptor × Nat)) := do
  match ← find_close chars i opening closing with
  | none => some none
  | some close =>
    let name ← slice chars (i + 1) close
    some (some (⟨name, .Dropped⟩, close + 1))

/-- A method whose disambiguator opens at `i`. -/
def method (chars : List Char) (name : List Char) (i : Nat) : Option (Option (Descriptor × Nat)) := do
  match ← find_close chars i '(' ')' with
  | none => some none
  | some close =>
    let after := close + 1
    some (some (⟨name, .Method⟩, if after < chars.length ∧ chars[after]? = some '.' then after + 1 else after))

/-- Where the name that starts at `i` ends. -/
def name_end (chars : List Char) (i : Nat) : Nat :=
  i + ((chars.drop i).takeWhile fun c => !is_sigil c).length

/-- What a name that ends at `stop` becomes by the sigil there. -/
def after_name (chars : List Char) (name : List Char) (stop : Nat) : Option (Option (Descriptor × Nat)) := do
  if chars.length ≤ stop then some (if name = [] then none else some (⟨name, .Term⟩, chars.length))
  else
    match ← chars[stop]? with
    | '/' => some (some (⟨name, .Namespace⟩, stop + 1))
    | '#' => some (some (⟨name, .Type⟩, stop + 1))
    | '!' => some (some (⟨name, .Macro⟩, stop + 1))
    | '(' => method chars name stop
    | '.' => some (some (⟨name, .Term⟩, stop + 1))
    -- Unreachable: the name ended at a sigil.
    | _ => none

/-- One round of the loop at `i`: the descriptor and where to go on, or nothing where the
loop breaks. `none` is a panic. -/
def round (chars : List Char) (i : Nat) : Option (Option (Descriptor × Nat)) := do
  match ← chars[i]? with
  | '[' => dropped chars i '[' ']'
  | '(' => dropped chars i '(' ')'
  | _ =>
    let stop := name_end chars i
    let name ← slice chars i stop
    after_name chars name stop

/-- The loop from `i`; `none` when a round panics or the rounds run out. -/
def rounds (chars : List Char) : Nat → Nat → Option (List Descriptor)
  | 0, _ => none
  | fuel + 1, i =>
    if i < chars.length then do
      match ← round chars i with
      | none => some []
      | some (d, i) =>
        let descriptors ← rounds chars fuel i
        some (d :: descriptors)
    else some []

def parse_descriptors (chars : List Char) : Option (List Descriptor) :=
  rounds chars (chars.length + 1) 0

end scan

theorem slice_eq_some {chars : List Char} {start stop : Nat} (hle : start ≤ stop) (hstop : stop ≤ chars.length) :
    scan.slice chars start stop = some ((chars.drop start).take (stop - start)) :=
  if_pos ⟨hle, hstop⟩

theorem scan_find_close {chars : List Char} {i : Nat} (hi : i ≤ chars.length) (opening closing : Char) :
    scan.find_close chars i opening closing =
      some ((find_close opening closing (chars.drop i)).map fun offset => i + offset) := by
  rw [scan.find_close, slice_eq_some hi (Nat.le_refl _), List.take_of_length_le (Nat.le_of_eq List.length_drop)]
  rfl

theorem find_close_go_lt {opening closing : Char} {depth : Int32} {offset close : Nat} {chars : List Char}
    (h : find_close.go opening closing depth offset chars = some close) :
    offset ≤ close ∧ close < offset + chars.length := by
  induction chars generalizing depth offset with
  | nil => cases h
  | cons c chars ih =>
    rw [find_close.go] at h
    rw [List.length_cons]
    split at h
    · have := ih h
      omega
    · split at h
      · split at h
        · cases h
          omega
        · have := ih h
          omega
      · have := ih h
        omega

/-- A group is closed behind where it is opened. -/
theorem find_close_lt {opening closing : Char} {close : Nat} {inner : List Char}
    (h : find_close opening closing (opening :: inner) = some close) : 0 < close ∧ close ≤ inner.length := by
  rw [find_close, find_close.go, if_pos rfl] at h
  have := find_close_go_lt h
  omega

theorem lt_of_drop_eq_cons {chars inner : List Char} {c : Char} {i : Nat} (h : chars.drop i = c :: inner) :
    i < chars.length ∧ chars.length - i = inner.length + 1 := by
  have hlen := congrArg List.length h
  rw [List.length_drop, List.length_cons] at hlen
  omega

/-- A dropped group is what `next_descriptor` makes of it. -/
theorem dropped_agrees {chars inner : List Char} {i : Nat} {opening : Char} (closing : Char)
    (hinner : chars.drop i = opening :: inner) :
    ∃ found, scan.dropped chars i opening closing = some found ∧
      found.map (fun f => (f.1, chars.drop f.2)) =
        (find_close opening closing (opening :: inner)).map fun close =>
          (⟨inner.take (close - 1), .Dropped⟩, (opening :: inner).drop (close + 1)) := by
  obtain ⟨hi, hlen⟩ := lt_of_drop_eq_cons hinner
  have hscan := scan_find_close (Nat.le_of_lt hi) opening closing
  rw [hinner] at hscan
  cases hclose : find_close opening closing (opening :: inner) with
  | none =>
    rw [hclose] at hscan
    refine ⟨none, ?_, rfl⟩
    simp only [scan.dropped, hscan, Option.map_none, Option.bind_eq_bind, Option.bind_some]
  | some close =>
    obtain ⟨hpos, hle⟩ := find_close_lt hclose
    rw [hclose] at hscan
    have htail : chars.drop (i + 1) = inner := by rw [← List.drop_drop, hinner, List.drop_one, List.tail_cons]
    have hslice : scan.slice chars (i + 1) (i + close) = some (inner.take (close - 1)) := by
      rw [slice_eq_some (by omega) (by omega), htail, Nat.add_sub_add_left]
    refine ⟨some (⟨inner.take (close - 1), .Dropped⟩, i + close + 1), ?_, ?_⟩
    · simp only [scan.dropped, hscan, hslice, Option.map_some, Option.bind_eq_bind, Option.bind_some]
    · rw [Option.map_some, Option.map_some, Nat.add_assoc, ← List.drop_drop, hinner]

/-- So is a method. -/
theorem method_agrees {chars rest : List Char} {i : Nat} (name : List Char) (hrest : chars.drop i = '(' :: rest) :
    ∃ found, scan.method chars name i = some found ∧
      found.map (fun f => (f.1, chars.drop f.2)) = after_name name ('(' :: rest) := by
  obtain ⟨hi, hlen⟩ := lt_of_drop_eq_cons hrest
  have hscan := scan_find_close (Nat.le_of_lt hi) '(' ')'
  rw [hrest] at hscan
  rw [after_name]
  cases hclose : find_close '(' ')' ('(' :: rest) with
  | none =>
    rw [hclose] at hscan
    refine ⟨none, ?_, rfl⟩
    simp only [scan.method, hscan, Option.map_none, Option.bind_eq_bind, Option.bind_some]
  | some close =>
    rw [hclose] at hscan
    have hafter : chars.drop (i + close + 1) = rest.drop close := by
      rw [Nat.add_assoc, ← List.drop_drop, hrest, List.drop_succ_cons]
    have hhead : (rest.drop close).head? = chars[i + close + 1]? := by
      rw [← hafter, List.head?_drop]
    refine ⟨some (⟨name, .Method⟩, if i + close + 1 < chars.length ∧ chars[i + close + 1]? = some '.' then
      i + close + 1 + 1 else i + close + 1), ?_, ?_⟩
    · simp only [scan.method, hscan, Option.map_some, Option.bind_eq_bind, Option.bind_some]
    · dsimp only [Option.map_some]
      rw [hhead]
      by_cases hdot : chars[i + close + 1]? = some '.'
      · obtain ⟨hlt, _⟩ := List.getElem?_eq_some_iff.mp hdot
        rw [if_pos ⟨hlt, hdot⟩, if_pos hdot, ← List.drop_drop, hafter, List.drop_one]
      · rw [if_neg fun h => hdot h.2, if_neg hdot, hafter]

theorem take_length_takeWhile {γ : Type} (p : γ → Bool) (l : List γ) : l.take (l.takeWhile p).length = l.takeWhile p :=
  calc l.take (l.takeWhile p).length
      = (l.takeWhile p ++ l.dropWhile p).take (l.takeWhile p).length := by rw [List.takeWhile_append_dropWhile]
    _ = l.takeWhile p := List.take_left

theorem drop_length_takeWhile {γ : Type} (p : γ → Bool) (l : List γ) : l.drop (l.takeWhile p).length = l.dropWhile p :=
  calc l.drop (l.takeWhile p).length
      = (l.takeWhile p ++ l.dropWhile p).drop (l.takeWhile p).length := by rw [List.takeWhile_append_dropWhile]
    _ = l.dropWhile p := List.drop_left

/-- What stands behind the name that starts at `i`. -/
theorem drop_name_end (chars : List Char) (i : Nat) :
    chars.drop (scan.name_end chars i) = (chars.drop i).dropWhile fun c => !is_sigil c := by
  rw [scan.name_end, ← List.drop_drop, drop_length_takeWhile]

theorem name_end_le {chars : List Char} {i : Nat} (hi : i ≤ chars.length) : scan.name_end chars i ≤ chars.length := by
  have hle := (List.takeWhile_prefix (fun c => !is_sigil c) (l := chars.drop i)).length_le
  rw [List.length_drop] at hle
  rw [scan.name_end]
  omega

theorem slice_name {chars : List Char} {i : Nat} (hi : i ≤ chars.length) :
    scan.slice chars i (scan.name_end chars i) = some ((chars.drop i).takeWhile fun c => !is_sigil c) := by
  have hstart : i ≤ scan.name_end chars i := Nat.le_add_right _ _
  rw [slice_eq_some hstart (name_end_le hi), scan.name_end, Nat.add_sub_cancel_left, take_length_takeWhile]

/-- A name that ends at a sigil or with the text is what `next_descriptor` makes of it. -/
theorem after_name_agrees {chars : List Char} {stop : Nat} (name : List Char)
    (hsigil : ∀ c, chars[stop]? = some c → is_sigil c = true) :
    ∃ found, scan.after_name chars name stop = some found ∧
      found.map (fun f => (f.1, chars.drop f.2)) = after_name name (chars.drop stop) := by
  rw [scan.after_name]
  split
  · rename_i hend
    refine ⟨_, rfl, ?_⟩
    rw [List.drop_eq_nil_of_le hend, after_name]
    split
    · rfl
    · rw [Option.map_some, List.drop_length]
  · rename_i hlt
    have hlt : stop < chars.length := Nat.lt_of_not_le hlt
    obtain ⟨c, hc⟩ : ∃ c, chars[stop]? = some c := ⟨_, List.getElem?_eq_getElem hlt⟩
    obtain ⟨rest, hrest⟩ := List.head?_eq_some_iff.mp ((List.head?_drop (l := chars)).trans hc)
    have hnext : chars.drop (stop + 1) = rest := by rw [← List.drop_drop, hrest, List.drop_one, List.tail_cons]
    have hcases : c = '/' ∨ c = '#' ∨ c = '.' ∨ c = '!' ∨ c = '(' := of_decide_eq_true (hsigil c hc)
    rw [hc, hrest, Option.bind_eq_bind, Option.bind_some]
    obtain rfl | rfl | rfl | rfl | rfl := hcases
    · exact ⟨_, rfl, by rw [Option.map_some, hnext]; rfl⟩
    · exact ⟨_, rfl, by rw [Option.map_some, hnext]; rfl⟩
    · exact ⟨_, rfl, by rw [Option.map_some, hnext]; rfl⟩
    · exact ⟨_, rfl, by rw [Option.map_some, hnext]; rfl⟩
    · exact method_agrees name hrest

/-- A name ends at a sigil. -/
theorem sigil_at_name_end {chars : List Char} {i : Nat} {c : Char} (h : chars[scan.name_end chars i]? = some c) :
    is_sigil c = true := by
  rw [← List.head?_drop, drop_name_end] at h
  have hnot := List.head?_dropWhile_not (fun c => !is_sigil c) (chars.drop i)
  rw [h] at hnot
  simpa using hnot

/-- A round never panics, and it finds what `next_descriptor` does. -/
theorem round_agrees {chars : List Char} {i : Nat} (hi : i < chars.length) :
    ∃ found, scan.round chars i = some found ∧
      found.map (fun f => (f.1, chars.drop f.2)) = next_descriptor (chars.drop i) := by
  obtain ⟨c, hc⟩ : ∃ c, chars[i]? = some c := ⟨_, List.getElem?_eq_getElem hi⟩
  have hhead : (chars.drop i).head? = some c := by rw [List.head?_drop, hc]
  obtain ⟨inner, hinner⟩ := List.head?_eq_some_iff.mp hhead
  by_cases hbracket : c = '['
  · subst hbracket
    obtain ⟨found, hfound, heq⟩ := dropped_agrees ']' hinner
    refine ⟨found, ?_, ?_⟩
    · simp only [scan.round, hc, Option.bind_eq_bind, Option.bind_some]
      exact hfound
    · rw [heq, hinner]
      rfl
  · by_cases hparen : c = '('
    · subst hparen
      obtain ⟨found, hfound, heq⟩ := dropped_agrees ')' hinner
      refine ⟨found, ?_, ?_⟩
      · simp only [scan.round, hc, Option.bind_eq_bind, Option.bind_some]
        exact hfound
      · rw [heq, hinner]
        rfl
    · obtain ⟨found, hfound, heq⟩ := after_name_agrees ((chars.drop i).takeWhile fun c => !is_sigil c)
        fun d hd => sigil_at_name_end hd
      refine ⟨found, ?_, ?_⟩
      · simp only [scan.round, hc, Option.bind_eq_bind, Option.bind_some, slice_name (Nat.le_of_lt hi)]
        exact hfound
      · rw [heq, drop_name_end, next_descriptor_other]
        · rw [hhead]
          exact fun heq => hbracket (Option.some.inj heq)
        · rw [hhead]
          exact fun heq => hparen (Option.some.inj heq)

/-- The scanner ends without a panic, with the descriptors of the text. -/
theorem scan_eq (chars : List Char) : scan.parse_descriptors chars = some (parse_descriptors chars) := by
  suffices hrounds : ∀ fuel i, chars.length - i < fuel →
      scan.rounds chars fuel i = some (parse_descriptors (chars.drop i)) by
    have hall := hrounds (chars.length + 1) 0 (by omega)
    rwa [List.drop_zero] at hall
  intro fuel
  induction fuel with
  | zero => exact fun i hfuel => absurd hfuel (Nat.not_lt_zero _)
  | succ fuel ih =>
    intro i hfuel
    rw [scan.rounds]
    split
    · rename_i hi
      obtain ⟨found, hfound, heq⟩ := round_agrees hi
      rw [hfound, Option.bind_eq_bind, Option.bind_some]
      cases found with
      | none => rw [parse_descriptors_of_none heq.symm]
      | some found =>
        obtain ⟨d, j⟩ := found
        have hnext : next_descriptor (chars.drop i) = some (d, chars.drop j) := heq.symm
        have hlt := next_descriptor_lt hnext
        rw [List.length_drop, List.length_drop] at hlt
        rw [parse_descriptors_cons hnext]
        dsimp only
        rw [ih j (by omega)]
        rfl
    · rename_i hi
      rw [List.drop_eq_nil_of_le (Nat.le_of_not_lt hi), parse_descriptors_nil]

/-! ### Rendered global symbols -/

/-- A field of a symbol, which ends at a space. -/
structure HeaderField where
  chars : List Char
  plain : ∀ c ∈ chars, c ≠ ' '

/-- A global symbol in its parts. -/
structure GlobalSymbol where
  scheme : HeaderField
  manager : HeaderField
  package : HeaderField
  version : HeaderField
  descriptors : List WireDescriptor
  global : scheme.chars ≠ "local".toList

namespace GlobalSymbol

variable (s : GlobalSymbol)

def chars : List Char :=
  s.scheme.chars ++ ' ' :: (s.manager.chars ++ ' ' :: (s.package.chars ++ ' ' :: (s.version.chars ++ ' ' ::
    render_tail s.descriptors)))

def text : String :=
  String.ofList s.chars

/-- The names of its descriptors without those of type parameters and parameters. -/
def kept : List (List Char) :=
  kept_names (s.descriptors.map WireDescriptor.parsed)

end GlobalSymbol

theorem HeaderField.takeWhile (f : HeaderField) (rest : List Char) :
    (f.chars ++ ' ' :: rest).takeWhile (fun c => decide (c ≠ ' ')) = f.chars := by
  rw [List.takeWhile_append_of_pos fun c hc => decide_eq_true (f.plain c hc), List.takeWhile_cons_of_neg (by decide),
    List.append_nil]

theorem splitn_field (f : HeaderField) (n : Nat) (rest : List Char) :
    splitn ' ' (n + 2) (f.chars ++ ' ' :: rest) = f.chars :: splitn ' ' (n + 1) rest := by
  rw [splitn, List.dropWhile_append_of_pos fun c hc => decide_eq_true (f.plain c hc),
    List.dropWhile_cons_of_neg (by decide), f.takeWhile]

theorem GlobalSymbol.splitn_chars (s : GlobalSymbol) :
    splitn ' ' 5 s.chars =
      [s.scheme.chars, s.manager.chars, s.package.chars, s.version.chars, render_tail s.descriptors] := by
  rw [GlobalSymbol.chars, splitn_field, splitn_field, splitn_field, splitn_field]
  rfl

theorem GlobalSymbol.not_local (s : GlobalSymbol) : is_local s.text = false := by
  rw [is_local, decide_eq_false_iff_not, GlobalSymbol.text, String.toList_ofList, GlobalSymbol.chars]
  have hscheme := s.scheme.takeWhile
  rintro (heq | hprefix)
  · have hchars := congrArg String.toList heq
    rw [String.toList_ofList] at hchars
    have hlocal := congrArg (List.takeWhile fun c => decide (c ≠ ' ')) hchars
    rw [hscheme] at hlocal
    exact s.global (hlocal.trans (by decide))
  · obtain ⟨rest, hrest⟩ := List.isPrefixOf_iff_prefix.mp hprefix
    rw [String.toList_ofList] at hrest
    have hlocal := congrArg (List.takeWhile fun c => decide (c ≠ ' ')) hrest
    rw [hscheme] at hlocal
    exact s.global hlocal.symm

theorem GlobalSymbol.tokenize (s : GlobalSymbol) :
    rust.tokenize s.text =
      if s.package.chars = [] ∨ s.version.chars = [] then none
      else some (s.package.chars, s.version.chars, s.descriptors.map WireDescriptor.parsed) := by
  have htail := parse_render_tail s.descriptors []
  rw [List.append_nil, parse_descriptors_nil, List.append_nil] at htail
  rw [rust.tokenize, GlobalSymbol.text, String.toList_ofList, s.splitn_chars]
  dsimp only
  rw [List.head?_cons, Option.getD_some, htail]

/-- The name of a rendered symbol is its package with the names it keeps. It has none if
it keeps none, or if its package or its version is empty. -/
theorem GlobalSymbol.map_symbol (s : GlobalSymbol) :
    rust.map_symbol s.text =
      if s.package.chars = [] ∨ s.version.chars = [] ∨ s.kept = [] then none
      else some ⟨join_names (s.package.chars :: s.kept), join_names (s.package.chars :: s.kept),
        String.ofList s.package.chars, String.ofList s.version.chars⟩ := by
  rw [rust.map_symbol, s.not_local, if_neg Bool.false_ne_true, s.tokenize, GlobalSymbol.kept]
  by_cases hempty : s.package.chars = [] ∨ s.version.chars = []
  · rw [if_pos hempty, if_pos (hempty.imp_right .inl)]
    rfl
  · obtain ⟨hpackage, hversion⟩ := not_or.mp hempty
    rw [if_neg hempty, Option.bind_some]
    dsimp only
    split
    · rename_i hnone
      rw [if_pos (.inr (.inr hnone))]
    · rename_i hsome
      rw [if_neg (not_or.mpr ⟨hpackage, not_or.mpr ⟨hversion, hsome⟩⟩)]

/-- Parsing inverts rendering: a tail of the grammar parses to its descriptors, a global
symbol with a package and a version that keeps a name is mapped to its package and the kept
names, and no text whatever makes the scanner panic or run on. -/
theorem parse_inverts_render :
    (∀ descriptors : List WireDescriptor,
      parse_descriptors (render_tail descriptors) = descriptors.map WireDescriptor.parsed) ∧
    (∀ s : GlobalSymbol, rust.map_symbol s.text =
      if s.package.chars = [] ∨ s.version.chars = [] ∨ s.kept = [] then none
      else some ⟨join_names (s.package.chars :: s.kept), join_names (s.package.chars :: s.kept),
        String.ofList s.package.chars, String.ofList s.version.chars⟩) ∧
    ∀ tail, scan.parse_descriptors tail = some (parse_descriptors tail) := by
  refine ⟨fun descriptors => ?_, GlobalSymbol.map_symbol, scan_eq⟩
  have htail := parse_render_tail descriptors []
  rwa [List.append_nil, parse_descriptors_nil, List.append_nil] at htail

/-- The symbol `rust-analyzer cargo p 1.0.0 [T]`. -/
def type_parameter_symbol : GlobalSymbol where
  scheme := ⟨"rust-analyzer".toList, by simp⟩
  manager := ⟨"cargo".toList, by simp⟩
  package := ⟨"p".toList, by simp⟩
  version := ⟨"1.0.0".toList, by simp⟩
  descriptors := [.TypeParameter ⟨['T'], List.cons_ne_nil _ _, by simp [is_mark, is_sigil]⟩]
  global := by decide

/-- A symbol whose only descriptor is a type parameter has no name. -/
theorem type_parameter_without_name :
    ¬ ∀ s : GlobalSymbol, s.package.chars ≠ [] → s.version.chars ≠ [] →
      (rust.map_symbol s.text).map MappedSymbol.qname = some (join_names (s.package.chars :: s.kept)) := by
  intro h
  have hname := h type_parameter_symbol (by decide) (by decide)
  rw [type_parameter_symbol.map_symbol, if_pos (.inr (.inr rfl))] at hname
  cases hname

end cgx.scip
