import Cgx.Scip.Symbol

namespace cgx.scip

/-! ### The documented grammar -/

/-- The characters with a meaning of their own in a descriptor. -/
def is_mark (c : Char) : Bool :=
  is_sigil c ∨ c = ')' ∨ c = '[' ∨ c = ']'

/-- The name of a descriptor. -/
structure Name where
  chars : List Char
  nonempty : chars ≠ []
  plain : ∀ c ∈ chars, is_mark c = false

/-- What tells apart the methods of one name. -/
structure Disambiguator where
  chars : List Char
  plain : ∀ c ∈ chars, c ≠ '(' ∧ c ≠ ')'

/-- A descriptor of the grammar. -/
inductive WireDescriptor where
  | Namespace (name : Name)
  | Type (name : Name)
  | Method (name : Name) (disambiguator : Disambiguator)
  | Term (name : Name)
  | Macro (name : Name)
  | TypeParameter (name : Name)
  | Parameter (name : Name)

namespace WireDescriptor

def render : WireDescriptor → List Char
  | .Namespace name => name.chars ++ ['/']
  | .Type name => name.chars ++ ['#']
  | .Method name disambiguator => name.chars ++ '(' :: (disambiguator.chars ++ [')', '.'])
  | .Term name => name.chars ++ ['.']
  | .Macro name => name.chars ++ ['!']
  | .TypeParameter name => '[' :: (name.chars ++ [']'])
  | .Parameter name => '(' :: (name.chars ++ [')'])

/-- What parsing keeps of a descriptor. -/
def parsed : WireDescriptor → Descriptor
  | .Namespace name => ⟨name.chars, .Namespace⟩
  | .Type name => ⟨name.chars, .Type⟩
  | .Method name _ => ⟨name.chars, .Method⟩
  | .Term name => ⟨name.chars, .Term⟩
  | .Macro name => ⟨name.chars, .Macro⟩
  | .TypeParameter name => ⟨name.chars, .Dropped⟩
  | .Parameter name => ⟨name.chars, .Dropped⟩

end WireDescriptor

def render_tail (descriptors : List WireDescriptor) : List Char :=
  descriptors.flatMap WireDescriptor.render

/-! ### Scanning what was rendered -/

theorem find_close_go {opening closing : Char} (hne : opening ≠ closing) {text : List Char}
    (htext : ∀ c ∈ text, c ≠ opening ∧ c ≠ closing) (offset : Nat) (rest : List Char) :
    find_close.go opening closing 1 offset (text ++ closing :: rest) = some (offset + text.length) := by
  induction text generalizing offset with
  | nil =>
    rw [List.nil_append, find_close.go, if_neg hne.symm, if_pos rfl, if_pos (by decide)]
    rfl
  | cons c text ih =>
    obtain ⟨hopening, hclosing⟩ := htext c List.mem_cons_self
    rw [List.cons_append, find_close.go, if_neg hopening, if_neg hclosing,
      ih fun d hd => htext d (List.mem_cons_of_mem c hd), List.length_cons]
    congr 1
    omega

/-- A text without the delimiters is closed by the first closing one. -/
theorem find_close_text (opening closing : Char) (hne : opening ≠ closing) {text : List Char}
    (htext : ∀ c ∈ text, c ≠ opening ∧ c ≠ closing) (rest : List Char) :
    find_close opening closing (opening :: (text ++ closing :: rest)) = some (text.length + 1) := by
  rw [find_close, find_close.go, if_pos rfl]
  exact (find_close_go hne htext 1 rest).trans (congrArg some (Nat.add_comm _ _))

variable (name : Name)

theorem Name.not_sigil : ∀ c ∈ name.chars, (!is_sigil c) = true := by
  intro c hc
  have hplain := name.plain c hc
  simp only [is_mark, decide_eq_false_iff_not, not_or] at hplain
  simpa using hplain.1

theorem Name.not_bracket : ∀ c ∈ name.chars, c ≠ '[' ∧ c ≠ ']' := by
  intro c hc
  have hplain := name.plain c hc
  simp only [is_mark, decide_eq_false_iff_not, not_or] at hplain
  exact ⟨hplain.2.2.1, hplain.2.2.2⟩

theorem Name.not_paren : ∀ c ∈ name.chars, c ≠ '(' ∧ c ≠ ')' := by
  intro c hc
  refine ⟨?_, ?_⟩
  · rintro rfl
    exact absurd (name.not_sigil '(' hc) (by decide)
  · rintro rfl
    exact absurd (name.plain ')' hc) (by decide)

theorem Name.takeWhile {c : Char} (hc : is_sigil c = true) (rest : List Char) :
    (name.chars ++ c :: rest).takeWhile (fun c => !is_sigil c) = name.chars := by
  rw [List.takeWhile_append_of_pos name.not_sigil, List.takeWhile_cons_of_neg (by simp [hc]), List.append_nil]

theorem Name.dropWhile {c : Char} (hc : is_sigil c = true) (rest : List Char) :
    (name.chars ++ c :: rest).dropWhile (fun c => !is_sigil c) = c :: rest := by
  rw [List.dropWhile_append_of_pos name.not_sigil, List.dropWhile_cons_of_neg (by simp [hc])]

/-- What a name becomes by the sigil behind it. -/
def after_name (name : List Char) : List Char → Option (Descriptor × List Char)
  | [] => if name = [] then none else some (⟨name, .Term⟩, [])
  | '/' :: rest => some (⟨name, .Namespace⟩, rest)
  | '#' :: rest => some (⟨name, .Type⟩, rest)
  | '!' :: rest => some (⟨name, .Macro⟩, rest)
  | '(' :: rest =>
    (find_close '(' ')' ('(' :: rest)).map fun close =>
      let after := rest.drop close
      (⟨name, .Method⟩, if after.head? = some '.' then after.tail else after)
  | _ :: rest => some (⟨name, .Term⟩, rest)

theorem next_descriptor_other {chars : List Char} (hbracket : chars.head? ≠ some '[') (hparen : chars.head? ≠ some '(') :
    next_descriptor chars =
      after_name (chars.takeWhile fun c => !is_sigil c) (chars.dropWhile fun c => !is_sigil c) := by
  rw [next_descriptor]
  · rfl
  · rintro inner rfl
    exact hbracket rfl
  · rintro inner rfl
    exact hparen rfl

/-- A name is read up to the sigil behind it. -/
theorem next_descriptor_name {c : Char} (hc : is_sigil c = true) (rest : List Char) :
    next_descriptor (name.chars ++ c :: rest) = after_name name.chars (c :: rest) := by
  obtain ⟨first, others, hfirst⟩ := List.exists_cons_of_ne_nil name.nonempty
  have hmem : first ∈ name.chars := hfirst ▸ List.mem_cons_self
  have hhead : (name.chars ++ c :: rest).head? = some first := by
    rw [hfirst]
    rfl
  rw [next_descriptor_other, name.takeWhile hc, name.dropWhile hc]
  · rw [hhead]
    exact fun heq => (name.not_bracket first hmem).1 (Option.some.inj heq)
  · rw [hhead]
    exact fun heq => (name.not_paren first hmem).1 (Option.some.inj heq)

/-- A rendered descriptor is read back, and nothing behind it. -/
theorem next_descriptor_render (d : WireDescriptor) (rest : List Char) :
    next_descriptor (d.render ++ rest) = some (d.parsed, rest) := by
  cases d with
  | Namespace name =>
    rw [WireDescriptor.render, List.append_assoc]
    exact next_descriptor_name name (by decide) rest
  | «Type» name =>
    rw [WireDescriptor.render, List.append_assoc]
    exact next_descriptor_name name (by decide) rest
  | Method name disambiguator =>
    have hclose := find_close_text '(' ')' (by decide) disambiguator.plain ('.' :: rest)
    rw [WireDescriptor.render, List.append_assoc, List.cons_append, List.append_assoc]
    refine (next_descriptor_name name (by decide) _).trans ?_
    rw [List.cons_append, List.singleton_append]
    change Option.map _ (find_close '(' ')' ('(' :: (disambiguator.chars ++ ')' :: '.' :: rest))) = _
    rw [hclose, Option.map_some, ← List.drop_drop, List.drop_left]
    rfl
  | Term name =>
    rw [WireDescriptor.render, List.append_assoc]
    exact next_descriptor_name name (by decide) rest
  | Macro name =>
    rw [WireDescriptor.render, List.append_assoc]
    exact next_descriptor_name name (by decide) rest
  | TypeParameter name =>
    have hclose := find_close_text '[' ']' (by decide) name.not_bracket rest
    rw [WireDescriptor.render, List.cons_append, List.append_assoc, List.singleton_append, next_descriptor, hclose,
      Option.map_some, Nat.add_sub_cancel, List.take_left, List.drop_succ_cons, ← List.drop_drop, List.drop_left]
    rfl
  | Parameter name =>
    have hclose := find_close_text '(' ')' (by decide) name.not_paren rest
    rw [WireDescriptor.render, List.cons_append, List.append_assoc, List.singleton_append, next_descriptor, hclose,
      Option.map_some, Nat.add_sub_cancel, List.take_left, List.drop_succ_cons, ← List.drop_drop, List.drop_left]
    rfl

/-! ### The descriptors of a tail -/

theorem after_name_lt {name chars rest : List Char} {d : Descriptor} (h : after_name name chars = some (d, rest)) :
    rest.length < name.length + chars.length := by
  rw [after_name.eq_def] at h
  split at h
  · split at h
    · cases h
    · rename_i hname
      cases h
      exact Nat.add_pos_left (List.length_pos_iff.mpr hname) 0
  · cases h
    rw [List.length_cons]
    omega
  · cases h
    rw [List.length_cons]
    omega
  · cases h
    rw [List.length_cons]
    omega
  · rename_i tail
    obtain ⟨close, _, heq⟩ := Option.map_eq_some_iff.mp h
    have hafter : (tail.drop close).length ≤ tail.length := by
      rw [List.length_drop]
      omega
    cases heq
    rw [List.length_cons]
    split
    · rw [List.length_tail]
      omega
    · omega
  · cases h
    rw [List.length_cons]
    omega

/-- Reading a descriptor takes at least a character. -/
theorem next_descriptor_lt {chars rest : List Char} {d : Descriptor} (h : next_descriptor chars = some (d, rest)) :
    rest.length < chars.length := by
  by_cases hbracket : chars.head? = some '['
  · obtain ⟨inner, rfl⟩ := List.head?_eq_some_iff.mp hbracket
    obtain ⟨close, _, heq⟩ := Option.map_eq_some_iff.mp h
    cases heq
    rw [List.length_drop, List.length_cons]
    omega
  · by_cases hparen : chars.head? = some '('
    · obtain ⟨inner, rfl⟩ := List.head?_eq_some_iff.mp hparen
      obtain ⟨close, _, heq⟩ := Option.map_eq_some_iff.mp h
      cases heq
      rw [List.length_drop, List.length_cons]
      omega
    · rw [next_descriptor_other hbracket hparen] at h
      have hlt := after_name_lt h
      rwa [← List.length_append, List.takeWhile_append_dropWhile] at hlt

/-- With the fuel of a longer text the descriptors are the same. -/
theorem descriptors_within_eq {fuel : Nat} {chars : List Char} (hfuel : chars.length ≤ fuel) :
    descriptors_within fuel chars = parse_descriptors chars := by
  rw [parse_descriptors]
  induction fuel using Nat.strongRecOn generalizing chars with
  | ind fuel ih =>
    cases fuel with
    | zero => rw [Nat.le_zero.mp hfuel]
    | succ fuel =>
      cases hnext : next_descriptor chars with
      | none =>
        cases chars with
        | nil => simp [descriptors_within, hnext]
        | cons c chars => simp only [List.length_cons, descriptors_within, hnext]
      | some found =>
        obtain ⟨d, rest⟩ := found
        have hlt := next_descriptor_lt hnext
        obtain ⟨m, hm⟩ : ∃ m, chars.length = m + 1 := ⟨chars.length - 1, by omega⟩
        rw [hm]
        simp only [descriptors_within, hnext]
        rw [ih fuel (by omega) (by omega), ih m (by omega) (by omega)]

theorem parse_descriptors_nil : parse_descriptors [] = [] := rfl

theorem parse_descriptors_cons {chars rest : List Char} {d : Descriptor}
    (h : next_descriptor chars = some (d, rest)) : parse_descriptors chars = d :: parse_descriptors rest := by
  have hlt := next_descriptor_lt h
  obtain ⟨m, hm⟩ : ∃ m, chars.length = m + 1 := ⟨chars.length - 1, by omega⟩
  rw [parse_descriptors, hm]
  simp only [descriptors_within, h]
  rw [descriptors_within_eq (by omega)]

theorem parse_descriptors_of_none {chars : List Char} (h : next_descriptor chars = none) :
    parse_descriptors chars = [] := by
  rw [parse_descriptors]
  cases chars.length <;> simp only [descriptors_within, h]

/-- A rendered tail parses to what it was rendered from. -/
theorem parse_render_tail (descriptors : List WireDescriptor) (rest : List Char) :
    parse_descriptors (render_tail descriptors ++ rest) =
      descriptors.map WireDescriptor.parsed ++ parse_descriptors rest := by
  induction descriptors with
  | nil => rfl
  | cons d descriptors ih =>
    rw [render_tail, List.flatMap_cons, List.append_assoc, parse_descriptors_cons (next_descriptor_render d _)]
    exact congrArg (d.parsed :: ·) ih

end cgx.scip
