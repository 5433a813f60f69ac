import Cgx.Store.Objects

open cgx.core disk

namespace cgx.store

/-! ### Hex digests -/

theorem is_hex_toNat {a : Char} (h : is_hex a = true) :
    (48 ≤ a.toNat ∧ a.toNat ≤ 57) ∨ 97 ≤ a.toNat ∧ a.toNat ≤ 102 := by
  simp only [is_hex, Bool.or_eq_true, Bool.and_eq_true, decide_eq_true_eq, Char.le_def,
    UInt32.le_iff_toNat_le] at h
  exact h

theorem is_hex_utf8Size {a : Char} (h : is_hex a = true) : a.utf8Size = 1 := by
  rw [Char.utf8Size_eq_one_iff, UInt32.le_iff_toNat_le]
  have hnat := is_hex_toNat h
  have hmax : (0x7f : UInt32).toNat = 127 := rfl
  have hval : a.val.toNat = a.toNat := rfl
  omega

theorem is_hex_not_whitespace {a : Char} (h : is_hex a = true) : is_whitespace a = false := by
  have hnat := is_hex_toNat h
  simp only [is_whitespace, Bool.or_eq_false_iff, Bool.and_eq_false_iff, decide_eq_false_iff_not]
  omega

theorem is_hex_ne_newline {a : Char} (h : is_hex a = true) : a ≠ '\n' := by
  intro heq
  subst heq
  cases h

theorem trim_eq_self {s : List Char} (h : ∀ a ∈ s, is_whitespace a = false) : trim s = s := by
  have hdrop : ∀ {l : List Char}, (∀ a ∈ l, is_whitespace a = false) → l.dropWhile is_whitespace = l := by
    intro l hl
    cases l with
    | nil => rfl
    | cons a rest => rw [List.dropWhile_cons_of_neg (by simp [hl a List.mem_cons_self])]
  rw [trim, hdrop h, hdrop (by simpa using h), List.reverse_reverse]

theorem lines_append {a : List Char} (ha : ∀ x ∈ a, x ≠ '\n') (b : List Char) :
    lines (a ++ '\n' :: b) = a :: lines b := by
  induction a with
  | nil => rw [List.nil_append, lines, if_pos rfl]
  | cons x rest ih =>
    have hrest := ih fun y hy => ha y (List.mem_cons_of_mem x hy)
    rw [List.cons_append, lines, if_neg (ha x List.mem_cons_self), hrest]

section

variable {Bytes : Type} (c : Codec Bytes)

/-! ### Object paths -/

/-- The path of an object. -/
def blob_path (b : Bytes) : Path :=
  .file .objects (String.ofList ((c.of_bytes b).toList.take 2)) (String.ofList ((c.of_bytes b).toList.drop 2))

theorem object_path_of_bytes (b : Bytes) :
    object_path (c.of_bytes b) = .ok (String.ofList ((c.of_bytes b).toList.take 2),
      String.ofList ((c.of_bytes b).toList.drop 2)) := by
  obtain ⟨hlen, hhex⟩ := c.of_bytes_hex b
  rw [object_path]
  generalize (c.of_bytes b).toList = l at hlen hhex
  match l, hlen, hhex with
  | x :: y :: rest, _, hhex =>
    have hx := is_hex_utf8Size (hhex x (by simp))
    have hy := is_hex_utf8Size (hhex y (by simp))
    simp [split_at_two, hx, hy]

theorem split_at_two_append {l head rest : List Char} (h : split_at_two l = some (head, rest)) :
    head ++ rest = l := by
  match l, h with
  | [], h => cases h
  | [a], h =>
    rw [split_at_two] at h
    split at h
    · cases h
      rfl
    · cases h
  | a :: b :: tail, h =>
    rw [split_at_two] at h
    split at h
    · cases h
      rfl
    · split at h
      · cases h
        rfl
      · cases h

variable {c}

/-- Only the oid of an object has the object's path. -/
theorem oid_of_object_path {oid head rest : String} (h : object_path oid = .ok (head, rest)) {b : Bytes}
    (hpath : Path.file .objects head rest = blob_path c b) : oid = c.of_bytes b := by
  rw [object_path] at h
  cases hsplit : split_at_two oid.toList with
  | none => simp [hsplit] at h
  | some parts =>
    simp only [hsplit, Except.ok.injEq, Prod.mk.injEq] at h
    simp only [← h.1, ← h.2, blob_path, Path.file.injEq, String.ofList_inj, true_and] at hpath
    apply String.toList_inj.mp
    rw [← split_at_two_append hsplit, hpath.1, hpath.2, List.take_append_drop]

theorem blob_path_inj {a b : Bytes} (h : blob_path c a = blob_path c b) : c.of_bytes a = c.of_bytes b := by
  simp only [blob_path, Path.file.injEq, String.ofList_inj, true_and] at h
  apply String.toList_inj.mp
  rw [← List.take_append_drop 2 (c.of_bytes a).toList, h.1, h.2, List.take_append_drop]

theorem blob_path_congr {a b : Bytes} (h : c.of_bytes a = c.of_bytes b) : blob_path c a = blob_path c b := by
  rw [blob_path, h, blob_path]

/-- No hex digits end like a temporary file. -/
theorem hex_not_tmp {name base : String} (h : ∀ a ∈ name.toList, is_hex a = true) : name ≠ base ++ ".tmp" := by
  intro heq
  have hmem : 'p' ∈ name.toList := by
    rw [heq, String.toList_append]
    exact List.mem_append_right _ (by decide)
  cases h 'p' hmem

theorem blob_path_ne_tmp (b : Bytes) (p : Path) : blob_path c b ≠ p.tmp := by
  intro heq
  cases p with
  | ref name => cases heq
  | file a head rest =>
    simp only [blob_path, Path.tmp, Path.file.injEq] at heq
    apply hex_not_tmp _ heq.2.2
    intro x hx
    rw [String.toList_ofList] at hx
    exact (c.of_bytes_hex b).2 x (List.mem_of_mem_drop hx)

theorem ref_path_ne_tmp (key : String) (p : Path) : ref_path c key ≠ p.tmp := by
  intro heq
  cases p with
  | file a head rest => cases heq
  | ref name =>
    simp only [ref_path, Path.tmp, Path.ref.injEq] at heq
    exact hex_not_tmp (c.of_bytes_hex _).2 heq

/-! ### Refs -/

theorem toList_ref_text (oid key : String) :
    (ref_text oid key).toList = oid.toList ++ '\n' :: (key.toList ++ ['\n']) := by
  simp [ref_text, String.toList_append]

/-- The first line of a ref is the oid of its manifest. -/
theorem line_zero_ref_text (b : Bytes) (key : String) :
    line 0 (ref_text (c.of_bytes b) key) = c.of_bytes b := by
  have hhex := (c.of_bytes_hex b).2
  rw [line, toList_ref_text, lines_append fun x hx => is_hex_ne_newline (hhex x hx)]
  simp only [List.getElem?_cons_zero, Option.getD_some]
  rw [trim_eq_self fun x hx => is_hex_not_whitespace (hhex x hx), String.ofList_toList]

/-- The key as `prune_graphs_except` reads it back from a ref: its first line, trimmed. -/
def key_line (key : String) : String :=
  String.ofList (trim (key.toList.takeWhile (· ≠ '\n')))

theorem lines_takeWhile (s : List Char) :
    (lines (s ++ ['\n']))[0]? = some (s.takeWhile (· ≠ '\n')) := by
  induction s with
  | nil => rfl
  | cons x rest ih =>
    rw [List.cons_append, lines]
    by_cases hx : x = '\n'
    · simp [hx]
    · rw [if_neg hx, List.takeWhile_cons_of_pos (by simpa using hx)]
      cases hlines : lines (rest ++ ['\n']) with
      | nil => simp [hlines] at ih
      | cons line others =>
        simp only [hlines, List.getElem?_cons_zero, Option.some.injEq] at ih ⊢
        rw [ih]

/-- The second line of a ref is its key's first line. -/
theorem line_one_ref_text (b : Bytes) (key : String) :
    line 1 (ref_text (c.of_bytes b) key) = key_line key := by
  have hhex := (c.of_bytes_hex b).2
  rw [line, toList_ref_text, lines_append fun x hx => is_hex_ne_newline (hhex x hx),
    List.getElem?_cons_succ, lines_takeWhile, Option.getD_some, key_line]

end

end cgx.store
