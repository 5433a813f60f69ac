import Cgx.Transport.Confined
import Cgx.Transport.Push

open cgx.store

namespace cgx.transport

variable {Bytes : Type}

/-! ### Trees -/

namespace TreeNode

theorem lookup_empty (p : List String) : (empty : TreeNode Bytes).lookup p = none := by
  match p with
  | [] => rfl
  | [_] => rfl
  | _ :: _ :: _ => rfl

/-- A blob is found under its own path only. -/
theorem lookup_insert (t : TreeNode Bytes) {p : List String} (hp : p ≠ []) (b : Bytes) (q : List String) :
    (t.insert p b).lookup q = if q = p then some b else t.lookup q := by
  induction p generalizing t q with
  | nil => exact absurd rfl hp
  | cons head rest ih =>
    obtain ⟨blobs, dirs⟩ := t
    cases rest with
    | nil =>
      match q with
      | [] => rfl
      | [name] => simp only [insert, lookup, sorted_map.get?_insert, List.cons.injEq, and_true]
      | _ :: _ :: _ => simp [insert, lookup]
    | cons next rest =>
      match q with
      | [] => simp [lookup]
      | [name] => simp [insert, lookup]
      | first :: second :: others =>
        simp only [insert, lookup, sorted_map.get?_insert]
        by_cases heq : first = head
        · subst heq
          rw [if_pos rfl, Option.bind_some, ih _ (List.cons_ne_nil _ _)]
          cases sorted_map.get? compare first dirs with
          | none => simp [lookup_empty]
          | some child => simp
        · rw [if_neg heq, if_neg (by rintro ⟨⟩; exact heq rfl)]

/-- A tree with more files. -/
def insert_all (t : TreeNode Bytes) (writes : List (Location × Bytes)) : TreeNode Bytes :=
  writes.foldl (fun t w => t.insert w.1 w.2) t

theorem insert_all_append (t : TreeNode Bytes) (writes writes' : List (Location × Bytes)) :
    t.insert_all (writes ++ writes') = (t.insert_all writes).insert_all writes' :=
  List.foldl_append

/-- A tree holds exactly its files, if no two of them share a path. -/
theorem lookup_insert_all {writes : List (Location × Bytes)} (hpaths : ∀ w ∈ writes, w.1 ≠ [])
    (hone : ∀ w ∈ writes, ∀ w' ∈ writes, w.1 = w'.1 → w = w') (p : Location) (b : Bytes) :
    (empty.insert_all writes).lookup p = some b ↔ (p, b) ∈ writes := by
  induction writes using List.reverseRecOn with
  | nil => simp [insert_all, lookup_empty]
  | append_singleton rest w ih =>
    have hrest := ih (fun w' hw' => hpaths w' (List.mem_append_left _ hw'))
      (fun a ha a' ha' => hone a (List.mem_append_left _ ha) a' (List.mem_append_left _ ha'))
    have hlast : w ∈ rest ++ [w] := List.mem_append_right _ List.mem_cons_self
    rw [insert_all, List.foldl_append, List.foldl_cons, List.foldl_nil, lookup_insert _ (hpaths w hlast),
      List.mem_append, List.mem_singleton]
    split
    · rename_i heq
      subst heq
      constructor
      · intro hb
        cases hb
        exact .inr rfl
      · rintro (hmem | heq)
        · rw [← hone _ (List.mem_append_left _ hmem) w hlast rfl]
        · rw [← heq]
    · rename_i hne
      rw [← insert_all, hrest]
      constructor
      · exact .inl
      · rintro (hmem | heq)
        · exact hmem
        · rw [← heq] at hne
          exact absurd rfl hne

end TreeNode

/-! ### Paths -/

theorem names_single {name : String} (h : '/' ∉ name.toList) : names name = [name] := by
  rw [names, List.splitOn_eq_singleton h, List.map_singleton, String.ofList_toList]

theorem names_cons {name : String} (h : '/' ∉ name.toList) (path : String) :
    names (name ++ "/" ++ path) = name :: names path := by
  have htext : (name ++ "/" ++ path).toList = name.toList ++ '/' :: path.toList := by
    simp [String.toList_append]
  rw [names, htext, List.splitOn_append_cons_self_of_not_mem h, List.map_cons, String.ofList_toList]
  rfl

theorem names_inj {a b : String} (h : names a = names b) : a = b := by
  have hpieces : a.toList.splitOn '/' = b.toList.splitOn '/' :=
    List.map_injective_iff.mpr (fun _ _ => String.ofList_inj.mp) h
  have hjoin := congrArg (List.intercalate ['/']) hpieces
  rw [List.intercalate_splitOn, List.intercalate_splitOn] at hjoin
  exact String.toList_inj.mp hjoin

/-- Names without a slash make a path. -/
theorem exists_path {loc : Location} (hne : loc ≠ []) (h : ∀ name ∈ loc, '/' ∉ name.toList) :
    ∃ path, names path = loc := by
  induction loc with
  | nil => exact absurd rfl hne
  | cons name rest ih =>
    have hname := h name List.mem_cons_self
    cases rest with
    | nil => exact ⟨name, names_single hname⟩
    | cons next others =>
      obtain ⟨path, hpath⟩ := ih (List.cons_ne_nil _ _) fun n hn => h n (List.mem_cons_of_mem name hn)
      exact ⟨name ++ "/" ++ path, by rw [names_cons hname, hpath]⟩

/-- A name that leads to a file of its own. -/
def Plain (name : List Char) : Prop :=
  name ≠ [] ∧ name ≠ ['.'] ∧ name ≠ ['.', '.']

theorem foldl_descend {pieces : List (List Char)} (h : ∀ piece ∈ pieces, Plain piece) (dir : Location) :
    pieces.foldl descend dir = dir ++ pieces.map String.ofList := by
  induction pieces generalizing dir with
  | nil => simp
  | cons piece rest ih =>
    obtain ⟨hempty, hdot, hdots⟩ := h piece List.mem_cons_self
    rw [List.foldl_cons, ih fun p hp => h p (List.mem_cons_of_mem piece hp), descend,
      if_neg (by simp [hempty, hdot]), if_neg hdots, List.append_assoc]
    rfl

/-- A path of plain names is written where it says. -/
theorem join_plain {l : List Char} (h : ∀ piece ∈ l.splitOn '/', Plain piece) (dir : Location) :
    join dir l = dir ++ (l.splitOn '/').map String.ofList := by
  rw [join.eq_def]
  split
  · rename_i path
    have hfirst : ('/' :: path).splitOn '/' = [] :: path.splitOn '/' := List.splitOn_append_cons_self [] path
    rw [hfirst] at h
    exact absurd rfl (h [] List.mem_cons_self).1
  · exact foldl_descend h dir

theorem object_rest_eq {path : String} {rest : List Char} (h : object_rest path = some rest) :
    path = "objects" ++ "/" ++ String.ofList rest := by
  rw [object_rest] at h
  split at h
  · rename_i hprefix
    obtain ⟨tail, htail⟩ := hprefix
    rw [← htail, List.drop_left, Option.some_inj] at h
    apply String.toList_inj.mp
    rw [← htail, h]
    simp [String.toList_append]
  · cases h

/-- An entry is written where its path says. -/
theorem write_of_plain {e : TreeEntry Bytes} {b : Bytes} (hblob : e.cat_file_blob = .ok b)
    (h : ∀ name ∈ names e.path, Plain name.toList) : write_of e = some (names e.path, b) := by
  have hpieces : ∀ piece ∈ e.path.toList.splitOn '/', Plain piece := by
    intro piece hpiece
    have hplain := h (String.ofList piece) (List.mem_map_of_mem hpiece)
    rwa [String.toList_ofList] at hplain
  rw [write_of, hblob]
  cases hobject : object_rest e.path with
  | none =>
    simp only []
    rw [join_plain hpieces]
    rfl
  | some rest =>
    have hnames : names ("objects" ++ "/" ++ String.ofList rest) = _ := names_cons (by decide) _
    rw [← object_rest_eq hobject] at hnames
    simp only []
    rw [hnames] at h ⊢
    rw [join_plain (l := rest)]
    · rw [names, String.toList_ofList]
      rfl
    · intro piece hpiece
      have hmem : String.ofList piece ∈ names (String.ofList rest) := by
        rw [names, String.toList_ofList]
        exact List.mem_map_of_mem hpiece
      have hplain := h _ (List.mem_cons_of_mem _ hmem)
      rwa [String.toList_ofList] at hplain

end cgx.transport
