import Mathlib.Data.List.TakeWhile
import Cgx.Store.Put
import Cgx.Transport.Pull

open cgx.store

namespace cgx.transport

variable {Bytes : Type}

/-! ### What pull should keep to -/

section

variable (c : Codec Bytes)

/-- A file pull may write: an object under its oid, a ref or `HEAD.json`. -/
def Confined : Location × Bytes → Prop
  | (["objects", head, rest], bytes) => head.length = 2 ∧ head ++ rest = c.of_bytes bytes
  | (["refs", _], _) => True
  | (["HEAD.json"], _) => True
  | _ => False

/-- The ref of a name, which is not that of a temporary file. -/
def IsRef (loc : Location) (name : String) : Prop :=
  loc = ["refs", name] ∧ ¬ ".tmp".toList <:+ name.toList

/-- A file that is advanced last: a ref or `HEAD.json`. -/
def IsPointer (loc : Location) : Prop :=
  loc = ["HEAD.json"] ∨ ∃ name, IsRef loc name

/-- The files of the store among those around a `.cgx`. -/
def store_files (files : Location → Option Bytes) : StoreFiles Bytes
  | .file .objects head rest => files ["objects", head, rest]
  | .file .fragments head rest => files ["fragments", head, rest]
  | .ref name => files ["refs", name]

/-- The ref of a name holds a manifest's oid, and the manifest and all objects it names are
there with matching hashes. -/
def Closed (files : StoreFiles Bytes) (name : String) : Prop :=
  ∃ text manifest_bytes m, read_if_exists c files (.ref name) = .ok (some text) ∧
    read_object c files (line 0 text) = .ok manifest_bytes ∧
      open_manifest c (line 0 text) manifest_bytes = .ok m ∧
        ∀ oid ∈ m.referenced_oids, ∃ bytes, read_object c files oid = .ok bytes

/-- A pull over `files` that is confined and verified. -/
structure Verified (files : Location → Option Bytes)
    (pulled : Clone Bytes × Except TransportError PullOutcome) : Prop where
  confined : ∀ w ∈ pulled.1.written, Confined c w
  kept : ∀ err, pulled.2 = .error err → ∀ loc, IsPointer loc → pulled.1.files loc = files loc
  closed : ∀ outcome, pulled.2 = .ok outcome → ∀ w ∈ pulled.1.written, ∀ name, IsRef w.1 name →
    Closed c (store_files pulled.1.files) name

end

/-! ### What pull does -/

section

variable (c : Codec Bytes) (host : Host Bytes)

/-- The write an entry asks for. -/
def write_of (e : TreeEntry Bytes) : Option (Location × Bytes) :=
  match e.cat_file_blob with
  | .error _ => none
  | .ok bytes =>
    match object_rest e.path with
    | some rest => some (join ["objects"] rest, bytes)
    | none => some (join [] e.path.toList, bytes)

def is_object (e : TreeEntry Bytes) : Bool :=
  (object_rest e.path).isSome

/-- An entry over which the objects' pass does not fail. -/
def passes (e : TreeEntry Bytes) : Bool :=
  match e.cat_file_blob with
  | .error _ => false
  | .ok bytes =>
    match object_rest e.path with
    | some rest => c.of_bytes bytes = spelled_oid rest && host.accepts (join ["objects"] rest) bytes
    | none => true

/-- The objects up to the first entry that fails. -/
def object_writes (tree : List (TreeEntry Bytes)) : List (Location × Bytes) :=
  ((tree.takeWhile (passes c host)).filter is_object).filterMap write_of

/-- The other entries. -/
def pointers (tree : List (TreeEntry Bytes)) : List (String × Bytes) :=
  (tree.filter fun e => !is_object e).filterMap fun e => e.cat_file_blob.toOption.map fun bytes => (e.path, bytes)

def pointer_writes (tree : List (TreeEntry Bytes)) : List (Location × Bytes) :=
  (pointers tree).map fun p => (join [] p.1.toList, p.2)

/-- Every object of the tree is verified, written and flushed. -/
def lands (tree : List (TreeEntry Bytes)) : Bool :=
  tree.all (passes c host) && (host.durable || !tree.any is_object)

/-- The pointers up to the first that the file system refuses. -/
def accepted_writes (tree : List (TreeEntry Bytes)) : List (Location × Bytes) :=
  (pointer_writes tree).takeWhile fun w => host.accepts w.1 w.2

/-- The files a tree gets to write. -/
def arriving (tree : List (TreeEntry Bytes)) : List (Location × Bytes) :=
  object_writes c host tree ++ if lands c host tree then accepted_writes host tree else []

/-- The tree git makes available. -/
def published (git : Git Bytes) : Option (List (TreeEntry Bytes)) :=
  match git.fetch, git.rev_parse, git.ls_tree_r with
  | .ok (), .ok (some _), .ok tree => some tree
  | _, _, _ => none

/-- A tree that is harmless over `files`. -/
structure Harmless (files : Location → Option Bytes) (tree : List (TreeEntry Bytes)) : Prop where
  /-- Every file it gets to write is confined. -/
  names : ∀ w ∈ arriving c host tree, Confined c w
  /-- If a pointer is refused, those before it hold what the files held. -/
  refused : lands c host tree = true → accepted_writes host tree ≠ pointer_writes tree →
    ∀ loc, IsPointer loc → ((arriving c host tree).foldl replace files) loc = files loc
  /-- If nothing is refused, its refs are closed over its objects and those at hand. -/
  refs : lands c host tree = true → accepted_writes host tree = pointer_writes tree →
    ∀ w ∈ arriving c host tree, ∀ name, IsRef w.1 name →
      Closed c (store_files ((arriving c host tree).foldl replace files)) name

end

variable {c : Codec Bytes} {host : Host Bytes}

/-! ### Objects land below their directory -/

/-- The pieces of a path consist of its characters. -/
theorem mem_splitOn {l piece : List Char} (h : piece ∈ l.splitOn '/') : ∀ a ∈ piece, a ≠ '/' ∧ a ∈ l := by
  induction l generalizing piece with
  | nil =>
    rw [List.splitOn_nil, List.mem_singleton] at h
    subst h
    intro a ha
    cases ha
  | cons x xs ih =>
    intro a ha
    rw [List.splitOn_cons_eq_if_modifyHead] at h
    split at h
    · rename_i hx
      cases List.mem_cons.mp h with
      | inl hfirst =>
        rw [hfirst] at ha
        cases ha
      | inr hlater => exact ⟨(ih hlater a ha).1, List.mem_cons_of_mem x (ih hlater a ha).2⟩
    · rename_i hx
      cases hsplit : xs.splitOn '/' with
      | nil => exact absurd hsplit (List.splitOn_ne_nil _ _)
      | cons first others =>
        rw [hsplit, List.modifyHead_cons] at h
        cases List.mem_cons.mp h with
        | inl hfirst =>
          rw [hfirst] at ha
          cases List.mem_cons.mp ha with
          | inl hax => exact ⟨by rw [hax]; simpa using hx, by rw [hax]; exact List.mem_cons_self⟩
          | inr hain =>
            have hboth := ih (by rw [hsplit]; exact List.mem_cons_self) a hain
            exact ⟨hboth.1, List.mem_cons_of_mem x hboth.2⟩
        | inr hlater =>
          have hboth := ih (by rw [hsplit]; exact List.mem_cons_of_mem first hlater) a ha
          exact ⟨hboth.1, List.mem_cons_of_mem x hboth.2⟩

/-- Names without dots lead downwards. -/
theorem descend_head {pieces : List (List Char)} (h : ∀ piece ∈ pieces, ∀ a ∈ piece, a ≠ '.') (top : String)
    (below : Location) : ∃ below', pieces.foldl descend (top :: below) = top :: below' := by
  induction pieces generalizing below with
  | nil => exact ⟨below, rfl⟩
  | cons piece rest ih =>
    have hrest : ∀ piece ∈ rest, ∀ a ∈ piece, a ≠ '.' := fun p hp => h p (List.mem_cons_of_mem piece hp)
    have hpiece := h piece List.mem_cons_self
    rw [List.foldl_cons, descend]
    split
    · exact ih hrest below
    · split
      · rename_i hdots
        rw [hdots] at hpiece
        exact absurd rfl (hpiece '.' List.mem_cons_self)
      · exact ih hrest (below ++ [String.ofList piece])

/-- A verified object is written under `objects`, or at the root for an absolute path. -/
theorem object_head {rest : List Char} {b : Bytes} (h : c.of_bytes b = spelled_oid rest) :
    ∃ top below, join ["objects"] rest = top :: below ∧ (top = "objects" ∨ top = "/") := by
  have hdots : ∀ a ∈ rest, a ≠ '.' := by
    intro a ha hdot
    have hhex := (c.of_bytes_hex b).2 '.' ?_
    · cases hhex
    · rw [h, spelled_oid, String.toList_ofList]
      exact List.mem_filter.mpr ⟨by rw [← hdot]; exact ha, by decide⟩
  have hpieces : ∀ l : List Char, (∀ a ∈ l, a ≠ '.') → ∀ piece ∈ l.splitOn '/', ∀ a ∈ piece, a ≠ '.' :=
    fun l hl piece hpiece a ha => hl a (mem_splitOn hpiece a ha).2
  rw [join.eq_def]
  split
  · rename_i path
    obtain ⟨below, hbelow⟩ := descend_head (hpieces path fun a ha => hdots a (List.mem_cons_of_mem _ ha)) "/" []
    exact ⟨"/", below, hbelow, .inr rfl⟩
  · obtain ⟨below, hbelow⟩ := descend_head (hpieces rest hdots) "objects" []
    exact ⟨"objects", below, hbelow, .inl rfl⟩

/-- A temporary file is no pointer. -/
theorem pointer_ne_tmp {loc : Location} (hloc : IsPointer loc) (other : Location) : loc ≠ tmp other := by
  intro heq
  have hlast : loc.getLast? = some (other.getLastD "" ++ ".tmp") := by
    rw [heq, tmp, List.getLast?_concat]
  rcases hloc with rfl | ⟨name, rfl, hname⟩
  · rw [List.getLast?_singleton, Option.some_inj] at hlast
    have hend := congrArg (fun s : String => s.toList.reverse.head?) hlast
    rw [String.toList_append, List.reverse_append] at hend
    have hchars : some 'n' = some 'p' := hend
    exact absurd hchars (by decide)
  · rw [List.getLast?_cons_cons, List.getLast?_singleton, Option.some_inj] at hlast
    exact hname ⟨(other.getLastD "").toList, by rw [hlast, String.toList_append]⟩

/-- A verified object is no pointer. -/
theorem pointer_ne_object {rest : List Char} {b : Bytes} (h : c.of_bytes b = spelled_oid rest) {loc : Location}
    (hloc : IsPointer loc) : loc ≠ join ["objects"] rest := by
  obtain ⟨top, below, hjoin, htop⟩ := object_head h
  rw [hjoin]
  rintro rfl
  rcases hloc with hhead | ⟨name, hname, _⟩
  · rcases htop with rfl | rfl <;> simp at hhead
  · rcases htop with rfl | rfl <;> simp at hname

/-! ### The passes -/

theorem replace_apart {files : Location → Option Bytes} {w : Location × Bytes} {loc : Location}
    (hloc : IsPointer loc) (hne : loc ≠ w.1) : replace files w loc = files loc := by
  rw [replace, Function.update_of_ne hne, Function.update_of_ne (pointer_ne_tmp hloc _)]

theorem write_ok {s : Clone Bytes} {w : Location × Bytes} (h : host.accepts w.1 w.2 = true) :
    write host s w = (⟨replace s.files w, s.written ++ [w]⟩, .ok ()) := by
  rw [write, if_pos h]

theorem write_error {s : Clone Bytes} {w : Location × Bytes} (h : host.accepts w.1 w.2 = false) :
    write host s w = ({ s with files := Function.update s.files (tmp w.1) (host.leaves w.1) }, .error .Io) := by
  rw [write, if_neg (by rw [h]; exact Bool.false_ne_true)]

theorem object_writes_cons {e : TreeEntry Bytes} (h : passes c host e = true) (tree : List (TreeEntry Bytes)) :
    object_writes c host (e :: tree) = object_writes c host [e] ++ object_writes c host tree := by
  rw [object_writes, List.takeWhile_cons_of_pos h, object_writes, List.takeWhile_cons_of_pos h, object_writes,
    ← List.filterMap_append, ← List.filter_append]
  rfl

/-- An entry that passes is written if it is an object and kept otherwise. -/
theorem write_objects_cons {e : TreeEntry Bytes} (h : passes c host e = true) (s : Clone Bytes)
    (done : Progress Bytes) (tree : List (TreeEntry Bytes)) : ∃ graph_keys,
      write_objects c host s done (e :: tree) =
        write_objects c host
          ⟨(object_writes c host [e]).foldl replace s.files, s.written ++ object_writes c host [e]⟩
          ⟨done.objects_materialized + [e].countP is_object, graph_keys, done.pointers ++ pointers [e]⟩ tree := by
  have hwrites : object_writes c host [e] = ([e].filter is_object).filterMap write_of := by
    rw [object_writes, List.takeWhile_cons_of_pos h]
    rfl
  rw [passes] at h
  cases hblob : e.cat_file_blob with
  | error err =>
    rw [hblob] at h
    cases h
  | ok bytes =>
    rw [hblob] at h
    rw [write_objects, hblob, hwrites]
    cases hobject : object_rest e.path with
    | none =>
      have his : is_object e = false := by rw [is_object, hobject]; rfl
      refine ⟨if "refs/".toList <+: e.path.toList then done.graph_keys + 1 else done.graph_keys, ?_⟩
      simp [pointers, his, hblob, Except.toOption]
    | some path =>
      have his : is_object e = true := by rw [is_object, hobject]; rfl
      have hwrite : write_of e = some (join ["objects"] path, bytes) := by rw [write_of, hblob, hobject]
      rw [hobject] at h
      simp only [Bool.and_eq_true, decide_eq_true_eq] at h
      obtain ⟨hhash, haccepts⟩ := h
      refine ⟨done.graph_keys, ?_⟩
      simp only []
      rw [if_neg (by rw [hhash]; exact not_not.mpr rfl), write_ok haccepts]
      simp [pointers, his, hwrite]

/-- Over a tree that passes, every object is written and every other entry kept. -/
theorem write_objects_ok {tree : List (TreeEntry Bytes)} (h : tree.all (passes c host) = true) (s : Clone Bytes)
    (done : Progress Bytes) :
    ∃ graph_keys, write_objects c host s done tree =
      (⟨(object_writes c host tree).foldl replace s.files, s.written ++ object_writes c host tree⟩,
        .ok ⟨done.objects_materialized + tree.countP is_object, graph_keys, done.pointers ++ pointers tree⟩) := by
  induction tree generalizing s done with
  | nil => exact ⟨done.graph_keys, by simp [write_objects, object_writes, pointers]⟩
  | cons e rest ih =>
    rw [List.all_cons, Bool.and_eq_true] at h
    obtain ⟨keys, hstep⟩ := write_objects_cons h.1 s done rest
    have hwrites := object_writes_cons h.1 rest
    have hcount : (e :: rest).countP is_object = [e].countP is_object + rest.countP is_object := by
      rw [← List.singleton_append, List.countP_append]
    have hpointers : pointers (e :: rest) = pointers [e] ++ pointers rest := by
      rw [pointers, pointers, pointers, ← List.filterMap_append, ← List.filter_append, List.singleton_append]
    obtain ⟨graph_keys, hrest⟩ := ih h.2 _ _
    refine ⟨graph_keys, ?_⟩
    rw [hstep, hrest, hwrites, hcount, hpointers, List.foldl_append, List.append_assoc,
      List.append_assoc, Nat.add_assoc]

/-- Writing verified objects leaves the pointers alone. -/
theorem foldl_object_writes {files : Location → Option Bytes} {tree : List (TreeEntry Bytes)} {loc : Location}
    (hloc : IsPointer loc) : (object_writes c host tree).foldl replace files loc = files loc := by
  have hapart : ∀ w ∈ object_writes c host tree, loc ≠ w.1 := by
    intro w hw
    rw [object_writes, List.mem_filterMap] at hw
    obtain ⟨e, he, hw⟩ := hw
    obtain ⟨he, his⟩ := List.mem_filter.mp he
    have hpass := List.mem_takeWhile_imp he
    rw [passes] at hpass
    rw [write_of] at hw
    rw [is_object] at his
    cases hblob : e.cat_file_blob with
    | error err =>
      rw [hblob] at hw
      cases hw
    | ok bytes =>
      cases hobject : object_rest e.path with
      | none =>
        rw [hobject] at his
        cases his
      | some path =>
        rw [hblob, hobject] at hw hpass
        simp only [Bool.and_eq_true, decide_eq_true_eq] at hpass
        cases hw
        exact pointer_ne_object hpass.1 hloc
  generalize object_writes c host tree = writes at hapart
  induction writes generalizing files with
  | nil => rfl
  | cons w rest ih =>
    rw [List.foldl_cons, ih fun w' hw' => hapart w' (List.mem_cons_of_mem w hw'),
      replace_apart hloc (hapart w List.mem_cons_self)]

/-- Over a tree that does not pass, the objects up to the failure are written and nothing
happens to the pointers. -/
theorem write_objects_error {tree : List (TreeEntry Bytes)} (h : tree.all (passes c host) = false)
    (s : Clone Bytes) (done : Progress Bytes) :
    ∃ s' err, write_objects c host s done tree = (s', .error err) ∧
      s'.written = s.written ++ object_writes c host tree ∧ ∀ loc, IsPointer loc → s'.files loc = s.files loc := by
  induction tree generalizing s done with
  | nil => cases h
  | cons e rest ih =>
    cases hpass : passes c host e with
    | false =>
      have hwrites : object_writes c host (e :: rest) = [] := by
        rw [object_writes, List.takeWhile_cons_of_neg (by rw [hpass]; exact Bool.false_ne_true)]
        rfl
      rw [passes] at hpass
      rw [write_objects, hwrites, List.append_nil]
      cases hblob : e.cat_file_blob with
      | error err => exact ⟨s, err, rfl, rfl, fun _ _ => rfl⟩
      | ok bytes =>
        rw [hblob] at hpass
        cases hobject : object_rest e.path with
        | none =>
          rw [hobject] at hpass
          cases hpass
        | some path =>
          rw [hobject] at hpass
          simp only []
          by_cases hhash : c.of_bytes bytes = spelled_oid path
          · simp only [hhash, decide_true, Bool.true_and] at hpass
            rw [if_neg (by rw [hhash]; exact not_not.mpr rfl), write_error hpass]
            refine ⟨_, .Io, rfl, rfl, ?_⟩
            intro loc hloc
            exact Function.update_of_ne (pointer_ne_tmp hloc _) _ _
          · rw [if_pos hhash]
            exact ⟨s, _, rfl, rfl, fun _ _ => rfl⟩
    | true =>
      rw [List.all_cons, hpass, Bool.true_and] at h
      obtain ⟨keys, hstep⟩ := write_objects_cons hpass s done rest
      obtain ⟨s', err, hrest, hwritten, hfiles⟩ := ih h _ _
      refine ⟨s', err, hstep.trans hrest, ?_, ?_⟩
      · rw [hwritten, object_writes_cons hpass rest, List.append_assoc]
      · intro loc hloc
        rw [hfiles loc hloc]
        exact foldl_object_writes hloc

variable (host) in
/-- The pointers are written up to the first that is refused. -/
theorem write_pointers_eq (s : Clone Bytes) (ps : List (String × Bytes)) {writes accepted : List (Location × Bytes)}
    (hwrites : ps.map (fun p => (join [] p.1.toList, p.2)) = writes)
    (haccepted : writes.takeWhile (fun w => host.accepts w.1 w.2) = accepted) :
    (accepted = writes →
      write_pointers host s ps = (⟨accepted.foldl replace s.files, s.written ++ accepted⟩, .ok ())) ∧
    (accepted ≠ writes → ∃ s' err, write_pointers host s ps = (s', .error err) ∧
      s'.written = s.written ++ accepted ∧
        ∀ loc, IsPointer loc → s'.files loc = accepted.foldl replace s.files loc) := by
  induction ps generalizing s writes accepted with
  | nil =>
    subst hwrites haccepted
    exact ⟨fun _ => by simp [write_pointers], fun hne => absurd rfl hne⟩
  | cons p rest ih =>
    obtain ⟨path, bytes⟩ := p
    subst hwrites haccepted
    rw [List.map_cons, write_pointers]
    cases haccepts : host.accepts (join [] path.toList) bytes with
    | false =>
      rw [List.takeWhile_cons_of_neg (by rw [haccepts]; exact Bool.false_ne_true), write_error haccepts]
      refine ⟨fun hnil => absurd hnil (List.cons_ne_nil _ _).symm, fun _ => ⟨_, .Io, rfl, (List.append_nil _).symm, ?_⟩⟩
      intro loc hloc
      exact Function.update_of_ne (pointer_ne_tmp hloc _) _ _
    | true =>
      rw [List.takeWhile_cons_of_pos (by exact haccepts), write_ok (by exact haccepts)]
      obtain ⟨hall, hrefused⟩ := ih ⟨replace s.files (join [] path.toList, bytes),
        s.written ++ [(join [] path.toList, bytes)]⟩ rfl rfl
      simp only [List.foldl_cons, ne_eq, List.cons.injEq, true_and]
      constructor
      · intro heq
        rw [hall heq, List.append_assoc, List.singleton_append]
      · intro hne
        obtain ⟨s', err, heq, hwritten, hfiles⟩ := hrefused hne
        exact ⟨s', err, heq, by rw [hwritten, List.append_assoc, List.singleton_append], hfiles⟩

/-! ### What pull leaves behind -/

variable {git : Git Bytes} {files : Location → Option Bytes} {tree : List (TreeEntry Bytes)}

variable (c host files) in
theorem pull_unpublished (h : published git = none) :
    ∃ err, pull c host git files = (⟨files, []⟩, .error err) := by
  rw [published] at h
  rw [pull]
  cases hfetch : git.fetch with
  | error err =>
    simp only []
    split
    · exact ⟨ref_absent, rfl⟩
    · exact ⟨err, rfl⟩
  | ok _ =>
    rw [hfetch] at h
    cases hrev : git.rev_parse with
    | error err => exact ⟨err, rfl⟩
    | ok commit =>
      rw [hrev] at h
      cases commit with
      | none => exact ⟨ref_absent, rfl⟩
      | some oid =>
        cases htree : git.ls_tree_r with
        | error err => exact ⟨err, rfl⟩
        | ok tree =>
          rw [htree] at h
          cases h

theorem pull_published (h : published git = some tree) : pull c host git files =
    match write_objects c host ⟨files, []⟩ ⟨0, 0, []⟩ tree with
    | (s, .error err) => (s, .error err)
    | (s, .ok done) =>
      if 0 < done.objects_materialized ∧ host.durable = false then (s, .error .Io)
      else
        match write_pointers host s done.pointers with
        | (s, .error err) => (s, .error err)
        | (s, .ok ()) => (s, .ok ⟨done.objects_materialized, done.graph_keys⟩) := by
  rw [published] at h
  split at h
  · rename_i hfetch hrev htree
    cases h
    simp only [pull, hfetch, hrev, htree]
    all_goals rfl
  · cases h

variable (files) in
/-- A pull whose objects do not all land fails before the pointers. -/
theorem pull_stops (h : published git = some tree) (hlands : lands c host tree = false) :
    ∃ s err, pull c host git files = (s, .error err) ∧ s.written = arriving c host tree ∧
      ∀ loc, IsPointer loc → s.files loc = files loc := by
  have harriving : arriving c host tree = object_writes c host tree := by
    rw [arriving, hlands, if_neg Bool.false_ne_true, List.append_nil]
  rw [harriving, pull_published h]
  cases hall : tree.all (passes c host) with
  | false =>
    obtain ⟨s, err, hpull, hwritten, hfiles⟩ := write_objects_error hall ⟨files, []⟩ ⟨0, 0, []⟩
    rw [hpull]
    exact ⟨s, err, rfl, hwritten, hfiles⟩
  | true =>
    obtain ⟨keys, hpull⟩ := write_objects_ok hall ⟨files, []⟩ ⟨0, 0, []⟩
    rw [lands, hall, Bool.true_and, Bool.or_eq_false_iff, Bool.not_eq_false'] at hlands
    rw [hpull]
    simp only []
    rw [if_pos ⟨by rw [Nat.zero_add, List.countP_pos_iff]; simpa using hlands.2, hlands.1⟩]
    exact ⟨_, .Io, rfl, rfl, fun loc hloc => foldl_object_writes hloc⟩

variable (files) in
/-- Once the objects have landed, the pointers are written up to the first that is refused. -/
theorem pull_lands (h : published git = some tree) (hlands : lands c host tree = true) :
    (accepted_writes host tree = pointer_writes tree → ∃ outcome, pull c host git files =
      (⟨(arriving c host tree).foldl replace files, arriving c host tree⟩, .ok outcome)) ∧
    (accepted_writes host tree ≠ pointer_writes tree → ∃ s err, pull c host git files = (s, .error err) ∧
      s.written = arriving c host tree ∧
        ∀ loc, IsPointer loc → s.files loc = (arriving c host tree).foldl replace files loc) := by
  have harriving : arriving c host tree = object_writes c host tree ++ accepted_writes host tree := by
    rw [arriving, hlands, if_pos rfl]
  rw [lands, Bool.and_eq_true, Bool.or_eq_true, Bool.not_eq_true'] at hlands
  obtain ⟨hall, hdurable⟩ := hlands
  obtain ⟨keys, hpull⟩ := write_objects_ok hall ⟨files, []⟩ ⟨0, 0, []⟩
  obtain ⟨hdone, hrefused⟩ := write_pointers_eq host
    ⟨(object_writes c host tree).foldl replace files, object_writes c host tree⟩ (pointers tree) rfl rfl
  have hcommit : ¬ (0 < 0 + tree.countP is_object ∧ host.durable = false) := by
    rintro ⟨hpos, hnot⟩
    rw [Nat.zero_add, List.countP_pos_iff] at hpos
    rw [hnot] at hdurable
    simp only [Bool.false_eq_true, false_or, List.any_eq_false] at hdurable
    obtain ⟨e, he, his⟩ := hpos
    exact hdurable e he his
  rw [pull_published h, hpull]
  simp only [List.nil_append]
  rw [if_neg hcommit, harriving, List.foldl_append]
  constructor
  · intro heq
    have hwritten := hdone heq
    rw [hwritten]
    exact ⟨_, rfl⟩
  · intro hne
    obtain ⟨s, err, hwritten, hlog, hfiles⟩ := hrefused hne
    rw [hwritten]
    exact ⟨s, err, rfl, hlog, hfiles⟩

namespace sample

open store.sample

/-- A remote whose tree holds a file that is never pushed. -/
def remote_with_cache : Git Content where
  fetch := .ok ()
  ls_remote_has := .ok true
  rev_parse := .ok (some "e83c5163316f89bfbde7d9ab23ca2e25604af290")
  ls_tree_r := .ok [⟨"cache.db", .ok (.text "a")⟩]

def plain_host : Host Content := ⟨fun _ _ => true, fun _ => none, true⟩

end sample

end cgx.transport
