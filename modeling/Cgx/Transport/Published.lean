import Cgx.Store.Leftovers
import Cgx.Transport.Tree

open cgx.core cgx.store disk results

namespace cgx.transport

variable {Bytes : Type}

/-! ### What a push publishes -/

/-- Where an object is written. -/
def object_location (c : Codec Bytes) (o : Bytes) : Location :=
  ["objects", String.ofList ((c.of_bytes o).toList.take 2), String.ofList ((c.of_bytes o).toList.drop 2)]

/-- The files of a push whose refs keep the objects `closure`. -/
inductive Published (c : Codec Bytes) (U : Set Bytes) (files : StoreFiles Bytes) (head : Option Bytes)
    (closure : List String) : Location × Bytes → Prop
  | object {o : Bytes} : o ∈ U → c.of_bytes o ∈ closure → Published c U files head closure (object_location c o, o)
  | ref {name : String} {b : Bytes} : files (.ref name) = some b →
      Published c U files head closure (["refs", name], b)
  | head {b : Bytes} : head = some b → Published c U files head closure (["HEAD.json"], b)

section

variable [Inhabited Bytes] {c : Codec Bytes} {U : Set Bytes} {puts : List PutCall} {files : StoreFiles Bytes}
  {head : Option Bytes} {closure : List String}

omit [Inhabited Bytes] in
theorem object_location_inj {a b : Bytes} (h : object_location c a = object_location c b) :
    c.of_bytes a = c.of_bytes b := by
  simp only [object_location, List.cons.injEq, and_true, true_and] at h
  exact blob_path_inj (by rw [blob_path, blob_path, h.1, h.2])

omit [Inhabited Bytes] in
/-- No two files of a push share a path. -/
theorem Published.unique (hinj : Set.InjOn c.of_bytes U) {w w' : Location × Bytes}
    (h : Published c U files head closure w) (h' : Published c U files head closure w') (hloc : w.1 = w'.1) :
    w = w' := by
  cases h with
  | @object o ho _ =>
    cases h' with
    | object ho' _ =>
      have heq := hinj ho ho' (object_location_inj hloc)
      rw [heq]
    | ref _ | head _ => simp [object_location] at hloc
  | ref hfile =>
    cases h' with
    | object _ _ | head _ => simp [object_location] at hloc
    | ref hfile' =>
      cases hloc
      rw [hfile] at hfile'
      cases hfile'
      rfl
  | head hhead =>
    cases h' with
    | object _ _ | ref _ => simp [object_location] at hloc
    | head hhead' =>
      rw [hhead] at hhead'
      cases hhead'
      rfl

/-- What is known of a store between two steps of its runs. -/
structure Steady (c : Codec Bytes) (U : Set Bytes) (puts : List PutCall) (files : StoreFiles Bytes) : Prop where
  inj : Set.InjOn c.of_bytes U
  known : Known c U puts
  inv : Inv c U puts (Disk.settled files)
  leftovers : Leftovers c puts files

/-- What a file among the refs is called, and what it holds. -/
theorem Steady.ref_file (h : Steady c U puts files) {name : String} {b : Bytes}
    (hfile : files (.ref name) = some b) : ∃ put ∈ puts,
      (name = c.of_bytes (c.as_bytes put.key) ∨ name = c.of_bytes (c.as_bytes put.key) ++ ".tmp") ∧
        (b = default ∨ b = put.ref c) := by
  by_cases hreg : Regular (.ref name)
  · obtain ⟨put, hput, _, hpath, hcontents, _⟩ := seen_ref h.inv hreg hfile
    cases hpath
    exact ⟨put, hput, .inl rfl, .inr hcontents⟩
  · obtain ⟨put, hput, hpath, hcontents⟩ := h.leftovers name b hreg hfile
    cases hpath
    exact ⟨put, hput, .inr rfl, hcontents.imp_right And.right⟩

omit [Inhabited Bytes] in
theorem hex_ne {l : List Char} (h : ∀ a ∈ l, is_hex a = true) {x : Char} (hx : is_hex x = false) : x ∉ l := by
  intro hmem
  rw [h x hmem] at hx
  cases hx

omit [Inhabited Bytes] in
theorem plain_hex {l : List Char} (h : ∀ a ∈ l, is_hex a = true) (hne : l ≠ []) : Plain l := by
  refine ⟨hne, ?_, ?_⟩
  · rintro rfl
    cases h '.' List.mem_cons_self
  · rintro rfl
    cases h '.' List.mem_cons_self

theorem Steady.ref_name (h : Steady c U puts files) {name : String} {b : Bytes}
    (hfile : files (.ref name) = some b) : '/' ∉ name.toList ∧ Plain name.toList := by
  obtain ⟨put, _, hname, _⟩ := h.ref_file hfile
  obtain ⟨hlen, hhex⟩ := c.of_bytes_hex (c.as_bytes put.key)
  have hlong : 2 < name.toList.length := by
    rcases hname with rfl | rfl
    · omega
    · rw [String.toList_append, List.length_append]
      omega
  refine ⟨?_, ?_, ?_, ?_⟩
  · rcases hname with rfl | rfl
    · exact hex_ne hhex rfl
    · rw [String.toList_append, List.mem_append, not_or]
      exact ⟨hex_ne hhex rfl, by decide⟩
  all_goals
    intro heq
    rw [heq] at hlong
    simp at hlong

/-- The oids of a call's objects. -/
def Names (c : Codec Bytes) (put : PutCall) (oids : List String) : Prop :=
  ∀ oid, oid ∈ oids ↔ ∃ o ∈ put.objects c, c.of_bytes o = oid

variable (lossy : Lossy c)

/-- A ref keeps its objects, unless its manifest is gone. -/
theorem Steady.ref_closure (h : Steady c U puts files) {put : PutCall} (hput : put ∈ puts) :
    ref_closure c lossy files (put.ref c) = .error .Io ∨
      ∃ oids, ref_closure c lossy files (put.ref c) = .ok oids ∧ Names c put oids := by
  have htext := lossy.from_text _ _ (read_text_ref : c.read_text (put.ref c) = _)
  have hoid : c.of_bytes (put.manifest c) ≠ "" := by
    intro heq
    have hlen := (c.of_bytes_hex (put.manifest c)).1
    rw [heq] at hlen
    cases hlen
  rw [transport.ref_closure, htext, line_zero_ref_text]
  simp only [hoid, if_false, object_path_of_bytes]
  cases hfile : files (.file .objects (String.ofList ((c.of_bytes (put.manifest c)).toList.take 2))
      (String.ofList ((c.of_bytes (put.manifest c)).toList.drop 2))) with
  | none => exact .inl rfl
  | some b =>
    have hmanifest : b = put.manifest c :=
      seen_object h.inj h.inv ((h.known put hput).2 _ manifest_mem_objects) hfile
    subst hmanifest
    refine .inr ⟨c.of_bytes (put.manifest c) ::
      (manifest_of c put.key put.created_rev put.g (put.sk c)).referenced_oids, ?_, fun oid => ⟨?_, ?_⟩⟩
    · simp only [PutCall.manifest, c.decode_header_encode, c.decode_encode_manifest]
      exact if_neg (not_not.mpr rfl)
    · intro hmem
      cases List.mem_cons.mp hmem with
      | inl hfirst => exact ⟨_, manifest_mem_objects, hfirst.symm⟩
      | inr hlater => exact object_of_oid hlater
    · rintro ⟨o, ho, rfl⟩
      exact List.mem_cons.mpr (oid_of_object ho)

/-- The same for any file among the refs; one that was just created keeps nothing. -/
theorem Steady.ref_file_closure (h : Steady c U puts files) {name : String} {b : Bytes}
    (hfile : files (.ref name) = some b) :
    transport.ref_closure c lossy files b = .error .Io ∨
      ∃ oids, transport.ref_closure c lossy files b = .ok oids ∧ (∀ oid ∈ oids, ∃ o ∈ U, c.of_bytes o = oid) ∧
        ∀ put ∈ puts, b = put.ref c → Names c put oids := by
  have hnames : ∀ oids, transport.ref_closure c lossy files b = .ok oids →
      ∀ put ∈ puts, b = put.ref c → Names c put oids := by
    rintro oids hok put hput rfl
    obtain herr | ⟨oids', hok', hnames⟩ := h.ref_closure lossy hput
    · rw [hok] at herr
      cases herr
    · rw [hok] at hok'
      cases hok'
      exact hnames
  obtain ⟨put, hput, _, rfl | rfl⟩ := h.ref_file hfile
  · have hclosure : transport.ref_closure c lossy files default = .ok [] := by
      have hline : line 0 "" = "" := rfl
      rw [transport.ref_closure, lossy.from_empty, hline]
      rfl
    exact .inr ⟨[], hclosure, by simp, hnames [] hclosure⟩
  · refine (h.ref_closure lossy hput).imp_right ?_
    rintro ⟨oids, hok, hput_names⟩
    refine ⟨oids, hok, ?_, hnames oids hok⟩
    intro oid hoid
    obtain ⟨o, ho, hash⟩ := (hput_names oid).mp hoid
    exact ⟨o, (h.known put hput).2 o ho, hash⟩

/-- What the refs `names` keep. -/
structure Kept (c : Codec Bytes) (U : Set Bytes) (puts : List PutCall) (files : StoreFiles Bytes) (names : List String)
    (closure : List String) (ref_files : List (String × Bytes)) : Prop where
  refs : ∀ name b, (name, b) ∈ ref_files ↔ name ∈ names ∧ files (.ref name) = some b
  closed : ∀ put ∈ puts, ∀ name ∈ names, files (.ref name) = some (put.ref c) →
    ∀ o ∈ put.objects c, c.of_bytes o ∈ closure
  objects : ∀ oid ∈ closure, ∃ o ∈ U, c.of_bytes o = oid

theorem Steady.read_refs (h : Steady c U puts files) {names : List String}
    (hnames : ∀ name ∈ names, (files (.ref name)).isSome) :
    read_refs c lossy files names = .error .Io ∨
      ∃ closure ref_files, read_refs c lossy files names = .ok (closure, ref_files) ∧
        Kept c U puts files names closure ref_files := by
  induction names with
  | nil =>
    refine .inr ⟨[], [], rfl, ?_, ?_, ?_⟩
    · simp
    · intro put _ name hname
      cases hname
    · intro oid hoid
      cases hoid
  | cons name rest ih =>
    obtain ⟨bytes, hfile⟩ := Option.isSome_iff_exists.mp (hnames name List.mem_cons_self)
    rw [transport.read_refs, hfile]
    obtain herr | ⟨oids, hok, hobjects, hclosed⟩ := h.ref_file_closure lossy hfile
    · simp only [herr]
      exact .inl trivial
    · obtain herr | ⟨closure, ref_files, hrest, hkept⟩ := ih fun n hn => hnames n (List.mem_cons_of_mem name hn)
      · simp only [hok, herr]
        exact .inl trivial
      · refine .inr ⟨oids ++ closure, (name, bytes) :: ref_files, by simp only [hok, hrest], ?_, ?_, ?_⟩
        · intro n b
          rw [List.mem_cons, List.mem_cons, hkept.refs, Prod.mk.injEq]
          constructor
          · rintro (⟨rfl, rfl⟩ | ⟨hn, hb⟩)
            · exact ⟨.inl rfl, hfile⟩
            · exact ⟨.inr hn, hb⟩
          · rintro ⟨rfl | hn, hb⟩
            · rw [hfile] at hb
              cases hb
              exact .inl ⟨rfl, rfl⟩
            · exact .inr ⟨hn, hb⟩
        · intro put hput n hn hb o ho
          rw [List.mem_append]
          cases List.mem_cons.mp hn with
          | inl hfirst =>
            subst hfirst
            rw [hfile, Option.some_inj] at hb
            exact .inl ((hclosed put hput hb _).mpr ⟨o, ho, rfl⟩)
          | inr hlater => exact .inr (hkept.closed put hput n hlater hb o ho)
        · intro oid hoid
          exact (List.mem_append.mp hoid).elim (hobjects oid) (hkept.objects oid)

variable (git : GitPush Bytes)

omit [Inhabited Bytes] in
/-- The path under which an object is promoted. -/
theorem names_object (c : Codec Bytes) (o : Bytes) :
    names ("objects/" ++ String.ofList ((c.of_bytes o).toList.take 2) ++ "/" ++
      String.ofList ((c.of_bytes o).toList.drop 2)) = object_location c o := by
  have hhex := (c.of_bytes_hex o).2
  have hhead : '/' ∉ (String.ofList ((c.of_bytes o).toList.take 2)).toList := by
    rw [String.toList_ofList]
    exact fun hmem => hex_ne hhex rfl (List.mem_of_mem_take hmem)
  have htail : '/' ∉ (String.ofList ((c.of_bytes o).toList.drop 2)).toList := by
    rw [String.toList_ofList]
    exact fun hmem => hex_ne hhex rfl (List.mem_of_mem_drop hmem)
  have htop : "objects/" = "objects" ++ "/" := rfl
  have hassoc : ∀ a b d : String, "objects" ++ "/" ++ a ++ b ++ d = "objects" ++ "/" ++ (a ++ b ++ d) := by
    intro a b d
    simp only [String.append_assoc]
  rw [htop, hassoc, names_cons (by decide), names_cons hhead, names_single htail]
  rfl

/-- Objects are published under their own path, unless one is gone. -/
theorem Steady.promote (h : Steady c U puts files) {oids : List String}
    (hoids : ∀ oid ∈ oids, ∃ o ∈ U, c.of_bytes o = oid) (root : TreeNode Bytes) :
    (∃ err, promote files git root oids = .error err ∧ err ≠ .Panic) ∨
      ∃ writes, promote files git root oids = .ok (root.insert_all writes) ∧
        ∀ w, w ∈ writes ↔ ∃ o ∈ U, c.of_bytes o ∈ oids ∧ w = (object_location c o, o) := by
  induction oids generalizing root with
  | nil => exact .inr ⟨[], rfl, by simp⟩
  | cons oid rest ih =>
    obtain ⟨o, ho, rfl⟩ := hoids oid List.mem_cons_self
    rw [transport.promote, object_path_of_bytes]
    simp only []
    cases hfile : files (.file .objects (String.ofList ((c.of_bytes o).toList.take 2))
        (String.ofList ((c.of_bytes o).toList.drop 2))) with
    | none => exact .inl ⟨.Io, rfl, by decide⟩
    | some b =>
      have hb : b = o := seen_object h.inj h.inv ho hfile
      subst hb
      simp only [names_object]
      cases git.hash_object_w b with
      | error err => exact .inl ⟨err.1, rfl, err.2⟩
      | ok _ =>
        refine (ih (fun oid hoid => hoids oid (List.mem_cons_of_mem _ hoid)) _).imp_right ?_
        rintro ⟨writes, hok, hwrites⟩
        refine ⟨(object_location c b, b) :: writes, hok, ?_⟩
        intro w
        rw [List.mem_cons, hwrites]
        constructor
        · rintro (rfl | ⟨o, ho, hmem, rfl⟩)
          · exact ⟨b, ho, List.mem_cons_self, rfl⟩
          · exact ⟨o, ho, List.mem_cons_of_mem _ hmem, rfl⟩
        · rintro ⟨o, ho', hmem, rfl⟩
          cases List.mem_cons.mp hmem with
          | inl hfirst =>
            rw [h.inj ho' ho hfirst]
            exact .inl rfl
          | inr hlater => exact .inr ⟨o, ho', hlater, rfl⟩

omit [Inhabited Bytes] in
theorem add_refs_spec (root : TreeNode Bytes) {ref_files : List (String × Bytes)}
    (hnames : ∀ r ∈ ref_files, '/' ∉ r.1.toList) :
    (∃ err, add_refs git root ref_files = .error err ∧ err ≠ .Panic) ∨
      add_refs git root ref_files = .ok (root.insert_all (ref_files.map fun r => (["refs", r.1], r.2))) := by
  induction ref_files generalizing root with
  | nil => exact .inr rfl
  | cons r rest ih =>
    obtain ⟨name, bytes⟩ := r
    have hname : names ("refs/" ++ name) = ["refs", name] := by
      have htop : "refs/" = "refs" ++ "/" := rfl
      rw [htop, names_cons (by decide), names_single (hnames _ List.mem_cons_self)]
    rw [add_refs, hname]
    cases git.hash_object_w bytes with
    | error err => exact .inl ⟨err.1, rfl, err.2⟩
    | ok _ => exact ih _ fun r hr => hnames r (List.mem_cons_of_mem _ hr)

/-- The objects that the refs of a store keep. -/
def Closure (c : Codec Bytes) (puts : List PutCall) (files : StoreFiles Bytes) (closure : List String) : Prop :=
  ∀ put ∈ puts, ∀ name, files (.ref name) = some (put.ref c) → ∀ o ∈ put.objects c, c.of_bytes o ∈ closure

/-- What a tree holds that is built for a push. -/
def Built (c : Codec Bytes) (U : Set Bytes) (puts : List PutCall) (files : StoreFiles Bytes) (head : Option Bytes)
    (tree : TreeNode Bytes) : Prop :=
  ∃ closure, Closure c puts files closure ∧
    ∀ loc b, tree.lookup loc = some b ↔ Published c U files head closure (loc, b)

/-- A tree is built, or nothing happens. -/
theorem Steady.build_committable_tree (h : Steady c U puts files) {refs : Option (List String)}
    (hrefs : ∀ name, name ∈ refs.getD [] ↔ (files (.ref name)).isSome) (head : Option Bytes) :
    (∃ err, build_committable_tree c lossy files git refs head = .error err ∧ err ≠ .Panic) ∨
      ∃ tree count, build_committable_tree c lossy files git refs head = .ok (tree, count) ∧
        Built c U puts files head tree := by
  rw [transport.build_committable_tree]
  obtain herr | ⟨closure, ref_files, hread, hkept⟩ := h.read_refs lossy fun name hname => (hrefs name).mp hname
  · rw [herr]
    exact .inl ⟨.Io, rfl, by decide⟩
  rw [hread, except_bind_ok]
  simp only []
  generalize hsorted : sorting.sort_by compare closure.dedup = oids
  have hmem : ∀ oid, oid ∈ oids ↔ oid ∈ closure := by
    intro oid
    rw [← hsorted, sorting.mem_sort_by, List.mem_dedup]
  obtain ⟨err, herr, hne⟩ | ⟨objects, hpromote, hobjects⟩ :=
    h.promote git (fun oid hoid => hkept.objects oid ((hmem oid).mp hoid)) .empty
  · rw [herr]
    exact .inl ⟨err, rfl, hne⟩
  rw [hpromote, except_bind_ok]
  have hnames : ∀ r ∈ ref_files, '/' ∉ r.1.toList := fun r hr => (h.ref_name ((hkept.refs r.1 r.2).mp hr).2).1
  obtain ⟨err, herr, hne⟩ | hadd := add_refs_spec git (TreeNode.empty.insert_all objects) hnames
  · rw [herr]
    exact .inl ⟨err, rfl, hne⟩
  rw [hadd, except_bind_ok]
  have hhead : (∃ err, add_head git ((TreeNode.empty.insert_all objects).insert_all
        (ref_files.map fun r => (["refs", r.1], r.2))) head = .error err ∧ err ≠ .Panic) ∨
      add_head git ((TreeNode.empty.insert_all objects).insert_all
        (ref_files.map fun r => (["refs", r.1], r.2))) head = .ok (TreeNode.empty.insert_all
          (objects ++ ref_files.map (fun r => (["refs", r.1], r.2)) ++ head.toList.map fun b => (["HEAD.json"], b))) := by
    rw [TreeNode.insert_all_append, TreeNode.insert_all_append]
    cases head with
    | none => exact .inr rfl
    | some b =>
      rw [add_head]
      cases git.hash_object_w b with
      | error err => exact .inl ⟨err.1, rfl, err.2⟩
      | ok _ => exact .inr (by rw [names_single (by decide)]; rfl)
  obtain ⟨err, herr, hne⟩ | hhead := hhead
  · rw [herr]
    exact .inl ⟨err, rfl, hne⟩
  rw [hhead, except_bind_ok]
  cases git.mktree with
  | error err => exact .inl ⟨err.1, rfl, err.2⟩
  | ok _ =>
    refine .inr ⟨_, oids.length, rfl, closure, ?_, ?_⟩
    · intro put hput name hfile
      exact hkept.closed put hput name ((hrefs name).mpr (by rw [hfile]; rfl)) hfile
    · have hwrites : ∀ w : Location × Bytes,
          w ∈ objects ++ ref_files.map (fun r => (["refs", r.1], r.2)) ++ head.toList.map (fun b => (["HEAD.json"], b)) ↔
            Published c U files head closure w := by
        intro w
        rw [List.mem_append, List.mem_append, hobjects, List.mem_map, List.mem_map]
        constructor
        · rintro ((⟨o, ho, hoid, rfl⟩ | ⟨r, hr, rfl⟩) | ⟨b, hb, rfl⟩)
          · exact .object ho ((hmem _).mp hoid)
          · exact .ref ((hkept.refs r.1 r.2).mp hr).2
          · exact .head (Option.mem_toList.mp hb)
        · rintro (⟨ho, hoid⟩ | hfile | hb)
          · exact .inl (.inl ⟨_, ho, (hmem _).mpr hoid, rfl⟩)
          · exact .inl (.inr ⟨_, (hkept.refs _ _).mpr ⟨(hrefs _).mpr (by rw [hfile]; rfl), hfile⟩, rfl⟩)
          · exact .inr ⟨_, Option.mem_toList.mpr hb, rfl⟩
      intro loc b
      rw [TreeNode.lookup_insert_all, hwrites]
      · intro w hw
        cases (hwrites w).mp hw <;> exact List.cons_ne_nil _ _
      · exact fun w hw w' hw' => ((hwrites w).mp hw).unique h.inj ((hwrites w').mp hw')

/-! ### Push -/

omit [Inhabited Bytes] in
theorem advance_ref_error (commit_oid : String) (i attempts : Nat) {err : TransportError}
    (h : advance_ref git commit_oid i attempts = .error err) : err ≠ .Panic := by
  induction attempts generalizing i with
  | zero =>
    cases h
    decide
  | succ attempts ih =>
    rw [advance_ref] at h
    cases hrev : git.rev_parse i with
    | error err' =>
      rw [hrev] at h
      cases h
      exact err'.2
    | ok current =>
      simp only [hrev] at h
      split at h
      · cases h
      · split at h
        · cases h
        · exact ih (i + 1) h
        · rename_i err' _ _
          cases h
          exact err'.2

/-- A push that fails publishes nothing, and moves the local ref only if git's own push is what
failed; one that succeeds publishes a tree of the store's files. -/
theorem Steady.push (h : Steady c U puts files) {refs : Option (List String)}
    (hrefs : ∀ name, name ∈ refs.getD [] ↔ (files (.ref name)).isSome) (head : Option Bytes) :
    (∃ err, (push c lossy files git refs head).result = .error err ∧ err ≠ .Panic ∧
      (push c lossy files git refs head).published = none ∧
        ((push c lossy files git refs head).moved = true → ∃ err, git.push = .error err)) ∨
    ∃ outcome tree, (push c lossy files git refs head).result = .ok outcome ∧
      (push c lossy files git refs head).published = some tree ∧ Built c U puts files head tree := by
  rw [transport.push]
  obtain ⟨err, herr, hne⟩ | ⟨tree, count, hok, hbuilt⟩ := h.build_committable_tree lossy git hrefs head
  · rw [herr]
    exact .inl ⟨err, rfl, hne, rfl, nofun⟩
  rw [hok]
  simp only []
  split
  · exact .inl ⟨_, rfl, by decide, rfl, nofun⟩
  cases git.commit_tree tree with
  | error err => exact .inl ⟨err.1, rfl, err.2, rfl, nofun⟩
  | ok commit_oid =>
    simp only []
    cases hadvance : advance_ref git commit_oid 0 8 with
    | error err => exact .inl ⟨err, rfl, advance_ref_error git commit_oid 0 8 hadvance, rfl, nofun⟩
    | ok ref_advanced =>
      simp only []
      cases hpush : git.push with
      | error err => exact .inl ⟨err.1, rfl, err.2, rfl, fun _ => ⟨err, rfl⟩⟩
      | ok _ => exact .inr ⟨_, tree, rfl, rfl, hbuilt⟩

end

end cgx.transport
