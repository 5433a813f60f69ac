import Cgx.Store.Retain
import Cgx.Transport.Published

open cgx.core cgx.store disk results

namespace cgx.transport

variable {Bytes : Type}

section

variable [Inhabited Bytes] {c : Codec Bytes} {U : Set Bytes} {puts : List PutCall} {files : StoreFiles Bytes}
  {head : Option Bytes} {closure : List String}

/-! ### Pull -/

/-- A listing of a tree: all its blobs, each under its path. -/
structure Listed (tree : TreeNode Bytes) (entries : List (TreeEntry Bytes)) : Prop where
  sound : ∀ e ∈ entries, ∃ b, e.cat_file_blob = .ok b ∧ tree.lookup (names e.path) = some b
  complete : ∀ path b, tree.lookup (names path) = some b → ∃ e ∈ entries, e.path = path

omit [Inhabited Bytes] in
/-- The tree of a list of files is listed by them. -/
theorem listed_insert_all (fs : List (String × Bytes)) (hone : ∀ f ∈ fs, ∀ f' ∈ fs, f.1 = f'.1 → f = f') :
    Listed (TreeNode.empty.insert_all (fs.map fun f => (names f.1, f.2))) (fs.map fun f => ⟨f.1, .ok f.2⟩) := by
  have hlookup : ∀ path b, (TreeNode.empty.insert_all (fs.map fun f => (names f.1, f.2))).lookup (names path) = some b ↔
      (path, b) ∈ fs := by
    intro path b
    rw [TreeNode.lookup_insert_all]
    · constructor
      · intro hmem
        obtain ⟨f, hf, heq⟩ := List.mem_map.mp hmem
        rw [Prod.mk.injEq] at heq
        rw [← names_inj heq.1, ← heq.2]
        exact hf
      · exact fun hmem => List.mem_map_of_mem (f := fun f : String × Bytes => (names f.1, f.2)) hmem
    · rintro w hw hnil
      obtain ⟨f, _, rfl⟩ := List.mem_map.mp hw
      exact List.splitOn_ne_nil _ _ (List.map_eq_nil_iff.mp hnil)
    · intro w hw w' hw' heq
      obtain ⟨f, hf, rfl⟩ := List.mem_map.mp hw
      obtain ⟨f', hf', rfl⟩ := List.mem_map.mp hw'
      rw [hone f hf f' hf' (names_inj heq)]
  constructor
  · intro e he
    obtain ⟨f, hf, rfl⟩ := List.mem_map.mp he
    exact ⟨f.2, rfl, (hlookup f.1 f.2).mpr hf⟩
  · intro path b hpath
    exact ⟨_, List.mem_map_of_mem ((hlookup path b).mp hpath), rfl⟩

theorem Steady.plain (h : Steady c U puts files) {w : Location × Bytes}
    (hw : Published c U files head closure w) : ∀ name ∈ w.1, '/' ∉ name.toList ∧ Plain name.toList := by
  intro name hname
  cases hw with
  | @object o _ _ =>
    obtain ⟨hlen, hhex⟩ := c.of_bytes_hex o
    simp only [object_location, List.mem_cons, List.not_mem_nil, or_false] at hname
    rcases hname with rfl | rfl | rfl
    · exact ⟨by decide, by decide, by decide, by decide⟩
    · rw [String.toList_ofList]
      have htake : ∀ a ∈ (c.of_bytes o).toList.take 2, is_hex a = true := fun a ha => hhex a (List.mem_of_mem_take ha)
      exact ⟨hex_ne htake rfl, plain_hex htake (List.ne_nil_of_length_pos (by rw [List.length_take]; omega))⟩
    · rw [String.toList_ofList]
      have hdrop : ∀ a ∈ (c.of_bytes o).toList.drop 2, is_hex a = true := fun a ha => hhex a (List.mem_of_mem_drop ha)
      exact ⟨hex_ne hdrop rfl, plain_hex hdrop (List.ne_nil_of_length_pos (by rw [List.length_drop]; omega))⟩
  | ref hfile =>
    simp only [List.mem_cons, List.not_mem_nil, or_false] at hname
    rcases hname with rfl | rfl
    · exact ⟨by decide, by decide, by decide, by decide⟩
    · exact h.ref_name hfile
  | head _ =>
    rw [List.mem_singleton.mp hname]
    exact ⟨by decide, by decide, by decide, by decide⟩

omit [Inhabited Bytes] in
/-- What a push publishes passes the check of its hash. -/
theorem Published.passes {host : Host Bytes} (haccepts : ∀ loc b, host.accepts loc b = true) {e : TreeEntry Bytes}
    {b : Bytes} (hblob : e.cat_file_blob = .ok b) (h : Published c U files head closure (names e.path, b)) :
    passes c host e = true := by
  rw [transport.passes, hblob]
  cases hobject : object_rest e.path with
  | none => rfl
  | some rest =>
    simp only [haccepts, Bool.and_true, decide_eq_true_eq]
    have hnames : names ("objects" ++ "/" ++ String.ofList rest) = _ := names_cons (by decide) _
    rw [← object_rest_eq hobject] at hnames
    generalize hloc : names e.path = loc at h
    rw [hnames] at hloc
    cases h with
    | object _ _ =>
      have hhex := (c.of_bytes_hex b).2
      simp only [object_location, List.cons.injEq, true_and] at hloc
      have hpieces : rest.splitOn '/' = [(c.of_bytes b).toList.take 2, (c.of_bytes b).toList.drop 2] := by
        apply List.map_injective_iff.mpr (fun _ _ => String.ofList_inj.mp)
        rw [names, String.toList_ofList] at hloc
        exact hloc
      have hrest : rest = (c.of_bytes b).toList.take 2 ++ '/' :: (c.of_bytes b).toList.drop 2 := by
        have hjoin := congrArg (List.intercalate ['/']) hpieces
        rw [List.intercalate_splitOn] at hjoin
        rw [hjoin]
        simp [List.intercalate]
      have hkeep : ∀ l : List Char, (∀ a ∈ l, a ∈ (c.of_bytes b).toList) → l.filter (fun a => a ≠ '/') = l := by
        intro l hl
        rw [List.filter_eq_self]
        intro a ha
        have hne : a ≠ '/' := by
          rintro rfl
          exact hex_ne hhex rfl (hl _ ha)
        simpa using hne
      apply String.toList_inj.mp
      rw [spelled_oid, String.toList_ofList, hrest, List.filter_append, List.filter_cons_of_neg (by simp),
        hkeep _ fun a ha => List.mem_of_mem_take ha, hkeep _ fun a ha => List.mem_of_mem_drop ha,
        List.take_append_drop]
    | ref _ => simp at hloc
    | head _ => simp at hloc

omit [Inhabited Bytes] in
theorem write_of_pointer {e : TreeEntry Bytes} (h : is_object e = false) :
    write_of e = (e.cat_file_blob.toOption.map fun bytes => (e.path, bytes)).map fun p => (join [] p.1.toList, p.2) := by
  rw [is_object, Option.isSome_eq_false_iff, Option.isNone_iff_eq_none] at h
  rw [write_of]
  cases e.cat_file_blob with
  | error err => rfl
  | ok bytes => rw [h]; rfl

omit [Inhabited Bytes] in
theorem mem_pointer_writes {entries : List (TreeEntry Bytes)} {w : Location × Bytes} :
    w ∈ pointer_writes entries ↔ ∃ e ∈ entries, is_object e = false ∧ write_of e = some w := by
  rw [pointer_writes, pointers, List.mem_map]
  constructor
  · rintro ⟨p, hp, rfl⟩
    obtain ⟨e, he, hblob⟩ := List.mem_filterMap.mp hp
    obtain ⟨he, his⟩ := List.mem_filter.mp he
    have his : is_object e = false := by simpa using his
    exact ⟨e, he, his, by rw [write_of_pointer his, hblob]; rfl⟩
  · rintro ⟨e, he, his, hw⟩
    rw [write_of_pointer his, Option.map_eq_some_iff] at hw
    obtain ⟨p, hblob, heq⟩ := hw
    exact ⟨p, List.mem_filterMap.mpr ⟨e, List.mem_filter.mpr ⟨he, by rw [his]; rfl⟩, hblob⟩, heq⟩

/-- A pull of what was pushed writes just that. -/
theorem Steady.mem_arriving (h : Steady c U puts files) {host : Host Bytes}
    (haccepts : ∀ loc b, host.accepts loc b = true) (hdurable : host.durable = true) {tree : TreeNode Bytes}
    (htree : ∀ loc b, tree.lookup loc = some b ↔ Published c U files head closure (loc, b))
    {entries : List (TreeEntry Bytes)} (hlisted : Listed tree entries) :
    lands c host entries = true ∧ accepted_writes host entries = pointer_writes entries ∧
      ∀ w, w ∈ arriving c host entries ↔ Published c U files head closure w := by
  have hpublished : ∀ e ∈ entries, ∃ b, e.cat_file_blob = .ok b ∧
      Published c U files head closure (names e.path, b) := by
    intro e he
    obtain ⟨b, hblob, hlookup⟩ := hlisted.sound e he
    exact ⟨b, hblob, (htree _ b).mp hlookup⟩
  have hpasses : ∀ e ∈ entries, passes c host e = true := by
    intro e he
    obtain ⟨b, hblob, hpub⟩ := hpublished e he
    exact hpub.passes haccepts hblob
  have hwrite : ∀ e ∈ entries, ∃ b, e.cat_file_blob = .ok b ∧ write_of e = some (names e.path, b) := by
    intro e he
    obtain ⟨b, hblob, hpub⟩ := hpublished e he
    exact ⟨b, hblob, write_of_plain hblob fun name hname => (h.plain hpub name hname).2⟩
  have hlands : lands c host entries = true := by
    rw [lands, List.all_eq_true.mpr hpasses, hdurable]
    rfl
  have haccepted : accepted_writes host entries = pointer_writes entries := by
    rw [accepted_writes, List.takeWhile_eq_self_iff]
    exact fun w _ => haccepts w.1 w.2
  have hobjects : ∀ w, w ∈ object_writes c host entries ↔ ∃ e ∈ entries, is_object e = true ∧ write_of e = some w := by
    intro w
    rw [object_writes, List.takeWhile_eq_self_iff.mpr hpasses, List.mem_filterMap]
    simp only [List.mem_filter, and_assoc]
  refine ⟨hlands, haccepted, ?_⟩
  intro w
  have hall : w ∈ arriving c host entries ↔ ∃ e ∈ entries, write_of e = some w := by
    rw [arriving, hlands, if_pos rfl, haccepted, List.mem_append, hobjects, mem_pointer_writes]
    constructor
    · rintro (⟨e, he, _, hw⟩ | ⟨e, he, _, hw⟩)
      · exact ⟨e, he, hw⟩
      · exact ⟨e, he, hw⟩
    · rintro ⟨e, he, hw⟩
      cases his : is_object e with
      | true => exact .inl ⟨e, he, his, hw⟩
      | false => exact .inr ⟨e, he, his, hw⟩
  rw [hall]
  constructor
  · rintro ⟨e, he, hw⟩
    obtain ⟨b, hblob, hpub⟩ := hpublished e he
    rw [write_of_plain hblob fun name hname => (h.plain hpub name hname).2] at hw
    cases hw
    exact hpub
  · intro hw
    have hne : w.1 ≠ [] := by cases hw <;> exact List.cons_ne_nil _ _
    obtain ⟨path, hpath⟩ := exists_path hne fun name hname => (h.plain hw name hname).1
    obtain ⟨e, he, rfl⟩ := hlisted.complete path w.2 (by rw [hpath]; exact (htree _ _).mpr hw)
    obtain ⟨b, hblob, hpub⟩ := hpublished e he
    refine ⟨e, he, ?_⟩
    rw [write_of_plain hblob fun name hname => (h.plain hpub name hname).2]
    rw [hpath] at hpub ⊢
    rw [hpub.unique h.inj hw rfl]

omit [Inhabited Bytes] in
theorem foldl_replace_other {ws : List (Location × Bytes)} {loc : Location} (htmp : ∀ w ∈ ws, loc ≠ tmp w.1)
    (hloc : ∀ w ∈ ws, loc ≠ w.1) (before : Location → Option Bytes) : ws.foldl replace before loc = before loc := by
  induction ws generalizing before with
  | nil => rfl
  | cons w rest ih =>
    rw [List.foldl_cons, ih (fun w' hw' => htmp w' (List.mem_cons_of_mem w hw'))
      fun w' hw' => hloc w' (List.mem_cons_of_mem w hw')]
    rw [replace, Function.update_of_ne (hloc w List.mem_cons_self), Function.update_of_ne (htmp w List.mem_cons_self)]

omit [Inhabited Bytes] in
/-- What a file holds that is no temporary file and written with one contents. -/
theorem foldl_replace_mem {ws : List (Location × Bytes)} {loc : Location} {b : Bytes} (htmp : ∀ w ∈ ws, loc ≠ tmp w.1)
    (hone : ∀ w ∈ ws, loc = w.1 → w = (loc, b)) (hmem : (loc, b) ∈ ws) (before : Location → Option Bytes) :
    ws.foldl replace before loc = some b := by
  induction ws generalizing before with
  | nil => cases hmem
  | cons w rest ih =>
    have htmp' : ∀ w' ∈ rest, loc ≠ tmp w'.1 := fun w' hw' => htmp w' (List.mem_cons_of_mem w hw')
    have hone' : ∀ w' ∈ rest, loc = w'.1 → w' = (loc, b) := fun w' hw' => hone w' (List.mem_cons_of_mem w hw')
    rw [List.foldl_cons]
    by_cases hlater : (loc, b) ∈ rest
    · exact ih htmp' hone' hlater _
    · have hw : w = (loc, b) := ((List.mem_cons.mp hmem).resolve_right hlater).symm
      rw [foldl_replace_other htmp', replace, hw, Function.update_self]
      intro w' hw' heq
      rw [hone' w' hw' heq] at hw'
      exact hlater hw'

omit [Inhabited Bytes] in
/-- A name of hex digits is not that of a temporary file. -/
theorem hex_ne_tmp {loc : Location} {name : String} (hlast : loc.getLast? = some name)
    (hhex : ∀ a ∈ name.toList, is_hex a = true) (other : Location) : loc ≠ tmp other := by
  rintro rfl
  rw [tmp, List.getLast?_concat, Option.some_inj] at hlast
  exact hex_not_tmp hhex hlast.symm

/-- The files of the store after a pull into an empty clone. -/
theorem Steady.pulled (h : Steady c U puts files) {ws : List (Location × Bytes)}
    (hws : ∀ w, w ∈ ws ↔ Published c U files head closure w) :
    (∀ name, (∀ a ∈ name.toList, is_hex a = true) →
      ws.foldl replace (fun _ => none) ["refs", name] = files (.ref name)) ∧
    (∀ o ∈ U, c.of_bytes o ∈ closure →
      ws.foldl replace (fun _ => none) (object_location c o) = some o) ∧
    ws.foldl replace (fun _ => none) ["HEAD.json"] = head := by
  have hone : ∀ {w}, Published c U files head closure w → ∀ w' ∈ ws, w.1 = w'.1 → w' = (w.1, w.2) :=
    fun hw w' hw' heq => (((hws w').mp hw').unique h.inj hw heq.symm)
  refine ⟨?_, ?_, ?_⟩
  · intro name hhex
    have htmp : ∀ w ∈ ws, (["refs", name] : Location) ≠ tmp w.1 := fun w _ => hex_ne_tmp rfl hhex w.1
    cases hfile : files (.ref name) with
    | some b =>
      have hpub : Published c U files head closure (["refs", name], b) := .ref hfile
      exact foldl_replace_mem htmp (hone hpub) ((hws _).mpr hpub) _
    | none =>
      apply foldl_replace_other htmp
      rintro w hw heq
      cases (hws w).mp hw with
      | object _ _ | head _ => simp [object_location] at heq
      | ref hother =>
        cases heq
        rw [hfile] at hother
        cases hother
  · intro o ho hoid
    have hpub : Published c U files head closure (object_location c o, o) := .object ho hoid
    have hhex : ∀ a ∈ (String.ofList ((c.of_bytes o).toList.drop 2)).toList, is_hex a = true := by
      rw [String.toList_ofList]
      exact fun a ha => (c.of_bytes_hex o).2 a (List.mem_of_mem_drop ha)
    exact foldl_replace_mem (fun w _ => hex_ne_tmp rfl hhex w.1) (hone hpub) ((hws _).mpr hpub) _
  · have htmp : ∀ w ∈ ws, (["HEAD.json"] : Location) ≠ tmp w.1 := fun w _ => pointer_ne_tmp (.inl rfl) w.1
    cases hhead : head with
    | some b =>
      have hpub : Published c U files head closure (["HEAD.json"], b) := .head hhead
      exact foldl_replace_mem htmp (hone hpub) ((hws _).mpr hpub) _
    | none =>
      apply foldl_replace_other htmp
      rintro w hw heq
      cases (hws w).mp hw with
      | object _ _ | ref _ => simp [object_location] at heq
      | head hother =>
        rw [hhead] at hother
        cases hother

/-- Every key reads the same from the pulled files. -/
theorem Steady.read_graph_pulled (h : Steady c U puts files) (hclosure : Closure c puts files closure)
    {ws : List (Location × Bytes)} (hws : ∀ w, w ∈ ws ↔ Published c U files head closure w) (key : String) :
    read_graph c (store_files (ws.foldl replace fun _ => none)) key = read_graph c files key := by
  obtain ⟨hrefs, hobjects, _⟩ := h.pulled hws
  have href : store_files (ws.foldl replace fun _ => none) (ref_path c key) = files (ref_path c key) :=
    hrefs _ (c.of_bytes_hex _).2
  cases hfile : files (ref_path c key) with
  | none =>
    rw [read_graph_absent hfile, read_graph_absent (href.trans hfile)]
  | some b =>
    obtain ⟨put, hput, ⟨hcheck, hsk⟩, hpath, hcontents, hplace⟩ := seen_ref h.inv (regular_ref key) hfile
    have hkey : ∀ files' : StoreFiles Bytes, read_graph c files' key = read_graph c files' put.key := by
      intro files'
      have hsame : ref_path c key = ref_path c put.key := hpath
      rw [read_graph, read_graph, resolve_manifest, resolve_manifest, hsame]
    have hpulled : InPlace c (store_files (ws.foldl replace fun _ => none)) put.key put.created_rev put.g (put.sk c) := by
      have hsame : ref_path c key = ref_path c put.key := hpath
      refine ⟨?_, ?_⟩
      · intro o ho
        have hstored : files (.ref (c.of_bytes (c.as_bytes key))) = some (put.ref c) := hfile.trans (by rw [hcontents])
        exact hobjects o ((h.known put hput).2 o ho) (hclosure put hput _ hstored o ho)
      · rw [← hsame, href, hfile, hcontents]
        rfl
    rw [hkey, hkey files, hpulled.read_graph hcheck hsk, hplace.read_graph hcheck hsk]

end

/-- A clone pulls the tree that was pushed, and nothing refuses its files. -/
structure Receives (tree : TreeNode Bytes) (git : Git Bytes) (host : Host Bytes) : Prop where
  listed : ∃ entries, published git = some entries ∧ Listed tree entries
  accepts : ∀ loc b, host.accepts loc b = true
  durable : host.durable = true

/-- A push never aborts. One that fails does not move the remote's ref, and the local one only
if it is git's own push that failed; after one that succeeds, a pull into an empty clone
succeeds, and every key and the head pointer read the same there. -/
theorem push_then_pull [Inhabited Bytes] (c : Codec Bytes) (lossy : Lossy c) (git : GitPush Bytes)
    {s : System Bytes} (hrun : System.Reached c Running s)
    (hinj : Set.InjOn c.of_bytes (System.involved c s.puts)) (refs : Option (List String))
    (hrefs : ∀ name, name ∈ refs.getD [] ↔ (s.disk.files (.ref name)).isSome) (head : Option Bytes) :
    (∀ err, (push c lossy s.disk.files git refs head).result = .error err → err ≠ .Panic ∧
      (push c lossy s.disk.files git refs head).published = none ∧
        ((push c lossy s.disk.files git refs head).moved = true → ∃ err, git.push = .error err)) ∧
    ∀ outcome, (push c lossy s.disk.files git refs head).result = .ok outcome →
      ∃ tree, (push c lossy s.disk.files git refs head).published = some tree ∧
        ∀ clone host, Receives tree clone host →
          (∃ outcome, (pull c host clone fun _ => none).2 = .ok outcome) ∧
          (∀ key, read_graph c (store_files (pull c host clone fun _ => none).1.files) key =
            read_graph c s.disk.files key) ∧
          (pull c host clone fun _ => none).1.files ["HEAD.json"] = head := by
  have hknown := System.known_involved (c := c) s.puts
  have hsteady : Steady c (System.involved c s.puts) s.puts s.disk.files :=
    ⟨hinj, hknown, (hrun.sound hinj hknown).inv, hrun.leftovers⟩
  obtain ⟨err, herr, hne, hpublished, hmoved⟩ | ⟨outcome, tree, hok, hpublished, closure, hclosure, htree⟩ :=
    hsteady.push lossy git hrefs head
  · constructor
    · intro err' herr'
      rw [herr] at herr'
      cases herr'
      exact ⟨hne, hpublished, hmoved⟩
    · intro outcome hok
      rw [herr] at hok
      cases hok
  · constructor
    · intro err herr
      rw [hok] at herr
      cases herr
    · intro _ _
      refine ⟨tree, hpublished, ?_⟩
      rintro clone host ⟨⟨entries, hentries, hlisted⟩, haccepts, hdurable⟩
      obtain ⟨hlands, haccepted, hws⟩ := hsteady.mem_arriving haccepts hdurable htree hlisted
      obtain ⟨outcome', hpull⟩ := (pull_lands (fun _ => none) hentries hlands).1 haccepted
      rw [hpull]
      exact ⟨⟨outcome', rfl⟩, hsteady.read_graph_pulled hclosure hws, (hsteady.pulled hws).2.2⟩

/-! ### A push by example -/

namespace sample

open store.sample

def lossy : Lossy codec where
  from_utf8_lossy b := (codec.read_text b).getD ""
  from_text _ _ h := by rw [h]; rfl
  from_empty := rfl

/-- A git that stores what it is given, and what it says of the push. -/
def storing (push : Answer Unit) : GitPush Content where
  hash_object_w _ := .ok ()
  mktree := .ok ()
  commit_tree _ := .ok "e83c5163316f89bfbde7d9ab23ca2e25604af290"
  rev_parse _ := .ok none
  update_ref_cas _ := .ok ()
  push := push

def rejected : Answer Unit :=
  .error ⟨.Git "push" "! [remote rejected] refs/cgx/index -> refs/cgx/index", by decide⟩

def ref_name : String := codec.of_bytes (.text "a")

theorem lists_ref_name (name : String) :
    name ∈ [ref_name] ↔ ((stored_under "a").disk.files (.ref name)).isSome = true := by
  constructor
  · intro hname
    rw [List.mem_singleton.mp hname]
    decide
  · intro hname
    have hlisted : name ∈ (listing_of "a").filterMap fun p =>
        match p with
        | .ref name => if ((stored_under "a").disk.files (.ref name)).isSome = true then some name else none
        | _ => none :=
      List.mem_filterMap.mpr ⟨.ref name, lists_listing_of "a" _ hname, if_pos hname⟩
    have hall : ∀ name ∈ (listing_of "a").filterMap fun p =>
        (match p with
        | .ref name => if ((stored_under "a").disk.files (.ref name)).isSome = true then some name else none
        | _ => none : Option String), name = ref_name := by decide
    exact List.mem_singleton.mpr (hall name hlisted)

theorem stored_involved : Set.InjOn codec.of_bytes (System.involved codec (stored_under "a").puts) := by
  have hall : ∀ o ∈ (put_under "a").objects codec, o ∈ digests.map Prod.fst := by decide
  have hkey : codec.as_bytes (put_under "a").key ∈ digests.map Prod.fst := by decide
  apply injOn_contents.mono
  rintro b ⟨put, hput, hb⟩
  rw [List.mem_singleton.mp hput] at hb
  cases hb with
  | inl heq => exact heq ▸ hkey
  | inr hmem => exact hall b hmem

/-- The files of the store that are pushed. -/
def pushed_files : List (String × Content) :=
  [("objects/29/857d4e0945c891a8f233b769a2e45e6273377e", .manifest (manifest "a")),
    ("objects/4e/de35c8fea70938f9286d2037db108afef0e45b", .shard shard),
    ("refs/86f7e437faa5a7fce15d1ddcb9eaeaea377667b8", .text "29857d4e0945c891a8f233b769a2e45e6273377e\na\n"),
    ("HEAD.json", .text "b")]

/-- A clone whose remote has them. -/
def clone : Git Content where
  fetch := .ok ()
  ls_remote_has := .ok true
  rev_parse := .ok (some "e83c5163316f89bfbde7d9ab23ca2e25604af290")
  ls_tree_r := .ok (pushed_files.map fun f => ⟨f.1, .ok f.2⟩)

end sample

open store.sample sample in
theorem push_then_pull_one :
    (push codec lossy (stored_under "a").disk.files (storing (.ok ())) (some [ref_name])
      (some (.text "b"))).published = some (TreeNode.empty.insert_all (pushed_files.map fun f => (names f.1, f.2))) ∧
    read_graph codec (store_files (pull codec plain_host clone fun _ => none).1.files) "a" = .ok graph ∧
    (pull codec plain_host clone fun _ => none).1.files ["HEAD.json"] = some (.text "b") := by
  have hpush : push codec lossy (stored_under "a").disk.files (storing (.ok ())) (some [ref_name]) (some (.text "b")) =
      ⟨true, some (TreeNode.empty.insert_all (pushed_files.map fun f => (names f.1, f.2))),
        .ok ⟨"e83c5163316f89bfbde7d9ab23ca2e25604af290", true, 2⟩⟩ := by
    rfl
  obtain ⟨_, hok⟩ := push_then_pull codec lossy (storing (.ok ())) (stored_under_reached "a") stored_involved
    (some [ref_name]) lists_ref_name (some (.text "b"))
  rw [hpush] at hok ⊢
  obtain ⟨tree, htree, hall⟩ := hok _ rfl
  rw [Option.some_inj] at htree
  subst htree
  have hreceives : Receives (TreeNode.empty.insert_all (pushed_files.map fun f => (names f.1, f.2))) clone plain_host :=
    ⟨⟨_, rfl, listed_insert_all pushed_files (by decide)⟩, fun _ _ => rfl, rfl⟩
  obtain ⟨_, hread, hhead⟩ := hall clone plain_host hreceives
  refine ⟨rfl, ?_, hhead⟩
  rw [hread "a"]
  decide

open store.sample sample in
/-- When the remote rejects the push, the local ref has moved already. -/
theorem local_ref_moves_alone : ¬ ∀ (git : GitPush Content) (s : System Content) (refs : Option (List String))
    (head : Option Content), System.Reached codec Running s → Set.InjOn codec.of_bytes (System.involved codec s.puts) →
      (∀ name, name ∈ refs.getD [] ↔ (s.disk.files (.ref name)).isSome = true) →
        (push codec lossy s.disk.files git refs head).moved = true →
          ∃ outcome, (push codec lossy s.disk.files git refs head).result = .ok outcome := by
  intro h
  obtain ⟨outcome, hok⟩ := h (storing rejected) (stored_under "a") (some [ref_name]) none (stored_under_reached "a")
    stored_involved lists_ref_name (by decide)
  have hfails : (push codec lossy (stored_under "a").disk.files (storing rejected) (some [ref_name])
      none).result.toOption = none := by decide
  rw [hok] at hfails
  cases hfails

end cgx.transport
