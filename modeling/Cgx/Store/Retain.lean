import Cgx.Store.Reader

open cgx.core disk

namespace cgx.store

variable {Bytes : Type} [Inhabited Bytes] {c : Codec Bytes} {U : Set Bytes} {puts : List PutCall}
  {files files' : StoreFiles Bytes} {keep : List String}

/-! ### What a prune is for -/

/-- Kept keys read as before, other keys read as absent, and every object that is left
belongs to a kept key whose graph is in place. -/
structure Collected (c : Codec Bytes) (U : Set Bytes) (puts : List PutCall) (keep : List String)
    (files files' : StoreFiles Bytes) : Prop where
  kept : ∀ key, c.as_bytes key ∈ U → key ∈ keep → read_graph c files' key = read_graph c files key
  absent : ∀ key, c.as_bytes key ∈ U → key ∉ keep →
    graph_for c files' key = false ∧ read_graph c files' key = .ok .empty
  reachable : ∀ head rest b, files' (.file .objects head rest) = some b → ∃ put ∈ puts, put.key ∈ keep ∧
    InPlace c files' put.key put.created_rev put.g (put.sk c) ∧
      ∃ o ∈ put.objects c, Path.file .objects head rest = blob_path c o

/-- Each stored key is kept if and only if the key read back from its ref is. A kept key
whose graph is empty may also be dropped: it reads the same. -/
def LinesAgree (c : Codec Bytes) (U : Set Bytes) (keep : List String) (files : StoreFiles Bytes) : Prop :=
  ∀ key, c.as_bytes key ∈ U → graph_for c files key = true →
    (key ∈ keep → key_line key ∈ keep ∨ read_graph c files key = .ok .empty) ∧
      (key ∉ keep → key_line key ∉ keep)

omit [Inhabited Bytes] in
theorem graph_for_iff {key : String} :
    graph_for c files key = true ↔ ∃ b, files (ref_path c key) = some b := by
  rw [graph_for, Option.isSome_iff_exists]

omit [Inhabited Bytes] in
theorem graph_for_of_none {key : String} (h : files (ref_path c key) = none) :
    graph_for c files key = false := by
  rw [graph_for, h]
  rfl

omit [Inhabited Bytes] in
theorem InPlace.graph_for {put : PutCall}
    (h : InPlace c files put.key put.created_rev put.g (put.sk c)) :
    graph_for c files put.key = true :=
  graph_for_iff.mpr ⟨_, h.ref⟩

omit [Inhabited Bytes] in
/-- A prune does what it is for exactly when the keys read back from the refs agree with
the keys themselves. -/
theorem collected_iff (hinj : Set.InjOn c.of_bytes U) (hknown : Known c U puts)
    (hinv : Inv c U puts (Disk.settled files)) (h : Pruned c puts keep files files') :
    Collected c U puts keep files files' ↔ LinesAgree c U keep files := by
  constructor
  · intro hcollected key hkey hstored
    obtain ⟨b, hb⟩ := graph_for_iff.mp hstored
    obtain ⟨put, _, _, rfl, rfl, hplace⟩ := seen_ref_of_key hinj hknown hinv hkey hb
    refine ⟨fun hkeep => ?_, fun hkeep hline => ?_⟩
    · by_cases hline : key_line put.key ∈ keep
      · exact .inl hline
      · have hgone := h.dropped put hb hline
        right
        rw [← hcollected.kept _ hkey hkeep]
        exact read_graph_absent hgone
    · have hleft := (h.kept put hplace hline).graph_for
      rw [(hcollected.absent _ hkey hkeep).1] at hleft
      cases hleft
  · intro hagree
    refine ⟨?_, ?_, ?_⟩
    · intro key hkey hkeep
      cases hfile : files (ref_path c key) with
      | none => rw [read_graph_absent hfile, read_graph_absent (h.absent _ hfile)]
      | some b =>
        obtain ⟨put, _, haccepted, rfl, rfl, hplace⟩ := seen_ref_of_key hinj hknown hinv hkey hfile
        by_cases hline : key_line put.key ∈ keep
        · rw [hplace.read_graph haccepted.1 haccepted.2,
            (h.kept put hplace hline).read_graph haccepted.1 haccepted.2]
        · have hempty := ((hagree _ hkey hplace.graph_for).1 hkeep).resolve_left hline
          rw [hempty]
          exact read_graph_absent (h.dropped put hfile hline)
    · intro key hkey hkeep
      have hgone : files' (ref_path c key) = none := by
        cases hfile : files (ref_path c key) with
        | none => exact h.absent _ hfile
        | some b =>
          obtain ⟨put, _, _, rfl, rfl, hplace⟩ := seen_ref_of_key hinj hknown hinv hkey hfile
          exact h.dropped put hfile ((hagree _ hkey hplace.graph_for).2 hkeep)
      exact ⟨graph_for_of_none hgone, read_graph_absent hgone⟩
    · intro head rest b hb
      obtain ⟨put, hput, hplace, hline, o, ho, hpath⟩ := h.swept head rest b hb
      refine ⟨put, hput, ?_, h.kept put hplace hline, o, ho, hpath⟩
      by_contra hkeep
      exact (hagree _ (hknown put hput).1 hplace.graph_for).2 hkeep hline

/-! ### Prunes and readers over whole runs -/

namespace System

/-- In every state that runs without power loss reach: a prune succeeds, and does what it
is for exactly when the keys read back agree. And whatever writers do while `read_graph`
takes its steps, a graph it returns that is not empty was stored under its key, and it finds
an object corrupt only if one of the graph whose ref it read was removed meanwhile, which
no put does. -/
theorem prune_and_read {s : System Bytes} (hrun : Reached c Running s) :
    (∀ U : Set Bytes, Set.InjOn c.of_bytes U → Known c U s.puts →
      ∀ listing keep, Lists s.disk.files listing →
        (∃ removed, (prune_graphs_except c (.start s.disk.files) listing keep).2 = .ok removed) ∧
        (Collected c U s.puts keep s.disk.files
            (prune_graphs_except c (.start s.disk.files) listing keep).1.files ↔
          LinesAgree c U keep s.disk.files)) ∧
    (∀ key x, Reading.Run c s key x →
      ∀ U : Set Bytes, Set.InjOn c.of_bytes U → Known c U x.sys.puts → c.as_bytes key ∈ U →
        (∀ g, x.reader = .done (.ok g) → g ≠ .empty →
          ∃ put ∈ x.sys.puts, put.Accepted c ∧ put.key = key ∧ put.g = g) ∧
        (∀ oid, x.reader = .done (.error (.Corrupt oid)) →
          ∃ put ∈ x.sys.puts, put.key = key ∧ x.seen = some (put.ref c) ∧
            ∃ o ∈ put.objects c, c.of_bytes o = oid ∧ blob_path c o ∈ x.gone)) ∧
    (∀ files put p, .remove p ∉ put_log c files put) := by
  refine ⟨?_, ?_, fun files put p => put_log_removes_nothing files put p⟩
  · intro U hinj hknown listing keep hlist
    have hinv := (hrun.sound hinj hknown).inv
    obtain ⟨hok, hpruned⟩ := pruned hinv hlist keep
    exact ⟨hok, collected_iff hinj hknown hinv hpruned⟩
  · intro key x hreading U hinj hknown hkey
    have hreader := (hreading.inv hinj hrun hkey hknown).2
    refine ⟨?_, ?_⟩
    · intro g hdone hnonempty
      rw [hdone] at hreader
      cases hreader with
      | inl hempty =>
        cases hempty.2
        exact absurd rfl hnonempty
      | inr hput =>
        obtain ⟨put, hfollows, hresult⟩ := hput
        cases hresult with
        | inl hok =>
          cases hok
          exact ⟨put, hfollows.mem, hfollows.accepted, hfollows.key_eq, rfl⟩
        | inr hcorrupt =>
          obtain ⟨_, _, herror, _⟩ := hcorrupt
          cases herror
    · intro oid hdone
      rw [hdone] at hreader
      cases hreader with
      | inl hempty => cases hempty.2
      | inr hput =>
        obtain ⟨put, hfollows, hresult⟩ := hput
        cases hresult with
        | inl hok => cases hok
        | inr hcorrupt =>
          obtain ⟨o, ho, herror, hgone⟩ := hcorrupt
          cases herror
          exact ⟨put, hfollows.mem, hfollows.key_eq, hfollows.seen_eq, o, ho, rfl, hgone⟩

end System

namespace sample

/-- The call that stores the graph under a key. -/
def put_under (key : String) : PutCall := ⟨key, none, graph⟩

/-- The opened store after it. -/
def stored_under (key : String) : System Content :=
  ⟨System.opened.disk.run (put_log codec no_files (put_under key)), [], [put_under key]⟩

theorem stored_under_reached (key : String) : System.Reached codec Running (stored_under key) := by
  have hrunning : Running (System.opened : System Content) (.put_graph (put_under key)) := rfl
  exact System.Reached.opened.put running_op rfl hrunning

/-- The listing of every path the put changed. -/
def listing_of (key : String) : List Path :=
  (put_log codec no_files (put_under key)).flatMap Op.changes

theorem lists_listing_of (key : String) : Lists (stored_under key).disk.files (listing_of key) := by
  intro p hp
  by_contra hnot
  have hfile : (stored_under key).disk.files p = none := by
    rw [stored_under, Disk.files_run, Files.run_of_not_changes]
    · rfl
    · intro op hop hmem
      exact hnot (List.mem_flatMap.mpr ⟨op, hop, hmem⟩)
  rw [hfile] at hp
  cases hp

theorem known_under {key : String} (hkey : Content.text key ∈ contents)
    (hall : ∀ o ∈ (put_under key).objects codec, o ∈ digests.map Prod.fst) :
    Known codec contents (stored_under key).puts := by
  intro put hput
  rw [List.mem_singleton.mp hput]
  exact ⟨hkey, hall⟩

def Content.text? : Content → Option String
  | .text s => some s
  | _ => none

theorem text_mem {key : String} (h : Content.text key ∈ contents) :
    key ∈ digests.filterMap fun d => d.1.text? := by
  obtain ⟨d, hd, heq⟩ := List.mem_map.mp h
  exact List.mem_filterMap.mpr ⟨d, hd, by rw [heq]; rfl⟩

/-- A reader that is not disturbed. -/
def read_through (key : String) : Nat → Reading Content
  | 0 => .start (stored_under key) key
  | n + 1 => ⟨stored_under key, (read_through key n).reader.step codec (stored_under key).disk.files,
      (read_through key n).reader.sees codec (stored_under key).disk.files (read_through key n).seen, []⟩

theorem read_through_run (key : String) (n : Nat) :
    Reading.Run codec (stored_under key) key (read_through key n) := by
  induction n with
  | zero => exact .start
  | succ n ih =>
    have hsame : (read_through key n).sys = stored_under key ∧ (read_through key n).gone = [] := by
      cases n <;> exact ⟨rfl, rfl⟩
    have hstep := ih.step .reader
    rw [hsame.1, hsame.2] at hstep
    exact hstep

theorem prune_and_read_one :
    read_graph codec (prune_graphs_except codec (.start (stored_under "a").disk.files) (listing_of "a")
      ["a"]).1.files "a" = .ok graph ∧
    ∃ put ∈ [put_under "a"], put.Accepted codec ∧ put.key = "a" ∧ put.g = graph := by
  have hall := System.prune_and_read (stored_under_reached "a")
  have hkey : Content.text "a" ∈ contents := (by decide : Content.text "a" ∈ digests.map Prod.fst)
  have hknown := known_under hkey (by decide)
  have hone : ∀ key ∈ digests.filterMap fun d => d.1.text?,
      graph_for codec (stored_under "a").disk.files key = true → key = "a" := by decide
  refine ⟨?_, ?_⟩
  · have hcollected := ((hall.1 contents injOn_contents hknown (listing_of "a") ["a"]
      (lists_listing_of "a")).2).mpr (by
        intro key hmem hstored
        refine ⟨fun hkeep => .inl ?_, fun hkeep => ?_⟩
        · rw [List.mem_singleton.mp hkeep]
          decide
        · exact absurd (List.mem_singleton.mpr (hone key (text_mem hmem) hstored)) hkeep)
    rw [hcollected.kept "a" hkey List.mem_cons_self]
    decide
  · exact (hall.2.1 "a" (read_through "a" 4) (read_through_run "a" 4) contents injOn_contents hknown
      hkey).1 graph rfl (by decide)

/-- A kept key that starts with a blank is dropped: its ref is read back without it. -/
theorem blank_key_is_dropped :
    System.Reached codec Running (stored_under " a") ∧ Set.InjOn codec.of_bytes contents ∧
    Known codec contents (stored_under " a").puts ∧
    Lists (stored_under " a").disk.files (listing_of " a") ∧
    read_graph codec (stored_under " a").disk.files " a" = .ok graph ∧
    read_graph codec (prune_graphs_except codec (.start (stored_under " a").disk.files)
      (listing_of " a") [" a"]).1.files " a" = .ok .empty :=
  ⟨stored_under_reached " a", injOn_contents,
    known_under (by decide : Content.text " a" ∈ digests.map Prod.fst) (by decide),
    lists_listing_of " a", by decide, read_graph_absent (by decide +kernel)⟩

end sample

end cgx.store
