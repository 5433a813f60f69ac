import Cgx.Store.System

open cgx.core disk

namespace cgx.store

namespace System

variable {Bytes : Type} [Inhabited Bytes] {c : Codec Bytes}

/-- What keeps a run safe from power loss: a put skips only objects that are durable, and
a prune sweeps only objects that no ref names that may come back. -/
def Careful (c : Codec Bytes) (s : System Bytes) : Event Bytes → Prop
  | .put_graph put => SkipsDurable c s.disk put
  | .prune_graphs_except listing keep => SweepsUnnamed c s.disk listing keep
  | _ => True

section

variable {U : Set Bytes} {puts : List PutCall} {d left : StoreDisk Bytes}

omit [Inhabited Bytes] in
theorem version_of_survives {v : Option (Content Bytes)} {x : Content Bytes}
    (h : Disk.Survives v (some x)) : ∃ y, v = some y ∧ (y.flushed = true → y = x) := by
  cases h with
  | whole b => exact ⟨_, rfl, fun _ => rfl⟩
  | torn b b' => exact ⟨_, rfl, fun hflushed => by cases hflushed⟩

omit [Inhabited Bytes] in
/-- The invariant survives a power loss. -/
theorem inv_recovers (hinv : Inv c U puts d) (hrec : Disk.Recovers d left) : Inv c U puts left where
  refs name x hreg hx := by
    rw [Disk.versions, hrec.settled.1, List.mem_singleton] at hx
    obtain ⟨v, hv, hsurvives⟩ := hrec.version hx.symm
    obtain ⟨y, rfl, hsame⟩ := version_of_survives hsurvives
    obtain ⟨hflushed, put, hput, hback⟩ := hinv.refs name y hreg hv
    rw [← hsame hflushed]
    refine ⟨hflushed, put, hput, hback.mono ?_⟩
    intro o _ hdur
    obtain ⟨kept, hkept, hmade⟩ := hrec.kept
    refine ⟨?_, ?_⟩
    · intro w hw
      rw [Disk.versions, hrec.settled.1, List.mem_singleton] at hw
      rw [hw, hdur.recovers hrec]
    · have hanchored : ∀ e, Disk.Anchored d e → Disk.Anchored left e := by
        intro e he
        have hmakes : ∀ w ∈ left.makes e, w = true := by
          intro w hw
          rw [Disk.makes, hrec.settled.2, List.mem_singleton] at hw
          rw [hw, (hmade e).mpr (he.alive hkept)]
        induction he with
        | root _ hup => exact .root hmakes hup
        | sub _ hup hsuper ih =>
          refine .sub hmakes hup (ih ?_)
          intro w hw
          rw [Disk.makes, hrec.settled.2, List.mem_singleton] at hw
          rw [hw, (hmade _).mpr (hsuper.alive hkept)]
      exact hanchored _ hdur.anchored
  objects head rest x hreg hx := by
    rw [Disk.versions, hrec.settled.1, List.mem_singleton] at hx
    obtain ⟨v, hv, hsurvives⟩ := hrec.version hx.symm
    obtain ⟨y, rfl, hsame⟩ := version_of_survives hsurvives
    obtain ⟨hflushed, hobject⟩ := hinv.objects head rest y hreg hv
    rw [← hsame hflushed]
    exact ⟨hflushed, hobject⟩
  roots e hup w hw := by
    obtain ⟨kept, hkept, hmade⟩ := hrec.kept
    rw [Disk.makes, hrec.settled.2, List.mem_singleton] at hw
    rw [hw]
    exact (hmade e).mpr (.root (hinv.roots e hup _ (hkept e)) hup)

/-- One step of a careful run keeps the invariant, and the rest of the lock holder's steps
allowed. -/
theorem Step.careful (hinj : Set.InjOn c.of_bytes U) {s s' : System Bytes} {e : Event Bytes}
    (hstep : Step c s e s') (hcareful : Careful c s e) (hknown : Known c U s'.puts)
    (hinv : Inv c U s.puts s.disk) (htodo : AllowedAll c U s.puts false s.disk s.todo) :
    Inv c U s'.puts s'.disk ∧ AllowedAll c U s'.puts false s'.disk s'.todo := by
  cases hstep with
  | put_graph put hfree =>
    exact ⟨hinv.cons put, allowed_put hinj hknown (hinv.cons put) List.mem_cons_self hcareful⟩
  | prune_graphs_except listing keep hfree hlist =>
    exact ⟨hinv, allowed_prune_graphs hinj hknown hinv hcareful⟩
  | prune listing live aggressive hfree =>
    exact ⟨hinv, allowed_prune hinj hknown hinv listing live aggressive⟩
  | op hop =>
    rw [hop] at htodo
    exact ⟨inv_step hinj hknown hinv htodo.1, htodo.2⟩
  | kill => exact ⟨hinv, trivial⟩
  | power_loss left hrec => exact ⟨inv_recovers hinv hrec, trivial⟩

theorem Reached.careful (hinj : Set.InjOn c.of_bytes U) {s : System Bytes}
    (hrun : Reached c (Careful c) s) (hknown : Known c U s.puts) :
    Inv c U s.puts s.disk ∧ AllowedAll c U s.puts false s.disk s.todo := by
  induction hrun with
  | opened => exact ⟨inv_opened U, trivial⟩
  | step _ hcareful hstep ih =>
    obtain ⟨hinv, htodo⟩ := ih (hstep.known hknown)
    exact hstep.careful hinj hcareful hknown hinv htodo

end

/-- In every run whose puts skip only durable objects and whose prunes sweep only objects
that no surviving ref may name: whatever a power loss leaves, each ref that is there reads
as a graph stored under its key, all of whose objects are there. -/
theorem recovered_refs_read {s : System Bytes} (hinj : Set.InjOn c.of_bytes (involved c s.puts))
    (hrun : Reached c (Careful c) s) {left : StoreDisk Bytes} (hrec : Disk.Recovers s.disk left)
    {name : String} (hreg : Regular (.ref name)) {b : Bytes} (href : left.files (.ref name) = some b) :
    ∃ put ∈ s.puts, Path.ref name = ref_path c put.key ∧
      read_graph c left.files put.key = .ok put.g ∧
      ∀ o ∈ put.objects c, left.files (blob_path c o) = some o := by
  have hinv := inv_recovers (hrun.careful hinj (known_involved s.puts)).1 hrec
  obtain ⟨x, hx, rfl⟩ := Option.map_eq_some_iff.mp href
  obtain ⟨_, put, hput, hback⟩ := hinv.refs name x hreg (hx ▸ Disk.mem_versions_now left _)
  have hplace : InPlace c left.files put.key put.created_rev put.g (put.sk c) := by
    refine ⟨fun o ho => hback.in_place ho, ?_⟩
    rw [← hback.path, href, hback.contents]
    rfl
  exact ⟨put, hput, hback.path, hplace.read_graph hback.accepted.1 hback.accepted.2, hplace.objects⟩

end System

namespace sample

/-- A put of the empty graph. -/
def put_empty : PutCall := ⟨"a", none, .empty⟩

theorem put_empty_involved : Set.InjOn codec.of_bytes (System.involved codec [put_empty]) := by
  have hall : ∀ o ∈ put_empty.objects codec, o ∈ digests.map Prod.fst := by decide
  have hkey : codec.as_bytes put_empty.key ∈ digests.map Prod.fst := by decide
  apply injOn_contents.mono
  rintro b ⟨put, hput, hb⟩
  rw [List.mem_singleton.mp hput] at hb
  cases hb with
  | inl heq => exact heq ▸ hkey
  | inr hmem => exact hall b hmem

/-- Steps from an opened store, and what a power loss may leave after them. -/
theorem recovers_after (ops : List (StoreOp Content)) (pick : Path → Option (disk.Content Content))
    (hpick : ∀ p ∈ ops.flatMap Op.changes, pick p ∈ (System.opened.disk.run ops).versions p ∧
      (pick p).all (fun x => x.flushed && (System.opened.disk.run ops).made (Layout.dir p)) = true)
    (hother : ∀ p, p ∉ ops.flatMap Op.changes → pick p = none) :
    Disk.Recovers (System.opened.disk.run ops)
      ⟨pick, fun _ => [], (System.opened.disk.run ops).made, fun _ => []⟩ := by
  apply Disk.recovers_pick grounded
  · intro e e' _ hup
    have hroot : Layout.up Path e' = none := by
      cases e with
      | fan a head =>
        cases hup
        rfl
      | area | refs => cases hup
    exact Disk.makes_run ((System.inv_opened (c := codec) ∅).roots e' hroot) _ List.mem_cons_self
  · intro p
    by_cases hp : p ∈ ops.flatMap Op.changes
    · exact (hpick p hp).1
    · have hfile : (System.opened.disk.run ops).files p = none := by
        rw [Disk.files_run, Files.run_of_not_changes]
        · rfl
        · intro op hop hmem
          exact hp (List.mem_flatMap.mpr ⟨op, hop, hmem⟩)
      rw [hother p hp, ← Option.map_eq_none_iff.mp hfile]
      exact Disk.mem_versions_now _ p
  · intro p x hx
    by_cases hp : p ∈ ops.flatMap Op.changes
    · have hall := (hpick p hp).2
      rw [hx, Option.all_some, Bool.and_eq_true] at hall
      exact hall
    · rw [hother p hp] at hx
      cases hx

/-- The steps of the put on an opened store. -/
def first_put : List (StoreOp Content) := put_log codec no_files put_empty

/-- The store after a whole put. -/
def after_put : System Content := ⟨System.opened.disk.run first_put, [], [put_empty]⟩

theorem after_put_reached : System.Reached codec (System.Careful codec) after_put := by
  have hskip : SkipsDurable codec System.opened.disk put_empty := by
    intro b _ hintact
    cases hintact
  exact System.Reached.opened.put (fun _ => trivial) rfl hskip

theorem recovered_refs_read_one :
    ∃ put ∈ after_put.puts, ref_path codec "a" = ref_path codec put.key ∧
      read_graph codec after_put.disk.files put.key = .ok put.g ∧
      ∀ o ∈ put.objects codec, after_put.disk.files (blob_path codec o) = some o := by
  have hrec := recovers_after first_put after_put.disk.now (by decide) (by
    intro p hp
    have hfile : after_put.disk.files p = none := by
      rw [after_put, Disk.files_run, Files.run_of_not_changes]
      · rfl
      · intro op hop hmem
        exact hp (List.mem_flatMap.mpr ⟨op, hop, hmem⟩)
    exact Option.map_eq_none_iff.mp hfile)
  exact System.recovered_refs_read put_empty_involved after_put_reached hrec (regular_ref "a")
    (by decide : after_put.disk.files (ref_path codec "a") = some (put_empty.ref codec))

/-- The steps of a put that is killed before its flush, and those of the next put. -/
def killed_put : List (StoreOp Content) := first_put.take 5

def second_put : List (StoreOp Content) :=
  put_log codec (System.opened.disk.run killed_put).files put_empty

def torn : System Content :=
  ⟨System.opened.disk.run (killed_put ++ second_put), [], [put_empty, put_empty]⟩

/-- The disk without the manifest, whose rename was never flushed. -/
def torn_disk : StoreDisk Content where
  now p := if p = blob_path codec (put_empty.manifest codec) then none else torn.disk.now p
  old _ := []
  made := torn.disk.made
  was _ := []

/-- A put that finds the manifest of a killed run skips it and flushes nothing, so the ref
can outlive the manifest. -/
theorem ref_outlives_its_manifest :
    System.Reached codec (fun _ _ => True) torn ∧ Disk.Recovers torn.disk torn_disk ∧
      torn_disk.files (ref_path codec "a") = some (put_empty.ref codec) ∧
      read_graph codec torn_disk.files "a" =
        .error (.Corrupt (codec.of_bytes (put_empty.manifest codec))) := by
  refine ⟨?_, ?_, by decide, by decide⟩
  · have hbegin : System.Reached codec (fun _ _ => True) ⟨System.opened.disk, first_put, [put_empty]⟩ :=
      .step .opened (e := .put_graph put_empty) trivial (.put_graph put_empty rfl)
    have hkilled := (hbegin.ops (fun _ => trivial) 5).step trivial .kill
    have hagain := (hkilled.step trivial (.put_graph put_empty rfl)).ops (fun _ => trivial)
      second_put.length
    change System.Reached codec _ ⟨(System.opened.disk.run killed_put).run
      (second_put.take second_put.length), second_put.drop second_put.length,
        [put_empty, put_empty]⟩ at hagain
    rw [List.take_length, List.drop_length, ← Disk.run_append] at hagain
    exact hagain
  · apply recovers_after (killed_put ++ second_put) torn_disk.now (by decide)
    intro p hp
    have hfile : torn.disk.files p = none := by
      rw [torn, Disk.files_run, Files.run_of_not_changes]
      · rfl
      · intro op hop hmem
        exact hp (List.mem_flatMap.mpr ⟨op, hop, hmem⟩)
    have hnow : torn.disk.now p = none := Option.map_eq_none_iff.mp hfile
    simp [torn_disk, hnow]

end sample

end cgx.store
