import Mathlib.Logic.Function.Basic
import Mathlib.Data.List.Basic

/-! Files on a disk whose changes are durable only once they are flushed. -/

namespace disk

open Function

variable {P D B : Type}

/-- A step of a program on the file system. -/
inductive Op (P D B : Type) where
  | mkdir (d : D)
  | write (p : P) (b : B)
  | flush (p : P)
  | rename (p q : P)
  | remove (p : P)
  | sync (d : D)
deriving DecidableEq

/-- The paths whose entry or contents an operation changes. -/
def Op.changes : Op P D B → List P
  | .write p _ => [p]
  | .flush p => [p]
  | .rename p q => [p, q]
  | .remove p => [p]
  | .mkdir _ => []
  | .sync _ => []

/-- The paths an operation removes. -/
def Op.removes : Op P D B → List P
  | .remove p => [p]
  | _ => []

/-! ### What programs see -/

/-- The files a program sees. -/
abbrev Files (P B : Type) := P → Option B

variable [DecidableEq P]

/-- The visible effect of one step. `write` creates the file or replaces its contents;
a rename replaces its target at once. -/
def Files.step (files : Files P B) : Op P D B → Files P B
  | .write p b => update files p (some b)
  | .rename p q =>
    match files p with
    | some b => update (update files q (some b)) p none
    | none => files
  | .remove p => update files p none
  | .mkdir _ => files
  | .flush _ => files
  | .sync _ => files

def Files.run (files : Files P B) (ops : List (Op P D B)) : Files P B :=
  ops.foldl Files.step files

@[simp] theorem Files.run_nil (files : Files P B) : files.run ([] : List (Op P D B)) = files := rfl

@[simp] theorem Files.run_cons (files : Files P B) (op : Op P D B) (ops : List (Op P D B)) :
    files.run (op :: ops) = (files.step op).run ops := rfl

theorem Files.run_append (files : Files P B) (ops ops' : List (Op P D B)) :
    files.run (ops ++ ops') = (files.run ops).run ops' :=
  List.foldl_append

/-- A step leaves the paths it does not name alone. -/
theorem Files.step_of_not_changes {files : Files P B} {op : Op P D B} {p : P} (h : p ∉ op.changes) :
    files.step op p = files p := by
  cases op with
  | write q b => exact update_of_ne (by simpa [Op.changes] using h) ..
  | remove q => exact update_of_ne (by simpa [Op.changes] using h) ..
  | mkdir | flush | sync => rfl
  | rename q r =>
    simp only [Op.changes, List.mem_cons, List.not_mem_nil, or_false, not_or] at h
    simp only [Files.step]
    cases files q with
    | none => rfl
    | some b => simp only [update_of_ne h.1, update_of_ne h.2]

theorem Files.run_of_not_changes {files : Files P B} {ops : List (Op P D B)} {p : P}
    (h : ∀ op ∈ ops, p ∉ op.changes) : files.run ops p = files p := by
  induction ops generalizing files with
  | nil => rfl
  | cons op rest ih =>
    rw [Files.run_cons, ih fun op' hop' => h op' (List.mem_cons_of_mem op hop'),
      Files.step_of_not_changes (h op List.mem_cons_self)]

/-! ### What the disk holds -/

/-- File contents, and whether they were flushed. -/
structure Content (B : Type) where
  data : B
  flushed : Bool
deriving DecidableEq

/-- The directory of a file, and the directory a directory is in. -/
class Layout (P : Type) (D : outParam Type) where
  dir : P → D
  up : D → Option D

open Layout

/-- The entries as programs see them, and the earlier ones that may come back: those
replaced since their directory was last flushed. -/
structure Disk (P D B : Type) where
  now : P → Option (Content B)
  old : P → List (Option (Content B))
  made : D → Bool
  was : D → List Bool

namespace Disk

/-- The files programs see. -/
def files (d : Disk P D B) : Files P B :=
  fun p => (d.now p).map Content.data

/-- All entries of `p` that a power loss may leave. -/
def versions (d : Disk P D B) (p : P) : List (Option (Content B)) :=
  d.now p :: d.old p

/-- Whether the directory may be there after a power loss. -/
def makes (d : Disk P D B) (e : D) : List Bool :=
  d.made e :: d.was e

/-- Replace an entry; the one before may come back. -/
def set (d : Disk P D B) (p : P) (v : Option (Content B)) : Disk P D B :=
  { d with now := update d.now p v, old := update d.old p (d.now p :: d.old p) }

/-- Replace the contents of an entry. -/
def fill (d : Disk P D B) (p : P) (v : Option (Content B)) : Disk P D B :=
  { d with now := update d.now p v }

variable [DecidableEq D] [Layout P D]

/-- One step on the disk. Only `sync` makes entries durable, those directly in the
directory, and only `flush` contents. -/
def step (d : Disk P D B) : Op P D B → Disk P D B
  | .mkdir e =>
    if d.made e then d
    else { d with made := update d.made e true, was := update d.was e (d.made e :: d.was e) }
  | .write p b =>
    match d.now p with
    | some _ => d.fill p (some ⟨b, false⟩)
    | none => d.set p (some ⟨b, false⟩)
  | .flush p => d.fill p ((d.now p).map fun c => ⟨c.data, true⟩)
  | .rename p q =>
    match d.now p with
    | some c => (d.set q (some c)).set p none
    | none => d
  | .remove p => d.set p none
  | .sync e =>
    { d with
      old := fun p => if dir p = e then [] else d.old p
      was := fun e' => if up P e' = some e then [] else d.was e' }

def run (d : Disk P D B) (ops : List (Op P D B)) : Disk P D B :=
  ops.foldl step d

@[simp] theorem run_nil (d : Disk P D B) : d.run [] = d := rfl

@[simp] theorem run_cons (d : Disk P D B) (op : Op P D B) (ops : List (Op P D B)) :
    d.run (op :: ops) = (d.step op).run ops := rfl

theorem run_append (d : Disk P D B) (ops ops' : List (Op P D B)) :
    d.run (ops ++ ops') = (d.run ops).run ops' :=
  List.foldl_append

omit [DecidableEq D] [Layout P D] in
theorem files_set (d : Disk P D B) (p : P) (v : Option (Content B)) :
    (d.set p v).files = update d.files p (v.map Content.data) := by
  funext q
  by_cases hq : q = p
  · subst hq
    simp [files, set]
  · simp [files, set, hq]

omit [DecidableEq D] [Layout P D] in
theorem files_fill (d : Disk P D B) (p : P) (v : Option (Content B)) :
    (d.fill p v).files = update d.files p (v.map Content.data) :=
  files_set d p v

/-- Programs see the effect of each step at once. -/
theorem files_step (d : Disk P D B) (op : Op P D B) : (d.step op).files = d.files.step op := by
  cases op with
  | mkdir e =>
    rw [step]
    split <;> rfl
  | write p b =>
    rw [step]
    split
    · exact files_fill ..
    · exact files_set ..
  | flush p =>
    rw [step, files_fill, Files.step, Option.map_map]
    exact update_eq_self p d.files
  | rename p q =>
    rw [step, Files.step, files]
    cases hp : d.now p with
    | none => rfl
    | some c =>
      simp only [Option.map_some]
      exact (files_set ..).trans (congrArg (fun f => update f p none) (files_set ..))
  | remove p => exact files_set ..
  | sync e => rfl

theorem files_run (d : Disk P D B) (ops : List (Op P D B)) : (d.run ops).files = d.files.run ops := by
  induction ops generalizing d with
  | nil => rfl
  | cons op rest ih => rw [run_cons, ih, files_step, Files.run_cons]

/-! ### Power loss -/

/-- A directory is there after a power loss when it and every directory above it is. -/
inductive Alive (P : Type) {D : Type} [Layout P D] (kept : D → Bool) : D → Prop
  | root {e : D} : kept e = true → up P e = none → Alive P kept e
  | sub {e e' : D} : kept e = true → up P e = some e' → Alive P kept e' → Alive P kept e

/-- A directory with finitely many directories above it. -/
inductive Grounded (P : Type) {D : Type} [Layout P D] : D → Prop
  | root {e : D} : up P e = none → Grounded P e
  | sub {e e' : D} : up P e = some e' → Grounded P e' → Grounded P e

/-- What becomes of an entry: contents that were not flushed may be anything. -/
inductive Survives : Option (Content B) → Option (Content B) → Prop
  | gone : Survives none none
  | whole (b : B) : Survives (some ⟨b, true⟩) (some ⟨b, true⟩)
  | torn (b b' : B) : Survives (some ⟨b, false⟩) (some ⟨b', true⟩)

/-- `d'` is what a power loss may leave of `d`: any combination of entries. -/
structure Recovers (d d' : Disk P D B) : Prop where
  kept : ∃ kept : D → Bool, (∀ e, kept e ∈ d.makes e) ∧ ∀ e, d'.made e = true ↔ Alive P kept e
  present : ∀ p, d'.made (dir p) = true → ∃ v ∈ d.versions p, Survives v (d'.now p)
  lost : ∀ p, d'.made (dir p) = false → d'.now p = none
  settled : (∀ p, d'.old p = []) ∧ ∀ e, d'.was e = []

/-- A directory that cannot be lost. -/
inductive Anchored (d : Disk P D B) : D → Prop
  | root {e : D} : (∀ w ∈ d.makes e, w = true) → up P e = none → Anchored d e
  | sub {e e' : D} : (∀ w ∈ d.makes e, w = true) → up P e = some e' → Anchored d e' → Anchored d e

/-- A file that cannot be lost, with its contents. -/
structure Durable (d : Disk P D B) (p : P) (b : B) : Prop where
  entry : ∀ v ∈ d.versions p, v = some ⟨b, true⟩
  anchored : Anchored d (dir p)

omit [DecidableEq P] [DecidableEq D] in
theorem Anchored.alive {d : Disk P D B} {e : D} (h : Anchored d e) {kept : D → Bool}
    (hkept : ∀ e, kept e ∈ d.makes e) : Alive P kept e := by
  induction h with
  | root hmakes hup => exact .root (hmakes _ (hkept _)) hup
  | sub hmakes hup _ ih => exact .sub (hmakes _ (hkept _)) hup ih

omit [DecidableEq P] [DecidableEq D] in
/-- A durable file survives. -/
theorem Durable.recovers {d d' : Disk P D B} {p : P} {b : B} (h : Durable d p b)
    (hrec : Recovers d d') : d'.now p = some ⟨b, true⟩ := by
  obtain ⟨kept, hkept, hmade⟩ := hrec.kept
  obtain ⟨v, hv, hsurvives⟩ := hrec.present p ((hmade _).mpr (h.anchored.alive hkept))
  rw [h.entry v hv] at hsurvives
  generalize d'.now p = w at hsurvives
  cases hsurvives
  rfl

omit [DecidableEq P] [DecidableEq D] in
/-- A file that is there after a power loss was there in some version before. -/
theorem Recovers.version {d d' : Disk P D B} (h : Recovers d d') {p : P} {c : Content B}
    (hp : d'.now p = some c) : ∃ v ∈ d.versions p, Survives v (some c) := by
  cases hmade : d'.made (dir p) with
  | false =>
    rw [h.lost p hmade] at hp
    cases hp
  | true =>
    rw [← hp]
    exact h.present p hmade

omit [DecidableEq P] [DecidableEq D] in
/-- A power loss that keeps every directory and leaves the given versions. -/
theorem recovers_pick {d : Disk P D B} (hgrounded : ∀ e : D, Grounded P e)
    (hup : ∀ e e', d.made e = true → up P e = some e' → d.made e' = true)
    (pick : P → Option (Content B)) (hpick : ∀ p, pick p ∈ d.versions p)
    (hwhole : ∀ p x, pick p = some x → x.flushed = true ∧ d.made (dir p) = true) :
    Recovers d ⟨pick, fun _ => [], d.made, fun _ => []⟩ where
  kept := by
    refine ⟨d.made, fun e => List.mem_cons_self, ?_⟩
    intro e
    constructor
    · intro hmade
      have hground := hgrounded e
      induction hground with
      | root hroot => exact .root hmade hroot
      | sub hsub _ ih => exact .sub hmade hsub (ih (hup _ _ hmade hsub))
    · intro halive
      cases halive with
      | root hkept _ => exact hkept
      | sub hkept _ _ => exact hkept
  present p _ := by
    refine ⟨pick p, hpick p, ?_⟩
    change Survives (pick p) (pick p)
    cases hx : pick p with
    | none => exact .gone
    | some x =>
      have hflushed := (hwhole p x hx).1
      cases x
      cases hflushed
      exact .whole _
  lost p hlost := by
    change pick p = none
    cases hx : pick p with
    | none => rfl
    | some x =>
      have hmade : d.made (dir p) = false := hlost
      rw [(hwhole p x hx).2] at hmade
      cases hmade
  settled := ⟨fun _ => rfl, fun _ => rfl⟩

/-! ### What a step keeps -/

omit [DecidableEq P] [DecidableEq D] [Layout P D] in
theorem mem_versions_now (d : Disk P D B) (p : P) : d.now p ∈ d.versions p :=
  List.mem_cons_self

/-- A step forgets versions of a path it does not name, but adds none. -/
theorem versions_step {d : Disk P D B} {op : Op P D B} {p : P} (h : p ∉ op.changes)
    {v : Option (Content B)} (hv : v ∈ (d.step op).versions p) : v ∈ d.versions p := by
  have hset : ∀ (d : Disk P D B) (q : P) (w : Option (Content B)), p ≠ q →
      v ∈ (d.set q w).versions p → v ∈ d.versions p := by
    intro d q w hne hmem
    simpa [versions, set, hne] using hmem
  have hfill : ∀ (q : P) (w : Option (Content B)), p ≠ q →
      v ∈ (d.fill q w).versions p → v ∈ d.versions p := by
    intro q w hne hmem
    simpa [versions, fill, hne] using hmem
  cases op with
  | mkdir e =>
    rw [step] at hv
    split at hv <;> exact hv
  | write q b =>
    have hne : p ≠ q := by simpa [Op.changes] using h
    rw [step] at hv
    split at hv
    · exact hfill q _ hne hv
    · exact hset d q _ hne hv
  | flush q =>
    have hne : p ≠ q := by simpa [Op.changes] using h
    exact hfill q _ hne hv
  | rename q r =>
    simp only [Op.changes, List.mem_cons, List.not_mem_nil, or_false, not_or] at h
    simp only [step] at hv
    split at hv
    · exact hset d r _ h.2 (hset _ q _ h.1 hv)
    · exact hv
  | remove q =>
    have hne : p ≠ q := by simpa [Op.changes] using h
    exact hset d q _ hne hv
  | sync e =>
    simp only [step, versions] at hv
    split at hv
    · rw [List.mem_singleton] at hv
      rw [hv]
      exact mem_versions_now d p
    · exact hv

theorem makes_step {d : Disk P D B} {op : Op P D B} {e : D} (h : ∀ w ∈ d.makes e, w = true) :
    ∀ w ∈ (d.step op).makes e, w = true := by
  cases op with
  | mkdir e' =>
    rw [step]
    split
    · exact h
    · rename_i hmade
      have hne : e ≠ e' := by
        intro heq
        exact hmade (heq ▸ h _ List.mem_cons_self)
      simpa [makes, hne] using h
  | write p b =>
    rw [step]
    split <;> exact h
  | rename p q =>
    simp only [step]
    split <;> exact h
  | flush | remove => exact h
  | sync e' =>
    simp only [step, makes]
    split
    · intro w hw
      rw [List.mem_singleton] at hw
      rw [hw]
      exact h _ List.mem_cons_self
    · exact h

/-- A directory stays out of danger. -/
theorem Anchored.step {d : Disk P D B} {op : Op P D B} {e : D} (h : Anchored d e) :
    Anchored (d.step op) e := by
  induction h with
  | root hmakes hup => exact .root (makes_step hmakes) hup
  | sub hmakes hup _ ih => exact .sub (makes_step hmakes) hup ih

/-- A file stays out of danger while no step names it. -/
theorem Durable.step {d : Disk P D B} {op : Op P D B} {p : P} {b : B} (h : Durable d p b)
    (hop : p ∉ op.changes) : Durable (d.step op) p b where
  entry v hv := h.entry v (versions_step hop hv)
  anchored := h.anchored.step

/-- Renaming a file over itself keeps it out of danger. -/
theorem Durable.rename {d : Disk P D B} {p q : P} {b : B} (h : Durable d q b) (hne : q ≠ p)
    (hp : d.now p = some ⟨b, true⟩) : Durable (d.step (.rename p q)) q b where
  entry v hv := by
    have hset : v = some ⟨b, true⟩ ∨ v ∈ d.versions q := by
      simpa [Disk.step, hp, set, versions, hne] using hv
    cases hset with
    | inl heq => exact heq
    | inr hold => exact h.entry v hold
  anchored := h.anchored.step

/-- What flushing directories does. -/
theorem run_sync (d : Disk P D B) (es : List D) :
    d.run (es.map .sync) =
      { d with
        old := fun p => if dir p ∈ es then [] else d.old p
        was := fun e => if ∃ e' ∈ es, up P e = some e' then [] else d.was e } := by
  induction es generalizing d with
  | nil => simp
  | cons e rest ih =>
    rw [List.map_cons, run_cons, ih, step]
    simp only [mk.injEq, true_and]
    constructor
    · funext p
      by_cases hp : dir p ∈ rest
      · simp [hp]
      · simp [hp]
    · funext e'
      by_cases he : ∃ e'' ∈ rest, up P e' = some e''
      · simp [he]
      · by_cases hup : up P e' = some e
        · simp [hup]
        · simp [he, hup]

/-- A flushed directory's files cannot fall back. -/
theorem versions_run_sync (d : Disk P D B) {es : List D} {p : P} (h : dir p ∈ es) :
    (d.run (es.map .sync)).versions p = [d.now p] := by
  rw [run_sync]
  simp only [versions, h, if_true]

theorem makes_run_sync (d : Disk P D B) {es : List D} {e : D} (h : ∃ e' ∈ es, up P e = some e') :
    (d.run (es.map .sync)).makes e = [d.made e] := by
  rw [run_sync]
  simp only [makes, h, if_true]

theorem makes_run {d : Disk P D B} {ops : List (Op P D B)} {e : D} (h : ∀ w ∈ d.makes e, w = true) :
    ∀ w ∈ (d.run ops).makes e, w = true := by
  induction ops generalizing d with
  | nil => exact h
  | cons op rest ih => exact ih (makes_step h)

/-! ### A disk that is flushed after every step -/

/-- The disk on which everything visible is durable. -/
def settled (files : Files P B) : Disk P D B where
  now p := (files p).map fun b => ⟨b, true⟩
  old _ := []
  made _ := true
  was _ := []

omit [DecidableEq P] [DecidableEq D] [Layout P D] in
@[simp] theorem files_settled (files : Files P B) : (settled (D := D) files).files = files := by
  funext p
  simp [Disk.files, settled, Function.comp_def]

omit [DecidableEq P] [DecidableEq D] [Layout P D] in
theorem mem_versions_settled {files : Files P B} {p : P} {v : Option (Content B)} :
    v ∈ (settled (D := D) files).versions p ↔ v = (files p).map fun b => ⟨b, true⟩ :=
  List.mem_singleton

omit [DecidableEq P] [DecidableEq D] in
theorem anchored_settled {files : Files P B} {e : D} (h : Grounded P e) :
    Anchored (settled (D := D) files) e := by
  have hmakes : ∀ e : D, ∀ w ∈ (settled (D := D) files).makes e, w = true := by
    intro e w hw
    exact List.mem_singleton.mp hw
  induction h with
  | root hup => exact .root (hmakes _) hup
  | sub hup _ ih => exact .sub (hmakes _) hup ih

omit [DecidableEq P] [DecidableEq D] in
theorem durable_settled {files : Files P B} {p : P} {b : B} (h : files p = some b)
    (hdir : Grounded P (dir p)) : Durable (settled (D := D) files) p b where
  entry v hv := by rw [mem_versions_settled.mp hv, h, Option.map_some]
  anchored := anchored_settled hdir

omit [DecidableEq P] [DecidableEq D] in
/-- A durable file is visible. -/
theorem Durable.files {d : Disk P D B} {p : P} {b : B} (h : Durable d p b) : d.files p = some b := by
  rw [Disk.files, h.entry _ (mem_versions_now d p)]
  rfl

/-- One step, and, with `through`, a flush of everything. -/
def advance (through : Bool) (d : Disk P D B) (op : Op P D B) : Disk P D B :=
  if through then settled (d.step op).files else d.step op

@[simp] theorem files_advance (through : Bool) (d : Disk P D B) (op : Op P D B) :
    (d.advance through op).files = d.files.step op := by
  rw [advance]
  split
  · rw [files_settled, files_step]
  · exact files_step d op

@[simp] theorem advance_through (d : Disk P D B) (op : Op P D B) :
    d.advance true op = settled (d.step op).files := rfl

@[simp] theorem advance_not_through (d : Disk P D B) (op : Op P D B) :
    d.advance false op = d.step op := rfl

/-- Flushed contents are as they are seen. -/
theorem now_flush {d : Disk P D B} {p : P} {b : B} (h : d.files p = some b) (through : Bool) :
    (d.advance through (.flush p)).now p = some ⟨b, true⟩ := by
  cases through with
  | true =>
    have hfile : (d.step (.flush p)).files p = some b := by
      rw [files_step]
      exact h
    simp [settled, hfile]
  | false =>
    obtain ⟨x, hx, rfl⟩ := Option.map_eq_some_iff.mp h
    simp [step, fill, hx]

/-- Directories stay. -/
theorem made_advance {d : Disk P D B} {op : Op P D B} {e : D} (h : d.made e = true) (through : Bool) :
    (d.advance through op).made e = true := by
  cases through with
  | true => rfl
  | false =>
    cases op with
    | mkdir e' =>
      simp only [advance_not_through, step]
      split
      · exact h
      · by_cases he : e = e'
        · simp [he]
        · simpa [he] using h
    | write p b =>
      simp only [advance_not_through, step]
      split <;> exact h
    | rename p q =>
      simp only [advance_not_through, step]
      split <;> exact h
    | flush | remove | sync => exact h

theorem made_mkdir (d : Disk P D B) (e : D) (through : Bool) :
    (d.advance through (.mkdir e)).made e = true := by
  cases through with
  | true => rfl
  | false =>
    simp only [advance_not_through, step]
    split
    · assumption
    · simp

/-- What survives a step also survives it with a flush. -/
theorem Durable.advance {d : Disk P D B} {op : Op P D B} {p : P} {b : B} {through : Bool}
    (h : Durable (d.step op) p b) (hdir : Grounded P (dir p)) : Durable (d.advance through op) p b := by
  rw [Disk.advance]
  split
  · exact durable_settled h.files hdir
  · exact h

end Disk

end disk
