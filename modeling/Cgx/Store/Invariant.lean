import Cgx.Store.Put

open cgx.core disk

namespace cgx.store

/-- A call of `put_graph`. -/
structure PutCall where
  key : String
  created_rev : Option String
  g : LinkedGraph

variable {Bytes : Type} (c : Codec Bytes)

namespace PutCall

variable (put : PutCall)

/-- The stable keys of the graph's nodes, if they do not collide. -/
def sk : List UInt64 :=
  match stable_keys c.stable_key (put.g.nodes.map NodeRecord.fqn) with
  | .ok sk => sk
  | .error _ => []

/-- The graph is accepted by `put_graph`. -/
def Accepted : Prop :=
  check_canonical put.g = .ok () ∧
    stable_keys c.stable_key (put.g.nodes.map NodeRecord.fqn) = .ok (put.sk c)

def objects : List Bytes :=
  put_objects c put.key put.created_rev put.g (put.sk c)

def manifest : Bytes :=
  c.encode_manifest (manifest_of c put.key put.created_rev put.g (put.sk c))

/-- The contents of the ref. -/
def ref : Bytes :=
  ref_contents c put.key put.created_rev put.g (put.sk c)

theorem accepted_of_ok {sk : List UInt64} (hcheck : check_canonical put.g = .ok ())
    (hsk : stable_keys c.stable_key (put.g.nodes.map NodeRecord.fqn) = .ok sk) : put.Accepted c :=
  ⟨hcheck, by rw [PutCall.sk, hsk]⟩

end PutCall

/-! ### What holds of the disk -/

abbrev StoreDisk (Bytes : Type) := Disk Path Dir Bytes

theorem grounded (e : Dir) : Disk.Grounded Path e := by
  cases e with
  | fan a head => exact .sub (rfl : Layout.up Path (Dir.fan a head) = some (.area a)) (.root rfl)
  | area | refs => exact .root rfl

/-- The ref `q` with contents `b` was written by `put`, and no object of it can be lost. -/
structure Backed (d : StoreDisk Bytes) (put : PutCall) (q : Path) (b : Bytes) : Prop where
  accepted : put.Accepted c
  path : q = ref_path c put.key
  contents : b = put.ref c
  objects : ∀ o ∈ put.objects c, Disk.Durable d (blob_path c o) o

/-- Whatever a power loss may leave of a ref is backed; an object's path holds nothing but
the object. -/
structure Inv (U : Set Bytes) (puts : List PutCall) (d : StoreDisk Bytes) : Prop where
  refs : ∀ name x, Regular (.ref name) → some x ∈ d.versions (.ref name) →
    x.flushed = true ∧ ∃ put ∈ puts, Backed c d put (.ref name) x.data
  objects : ∀ head rest x, Regular (.file .objects head rest) →
    some x ∈ d.versions (.file .objects head rest) →
      x.flushed = true ∧ x.data ∈ U ∧ Path.file .objects head rest = blob_path c x.data
  roots : ∀ e : Dir, Layout.up Path e = none → ∀ w ∈ d.makes e, w = true

/-- What the store's runs do in one step: they write temporary files, rename these to the
object or the backed ref they hold, and remove nothing that a ref needs. -/
def Allowed (U : Set Bytes) (puts : List PutCall) (d : StoreDisk Bytes) : StoreOp Bytes → Prop
  | .mkdir _ => True
  | .sync _ => True
  | .write p _ => ¬ Regular p
  | .flush p => ¬ Regular p
  | .rename p q => ¬ Regular p ∧ ∀ x, d.now p = some x →
      x.flushed = true ∧ ((x.data ∈ U ∧ q = blob_path c x.data) ∨ ∃ put ∈ puts, Backed c d put q x.data)
  | .remove p => ∀ name x, Regular (.ref name) → some x ∈ d.versions (.ref name) →
      ∃ put ∈ puts, Backed c d put (.ref name) x.data ∧ ∀ o ∈ put.objects c, p ≠ blob_path c o

variable {c} {U : Set Bytes} {puts : List PutCall} {d : StoreDisk Bytes} {op : StoreOp Bytes}

/-- A durable object stays so under every allowed step but its own removal. -/
theorem durable_step (hinj : Set.InjOn c.of_bytes U) (h : Allowed c U puts d op) {o : Bytes}
    (ho : o ∈ U) (hdur : Disk.Durable d (blob_path c o) o) (hop : op ≠ .remove (blob_path c o)) :
    Disk.Durable (d.step op) (blob_path c o) o := by
  by_cases hmem : blob_path c o ∈ op.changes
  · cases op with
    | mkdir | sync => cases hmem
    | write p b =>
      rw [Op.changes, List.mem_singleton] at hmem
      exact absurd (hmem ▸ regular_blob o) h
    | flush p =>
      rw [Op.changes, List.mem_singleton] at hmem
      exact absurd (hmem ▸ regular_blob o) h
    | remove p =>
      rw [Op.changes, List.mem_singleton] at hmem
      exact absurd (by rw [hmem]) hop
    | rename p q =>
      obtain ⟨hp, hx⟩ := h
      have hne : blob_path c o ≠ p := by
        intro heq
        exact hp (heq ▸ regular_blob o)
      have hq : blob_path c o = q := by
        simpa [Op.changes, hne] using hmem
      cases hnow : d.now p with
      | none => simpa only [Disk.step, hnow] using hdur
      | some x =>
        obtain ⟨hflushed, htarget⟩ := hx x hnow
        cases htarget with
        | inl hblob =>
          have hdata : x.data = o := hinj hblob.1 ho (blob_path_inj (hblob.2.symm.trans hq.symm))
          have hxo : x = ⟨o, true⟩ := by rw [← hdata, ← hflushed]
          subst hq
          exact hdur.rename hne (by rw [hnow, hxo])
        | inr hback =>
          obtain ⟨put, _, hback⟩ := hback
          exact absurd (hback.path.symm.trans hq.symm) (ref_path_ne_blob _ _)
  · exact hdur.step hmem

theorem Backed.mono {d' : StoreDisk Bytes} {put : PutCall} {q : Path} {b : Bytes}
    (h : Backed c d put q b)
    (hdur : ∀ o ∈ put.objects c, Disk.Durable d (blob_path c o) o → Disk.Durable d' (blob_path c o) o) :
    Backed c d' put q b where
  accepted := h.accepted
  path := h.path
  contents := h.contents
  objects o ho := hdur o ho (h.objects o ho)

/-- The version a step puts at a path that is not temporary was allowed, or was there before. -/
theorem version_of_step (h : Allowed c U puts d op) {q : Path} (hq : Regular q) {x : Content Bytes}
    (hx : some x ∈ (d.step op).versions q) :
    some x ∈ d.versions q ∨ ∃ p, op = .rename p q ∧ d.now p = some x := by
  by_cases hmem : q ∈ op.changes
  · cases op with
    | mkdir | sync => cases hmem
    | write p b =>
      rw [Op.changes, List.mem_singleton] at hmem
      exact absurd (hmem ▸ hq) h
    | flush p =>
      rw [Op.changes, List.mem_singleton] at hmem
      exact absurd (hmem ▸ hq) h
    | remove p =>
      rw [Op.changes, List.mem_singleton] at hmem
      subst hmem
      simpa [Disk.step, Disk.versions, Disk.set] using hx
    | rename p q' =>
      have hne : q ≠ p := by
        intro heq
        exact h.1 (heq ▸ hq)
      have hq' : q = q' := by simpa [Op.changes, hne] using hmem
      subst hq'
      cases hnow : d.now p with
      | none => exact .inl (by simpa only [Disk.step, hnow] using hx)
      | some y =>
        have hset : x = y ∨ some x ∈ d.versions q := by
          simpa [Disk.step, hnow, Disk.set, Disk.versions, hne] using hx
        cases hset with
        | inl heq => exact .inr ⟨p, rfl, by rw [heq, hnow]⟩
        | inr hold => exact .inl hold
  · exact .inl (Disk.versions_step hmem hx)

/-- The objects of every call are among the contents considered. -/
def Known (c : Codec Bytes) (U : Set Bytes) (puts : List PutCall) : Prop :=
  ∀ put ∈ puts, c.as_bytes put.key ∈ U ∧ ∀ o ∈ put.objects c, o ∈ U

/-- Every allowed step keeps the invariant. -/
theorem inv_step (hinj : Set.InjOn c.of_bytes U) (hknown : Known c U puts) (hinv : Inv c U puts d)
    (h : Allowed c U puts d op) : Inv c U puts (d.step op) where
  refs name x hreg hx := by
    have hkeep : ∀ put ∈ puts, ∀ q b, Backed c d put q b →
        (∀ p, op = .remove p → ∀ o ∈ put.objects c, p ≠ blob_path c o) →
          Backed c (d.step op) put q b := by
      intro put hput q b hback hremove
      apply hback.mono
      intro o ho hdur
      apply durable_step hinj h ((hknown put hput).2 o ho) hdur
      intro heq
      exact hremove _ heq o ho rfl
    cases version_of_step h hreg hx with
    | inr hrename =>
      obtain ⟨p, rfl, hnow⟩ := hrename
      obtain ⟨hflushed, htarget⟩ := h.2 x hnow
      cases htarget with
      | inl hblob => cases hblob.2
      | inr hback =>
        obtain ⟨put, hput, hback⟩ := hback
        exact ⟨hflushed, put, hput, hkeep put hput _ _ hback (by intro p heq; cases heq)⟩
    | inl hold =>
      obtain ⟨hflushed, put, hput, hback⟩ := hinv.refs name x hreg hold
      refine ⟨hflushed, ?_⟩
      by_cases hremove : ∃ p, op = .remove p
      · obtain ⟨p, rfl⟩ := hremove
        obtain ⟨put, hput, hback, havoid⟩ := h name x hreg hold
        refine ⟨put, hput, hkeep put hput _ _ hback ?_⟩
        intro p' heq o ho
        cases heq
        exact havoid o ho
      · exact ⟨put, hput, hkeep put hput _ _ hback fun p heq => absurd ⟨p, heq⟩ hremove⟩
  objects head rest x hreg hx := by
    cases version_of_step h hreg hx with
    | inl hold => exact hinv.objects head rest x hreg hold
    | inr hrename =>
      obtain ⟨p, rfl, hnow⟩ := hrename
      obtain ⟨hflushed, htarget⟩ := h.2 x hnow
      cases htarget with
      | inl hblob => exact ⟨hflushed, hblob⟩
      | inr hback =>
        obtain ⟨put, _, hback⟩ := hback
        cases hback.path
  roots e hup := Disk.makes_step (hinv.roots e hup)

/-- The invariant of the disk holds of what programs see. -/
theorem inv_settled (hinv : Inv c U puts d) : Inv c U puts (Disk.settled d.files) where
  refs name x hreg hx := by
    have hx := Disk.mem_versions_settled.mp hx
    cases hnow : d.now (.ref name) with
    | none => simp [Disk.files, hnow] at hx
    | some y =>
      simp only [Disk.files, hnow, Option.map_some, Option.some.injEq] at hx
      subst hx
      have hmem : some y ∈ d.versions (.ref name) := hnow ▸ Disk.mem_versions_now d _
      obtain ⟨_, put, hput, hback⟩ := hinv.refs name y hreg hmem
      refine ⟨rfl, put, hput, hback.mono ?_⟩
      intro o _ hdur
      exact Disk.durable_settled hdur.files (grounded _)
  objects head rest x hreg hx := by
    have hx := Disk.mem_versions_settled.mp hx
    cases hnow : d.now (.file .objects head rest) with
    | none => simp [Disk.files, hnow] at hx
    | some y =>
      simp only [Disk.files, hnow, Option.map_some, Option.some.injEq] at hx
      subst hx
      have hmem : some y ∈ d.versions (.file .objects head rest) := hnow ▸ Disk.mem_versions_now d _
      exact ⟨rfl, (hinv.objects head rest y hreg hmem).2⟩
  roots e _ w hw := List.mem_singleton.mp hw

theorem inv_advance (hinj : Set.InjOn c.of_bytes U) (hknown : Known c U puts) {through : Bool}
    (hinv : Inv c U puts d) (h : Allowed c U puts d op) : Inv c U puts (d.advance through op) := by
  have hstep := inv_step hinj hknown hinv h
  cases through with
  | false => exact hstep
  | true => exact inv_settled hstep

/-- More calls do no harm. -/
theorem Inv.cons (hinv : Inv c U puts d) (put : PutCall) : Inv c U (put :: puts) d where
  refs name x hreg hx := by
    obtain ⟨hflushed, put', hput', hback⟩ := hinv.refs name x hreg hx
    exact ⟨hflushed, put', List.mem_cons_of_mem put hput', hback⟩
  objects := hinv.objects
  roots := hinv.roots

/-! ### Runs of steps -/

/-- Every step is allowed where it is taken. -/
def AllowedAll (c : Codec Bytes) (U : Set Bytes) (puts : List PutCall) (through : Bool) :
    StoreDisk Bytes → List (StoreOp Bytes) → Prop
  | _, [] => True
  | d, op :: rest => Allowed c U puts d op ∧ AllowedAll c U puts through (d.advance through op) rest

/-- The disk after some steps. -/
def advance_all (through : Bool) (d : StoreDisk Bytes) (ops : List (StoreOp Bytes)) : StoreDisk Bytes :=
  ops.foldl (Disk.advance through) d

theorem advance_all_append (through : Bool) (d : StoreDisk Bytes) (a b : List (StoreOp Bytes)) :
    advance_all through d (a ++ b) = advance_all through (advance_all through d a) b :=
  List.foldl_append

@[simp] theorem files_advance_all (through : Bool) (d : StoreDisk Bytes) (ops : List (StoreOp Bytes)) :
    (advance_all through d ops).files = d.files.run ops := by
  induction ops generalizing d with
  | nil => rfl
  | cons op rest ih =>
    rw [Files.run_cons, ← Disk.files_advance through]
    exact ih _

theorem allowedAll_append {through : Bool} {a b : List (StoreOp Bytes)} :
    AllowedAll c U puts through d (a ++ b) ↔
      AllowedAll c U puts through d a ∧ AllowedAll c U puts through (advance_all through d a) b := by
  induction a generalizing d with
  | nil => simp [AllowedAll, advance_all]
  | cons op rest ih =>
    rw [List.cons_append, AllowedAll, AllowedAll, ih, and_assoc]
    rfl

theorem inv_advance_all (hinj : Set.InjOn c.of_bytes U) (hknown : Known c U puts) {through : Bool}
    {ops : List (StoreOp Bytes)} (hinv : Inv c U puts d) (h : AllowedAll c U puts through d ops) :
    Inv c U puts (advance_all through d ops) := by
  induction ops generalizing d with
  | nil => exact hinv
  | cons op rest ih => exact ih (inv_advance hinj hknown hinv h.1) h.2

end cgx.store
