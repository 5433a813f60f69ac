import Cgx.Scip.Decode

open protobuf results
open cgx.scip.wire cgx.scip.wire.Reader

namespace cgx.scip

/-! ### One part of a message -/

section

variable {α β : Type}

/-- A part of a message that only the fields of one number change. -/
def at_number (number : Nat) (k : β → Payload → Outcome β) (x : β) (f : Field) : Outcome β :=
  if f.number = number then k x f.payload else .ok x

def on_len (k : β → wire.Bytes → Outcome β) (x : β) (p : Payload) : Outcome β :=
  match p.len? with
  | some bytes => k x bytes
  | none => .ok x

def on_varint (k : β → Nat → Outcome β) (x : β) (p : Payload) : Outcome β :=
  match p.varint? with
  | some v => k x v
  | none => .ok x

theorem fold_at_number {number : Nat} {k : β → Payload → Outcome β} {x : β} {fs : List Field} :
    fs.foldlM (at_number number k) x = (payloads number fs).foldlM k x := by
  rw [payloads, List.foldlM_map, List.foldlM_filter]
  simp only [decide_eq_true_eq]
  rfl

theorem fold_on_len {number : Nat} {k : β → wire.Bytes → Outcome β} {x : β} {fs : List Field} :
    fs.foldlM (at_number number (on_len k)) x = (lens number fs).foldlM k x := by
  rw [fold_at_number, lens, List.foldlM_filterMap]
  congr 1
  funext x p
  cases p <;> rfl

theorem fold_on_varint {number : Nat} {k : β → Nat → Outcome β} {x : β} {fs : List Field} :
    fs.foldlM (at_number number (on_varint k)) x = (varints number fs).foldlM k x := by
  rw [fold_at_number, varints, List.foldlM_filterMap]
  congr 1
  funext x p
  cases p <;> rfl

/-- The last piece counts. -/
theorem fold_last {k : α → Outcome β} {x y : β} {l : List α} :
    l.foldlM (fun _ a => k a) x = .ok y ↔
      ∃ ys, List.Forall₂ (fun y a => k a = .ok y) ys l ∧ y = ys.getLastD x := by
  induction l generalizing x with
  | nil =>
    constructor
    · intro h
      cases h
      exact ⟨[], .nil, rfl⟩
    · rintro ⟨ys, hys, rfl⟩
      cases hys
      rfl
  | cons a rest ih =>
    rw [List.foldlM_cons, bind_ok_iff]
    constructor
    · rintro ⟨b, hb, hrest⟩
      obtain ⟨ys, hys, rfl⟩ := ih.mp hrest
      exact ⟨b :: ys, .cons hb hys, (List.getLastD_cons ..).symm⟩
    · rintro ⟨ys, hys, rfl⟩
      cases hys with
      | @cons b _ ys _ hb hys => exact ⟨b, hb, ih.mpr ⟨ys, hys, List.getLastD_cons ..⟩⟩

/-- Every piece counts. -/
theorem fold_all {k : α → Outcome β} {xs ys : List β} {l : List α} :
    l.foldlM (fun xs a => do let x ← k a; .ok (xs ++ [x])) xs = .ok ys ↔
      ∃ zs, List.Forall₂ (fun z a => k a = .ok z) zs l ∧ ys = xs ++ zs := by
  induction l generalizing xs with
  | nil =>
    constructor
    · intro h
      cases h
      exact ⟨[], .nil, (List.append_nil _).symm⟩
    · rintro ⟨zs, hzs, rfl⟩
      cases hzs
      rw [List.append_nil]
      rfl
  | cons a rest ih =>
    rw [List.foldlM_cons, bind_ok_iff]
    constructor
    · rintro ⟨xs', hxs', hrest⟩
      obtain ⟨z, hz, hok⟩ := bind_ok_iff.mp hxs'
      cases hok
      obtain ⟨zs, hzs, rfl⟩ := ih.mp hrest
      exact ⟨z :: zs, .cons hz hzs, by rw [List.append_assoc, List.singleton_append]⟩
    · rintro ⟨zs, hzs, rfl⟩
      cases hzs with
      | @cons z _ zs _ hz hzs =>
        refine ⟨xs ++ [z], bind_ok_iff.mpr ⟨z, hz, rfl⟩, ih.mpr ⟨zs, hzs, ?_⟩⟩
        rw [List.append_assoc, List.singleton_append]

theorem fold_text {pieces : List wire.Bytes} {s : String} :
    pieces.foldlM (fun _ bytes => from_utf8 bytes) "" = .ok s ↔ Text pieces s := by
  rw [fold_last, Text]
  have hiff : ∀ texts : List String, List.Forall₂ (fun t bytes => from_utf8 bytes = .ok t) texts pieces ↔
      pieces = texts.map fun t => t.toByteArray.data.toList := by
    intro texts
    constructor
    · intro h
      induction h with
      | nil => rfl
      | cons ht _ ih => rw [from_utf8_iff.mp ht, ih, List.map_cons]
    · rintro rfl
      rw [List.forall₂_map_right_iff, List.forall₂_same]
      exact fun _ _ => from_utf8_iff.mpr rfl
  simp only [hiff]

theorem fold_scalar {k : Nat → β} {x y : β} {vs : List Nat} :
    vs.foldlM (fun _ v => (.ok (k v) : Outcome β)) x = .ok y ↔ y = (vs.map k).getLastD x := by
  rw [fold_last]
  constructor
  · rintro ⟨ys, hys, rfl⟩
    congr 1
    induction hys with
    | nil => rfl
    | cons hv _ ih =>
      cases hv
      rw [ih, List.map_cons]
  · rintro rfl
    refine ⟨vs.map k, ?_, rfl⟩
    rw [List.forall₂_map_left_iff, List.forall₂_same]
    exact fun _ _ => rfl

end

/-! ### The arms of a parser -/

section

variable {α β : Type} {take : α → Field → Outcome α} {acc : α} {number : Nat} {r : Reader}

theorem arm_str {f : String → α}
    (htake : ∀ bytes, take acc ⟨number, .len bytes⟩ = from_utf8 bytes >>= fun text => .ok (f text)) :
    (do let (text, r) ← r.read_str; .ok (f text, r)) = through take ⟨number, .Len⟩ acc r := by
  rw [through, read_payload, read_str]
  cases r.read_len with
  | error s => rfl
  | ok read =>
    simp only [except_bind_ok, htake]
    cases from_utf8 read.1 <;> rfl

theorem arm_message {p : Reader → Outcome β} {f : β → α}
    (htake : ∀ bytes, take acc ⟨number, .len bytes⟩ = p (new bytes) >>= fun x => .ok (f x)) :
    (do let (message, r) ← r.read_message; let x ← p message; .ok (f x, r)) =
      through take ⟨number, .Len⟩ acc r := by
  rw [through, read_payload, read_message]
  cases r.read_len with
  | error s => rfl
  | ok read =>
    simp only [except_bind_ok, htake]
    cases p (new read.1) <;> rfl

theorem arm_i32 {f : Int32 → α} (htake : ∀ v, take acc ⟨number, .varint v⟩ = .ok (f (as_i32 v))) :
    (do let (v, r) ← r.read_i32; .ok (f v, r)) = through take ⟨number, .Varint⟩ acc r := by
  rw [through, read_payload, read_i32]
  cases r.read_raw_varint with
  | error s => rfl
  | ok read =>
    simp only [except_bind_ok, htake]

/-- The payloads of a wire type. -/
def FitsWire : WireType → Payload → Prop
  | .Varint, .varint _ => True
  | .Fixed64, .fixed64 _ => True
  | .Len, .len _ => True
  | .Fixed32, .fixed32 _ => True
  | _, _ => False

theorem arm_skip {wire : WireType} (htake : ∀ p, FitsWire wire p → take acc ⟨number, p⟩ = .ok acc) :
    (do let r ← r.skip wire; .ok (acc, r)) = through take ⟨number, wire⟩ acc r := by
  cases wire with
  | Varint =>
    rw [through, read_payload, skip]
    cases r.read_raw_varint with
    | error s => rfl
    | ok read => simp only [except_bind_ok, htake (.varint read.1) trivial]
  | Fixed64 =>
    rw [through, read_payload, skip]
    cases r.advance 8 with
    | error s => rfl
    | ok read => simp only [except_bind_ok, htake (.fixed64 _) trivial]
  | Len =>
    rw [through, read_payload, skip]
    cases r.read_len with
    | error s => rfl
    | ok read => simp only [except_bind_ok, htake (.len read.1) trivial]
  | Fixed32 =>
    rw [through, read_payload, skip]
    cases r.advance 4 with
    | error s => rfl
    | ok read => simp only [except_bind_ok, htake (.fixed32 _) trivial]

/-- A field of another number, or under another wire type, leaves a part alone. -/
theorem untaken_len {wt : WireType} {own : Nat} {k : β → wire.Bytes → Outcome β} {x : β} {p : Payload}
    (hother : number = own → wt = .Len → False) (hp : FitsWire wt p) :
    at_number own (on_len k) x ⟨number, p⟩ = .ok x := by
  rw [at_number]
  split
  · rename_i hnumber
    cases p with
    | len bytes =>
      cases wt with
      | Len => exact (hother hnumber rfl).elim
      | _ => cases hp
    | _ => rfl
  · rfl

theorem untaken_varint {wt : WireType} {own : Nat} {k : β → Nat → Outcome β} {x : β} {p : Payload}
    (hother : number = own → wt = .Varint → False) (hp : FitsWire wt p) :
    at_number own (on_varint k) x ⟨number, p⟩ = .ok x := by
  rw [at_number]
  split
  · rename_i hnumber
    cases p with
    | varint v =>
      cases wt with
      | Varint => exact (hother hnumber rfl).elim
      | _ => cases hp
    | _ => rfl
  · rfl

end

/-! ### Kinds of parts -/

section

variable {α : Type}

def text_part (number : Nat) : String → Field → Outcome String :=
  at_number number (on_len fun _ bytes => from_utf8 bytes)

def scalar_part (number : Nat) (f : Int32 → α) : α → Field → Outcome α :=
  at_number number (on_varint fun _ v => .ok (f (as_i32 v)))

def list_part (number : Nat) (parse : Reader → Outcome α) : List α → Field → Outcome (List α) :=
  at_number number (on_len fun xs bytes => do let x ← parse (new bytes); .ok (xs ++ [x]))

def last_part (number : Nat) (parse : Reader → Outcome α) : α → Field → Outcome α :=
  at_number number (on_len fun _ bytes => parse (new bytes))

def take_ints (ints : List Int32) : Payload → Outcome (List Int32)
  | .len bytes => (new bytes).while_packed ints
  | .varint v => .ok (ints ++ [as_i32 v])
  | _ => .ok ints

def ints_part (number : Nat) : List Int32 → Field → Outcome (List Int32) :=
  at_number number take_ints

theorem list_part_len {number : Nat} {parse : Reader → Outcome α} {xs : List α} {bytes : wire.Bytes} :
    list_part number parse xs ⟨number, .len bytes⟩ = parse (new bytes) >>= fun x => .ok (xs ++ [x]) :=
  if_pos rfl

theorem last_part_len {number : Nat} {parse : Reader → Outcome α} {x : α} {bytes : wire.Bytes} :
    last_part number parse x ⟨number, .len bytes⟩ = parse (new bytes) :=
  if_pos rfl

theorem ints_part_len {number : Nat} {ints : List Int32} {bytes : wire.Bytes} :
    ints_part number ints ⟨number, .len bytes⟩ = (new bytes).while_packed ints :=
  if_pos rfl

/-- The payload of a field is one that can be allocated. -/
def Short (f : Field) : Prop :=
  ∀ bytes, f.payload = .len bytes → bytes.length < 2 ^ 63

theorem short_of_fields {d : Dialect} {fs : List Field} {bytes : wire.Bytes} (h : d.Fields fs bytes)
    (hroom : bytes.length < 2 ^ 63) : ∀ f ∈ fs, Short f := by
  rintro ⟨number, payload⟩ hf inner rfl
  exact (h.length_le hf).trans_lt hroom

/-- A parser reads what the encoding of its message says, and always ends. -/
structure Parses (parse : Reader → Outcome α) (meaning : List Field → α → Prop) : Prop where
  ok_iff : ∀ {bytes x}, bytes.length < 2 ^ 63 →
    (parse (new bytes) = .ok x ↔ cutting.Message meaning x bytes)
  settles : ∀ {bytes}, bytes.length < 2 ^ 63 → Settles (parse (new bytes))

variable {fs : List Field} {number : Nat} {parse : Reader → Outcome α} {meaning : List Field → α → Prop}

theorem text_part_iff {s : String} : fs.foldlM (text_part number) "" = .ok s ↔ Text (lens number fs) s := by
  rw [text_part, fold_on_len, fold_text]

theorem scalar_part_iff {f : Int32 → α} {x y : α} : fs.foldlM (scalar_part number f) x = .ok y ↔
    y = (((varints number fs).map as_i32).map f).getLastD x := by
  rw [scalar_part, fold_on_varint, fold_scalar (k := fun v => f (as_i32 v)), List.map_map]
  rfl

theorem lens_short (hshort : ∀ f ∈ fs, Short f) : ∀ bytes ∈ lens number fs, bytes.length < 2 ^ 63 :=
  fun bytes hbytes => hshort _ (mem_of_mem_lens hbytes) bytes rfl

theorem Parses.forall₂ (hparse : Parses parse meaning) {xs : List α} {pieces : List wire.Bytes}
    (hshort : ∀ bytes ∈ pieces, bytes.length < 2 ^ 63) :
    List.Forall₂ (fun x bytes => parse (new bytes) = .ok x) xs pieces ↔
      List.Forall₂ (cutting.Message meaning) xs pieces := by
  constructor
  · exact fun h => forall₂_of_mem h fun x bytes hbytes hok => (hparse.ok_iff (hshort bytes hbytes)).mp hok
  · exact fun h => forall₂_of_mem h fun x bytes hbytes hmeans => (hparse.ok_iff (hshort bytes hbytes)).mpr hmeans

theorem Parses.list_part_iff (hparse : Parses parse meaning) (hshort : ∀ f ∈ fs, Short f) {xs : List α} :
    fs.foldlM (list_part number parse) [] = .ok xs ↔
      List.Forall₂ (cutting.Message meaning) xs (lens number fs) := by
  rw [list_part, fold_on_len, fold_all, ← hparse.forall₂ (lens_short hshort)]
  constructor
  · rintro ⟨zs, hzs, rfl⟩
    exact hzs
  · exact fun h => ⟨xs, h, (List.nil_append xs).symm⟩

theorem Parses.last_part_iff (hparse : Parses parse meaning) (hshort : ∀ f ∈ fs, Short f) {none x : α} :
    fs.foldlM (last_part number parse) none = .ok x ↔
      cutting.Embedded meaning none (lens number fs) x := by
  rw [last_part, fold_on_len, fold_last (k := fun bytes => parse (new bytes))]
  simp only [hparse.forall₂ (lens_short hshort)]
  rfl

theorem take_ints_iff {p : Payload} (hshort : ∀ bytes, p = .len bytes → bytes.length < 2 ^ 63)
    {ints xs : List Int32} :
    take_ints ints p = .ok xs ↔ ∃ vs, cutting.Scalars vs p ∧ xs = ints ++ vs.map as_i32 := by
  cases p with
  | len bytes =>
    rw [take_ints, while_packed_iff (hshort bytes rfl)]
    constructor
    · rintro ⟨vs, hvs, hxs⟩
      exact ⟨vs, .packed hvs, hxs⟩
    · rintro ⟨vs, hvs, hxs⟩
      cases hvs with
      | packed hvs => exact ⟨vs, hvs, hxs⟩
      | unknown hlen _ => cases hlen
  | varint v =>
    constructor
    · rintro ⟨⟩
      exact ⟨[v], .varint v, rfl⟩
    · rintro ⟨vs, hvs, rfl⟩
      cases hvs with
      | varint _ => rfl
      | unknown _ hvarint => cases hvarint
  | _ =>
    constructor
    · rintro ⟨⟩
      exact ⟨[], .unknown rfl rfl, (List.append_nil _).symm⟩
    · rintro ⟨vs, hvs, rfl⟩
      cases hvs
      rw [List.map_nil, List.append_nil]
      rfl

theorem fold_ints {ps : List Payload} (hshort : ∀ p ∈ ps, ∀ bytes, p = .len bytes → bytes.length < 2 ^ 63)
    {ints xs : List Int32} : ps.foldlM take_ints ints = .ok xs ↔
      ∃ vss, List.Forall₂ cutting.Scalars vss ps ∧ xs = ints ++ vss.flatten.map as_i32 := by
  induction ps generalizing ints with
  | nil =>
    constructor
    · rintro ⟨⟩
      exact ⟨[], .nil, (List.append_nil _).symm⟩
    · rintro ⟨vss, hvss, rfl⟩
      cases hvss
      rw [List.flatten_nil, List.map_nil, List.append_nil]
      rfl
  | cons p rest ih =>
    have ih := @ih fun p hp => hshort p (List.mem_cons_of_mem _ hp)
    have htake := @take_ints_iff p (hshort p List.mem_cons_self)
    rw [List.foldlM_cons, bind_ok_iff]
    constructor
    · rintro ⟨mid, hmid, hrest⟩
      obtain ⟨vs, hvs, rfl⟩ := htake.mp hmid
      obtain ⟨vss, hvss, rfl⟩ := ih.mp hrest
      exact ⟨vs :: vss, .cons hvs hvss, by rw [List.flatten_cons, List.map_append, List.append_assoc]⟩
    · rintro ⟨vss, hvss, rfl⟩
      cases hvss with
      | @cons vs _ vss _ hvs hvss =>
        refine ⟨ints ++ vs.map as_i32, htake.mpr ⟨vs, hvs, rfl⟩, ih.mpr ⟨vss, hvss, ?_⟩⟩
        rw [List.flatten_cons, List.map_append, List.append_assoc]

theorem ints_part_iff (hshort : ∀ f ∈ fs, Short f) {xs : List Int32} :
    fs.foldlM (ints_part number) [] = .ok xs ↔
      ∃ vss, List.Forall₂ cutting.Scalars vss (payloads number fs) ∧ xs = vss.flatten.map as_i32 := by
  have hpayloads : ∀ p ∈ payloads number fs, ∀ bytes, p = .len bytes → bytes.length < 2 ^ 63 := by
    intro p hp bytes hbytes
    obtain ⟨f, hf, rfl⟩ := List.mem_map.mp hp
    exact hshort f (List.mem_filter.mp hf).1 bytes hbytes
  rw [ints_part, fold_at_number, fold_ints hpayloads]
  simp only [List.nil_append]

theorem at_number_settles {k : α → Payload → Outcome α} {x : α} {f : Field} (hk : Settles (k x f.payload)) :
    Settles (at_number number k x f) := by
  rw [at_number]
  split
  · exact hk
  · exact settles_ok _

theorem on_len_settles {k : α → wire.Bytes → Outcome α} {x : α} {f : Field} (hshort : Short f)
    (hk : ∀ bytes, bytes.length < 2 ^ 63 → Settles (k x bytes)) :
    Settles (at_number number (on_len k) x f) := by
  apply at_number_settles
  obtain ⟨_, payload⟩ := f
  cases payload with
  | len bytes => exact hk bytes (hshort bytes rfl)
  | _ => exact settles_ok _

theorem text_part_settles {x : String} {f : Field} (hshort : Short f) : Settles (text_part number x f) :=
  on_len_settles hshort fun bytes _ => from_utf8_settles bytes

theorem scalar_part_settles {g : Int32 → α} {x : α} {f : Field} : Settles (scalar_part number g x f) := by
  apply at_number_settles
  obtain ⟨_, payload⟩ := f
  cases payload <;> exact settles_ok _

theorem Parses.list_part_settles (hparse : Parses parse meaning) {xs : List α} {f : Field} (hshort : Short f) :
    Settles (list_part number parse xs f) :=
  on_len_settles hshort fun _ hroom => (hparse.settles hroom).bind fun _ _ => settles_ok _

theorem Parses.last_part_settles (hparse : Parses parse meaning) {x : α} {f : Field} (hshort : Short f) :
    Settles (last_part number parse x f) :=
  on_len_settles hshort fun _ hroom => hparse.settles hroom

theorem ints_part_settles {ints : List Int32} {f : Field} (hshort : Short f) :
    Settles (ints_part number ints f) := by
  apply at_number_settles
  obtain ⟨_, payload⟩ := f
  cases payload with
  | len bytes => exact while_packed_settles (hshort bytes rfl)
  | _ => exact settles_ok _

/-- A parser whose loop takes the fields in order. -/
theorem Parses.of_take {take : α → Field → Outcome α} {init : α}
    (heq : ∀ r, parse r = r.while_fields init (through take))
    (hfold : ∀ {fs : List Field} {x}, (∀ f ∈ fs, Short f) → (fs.foldlM take init = .ok x ↔ meaning fs x))
    (hsettles : ∀ acc f, Short f → Settles (take acc f)) : Parses parse meaning := by
  refine ⟨?_, ?_⟩
  · intro bytes x hroom
    rw [heq, while_fields_iff (fun _ _ _ => rfl) hroom]
    constructor
    · rintro ⟨fs, hfields, hok⟩
      exact ⟨fs, hfields, (hfold (short_of_fields hfields hroom)).mp hok⟩
    · rintro ⟨fs, hfields, hmeans⟩
      exact ⟨fs, hfields, (hfold (short_of_fields hfields hroom)).mpr hmeans⟩
  · intro bytes hroom
    rw [heq]
    exact while_fields_settles (fun _ _ _ => rfl) hsettles hroom

end

end cgx.scip
