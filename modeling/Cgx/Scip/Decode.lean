import Mathlib.Data.Nat.Bitwise
import Cgx.Lib.Result
import Cgx.Scip.Encoding

open protobuf results

namespace cgx.scip.wire

/-! ### Runs that end with a result or a rejection -/

/-- A run neither panics nor loops. -/
def Settles {α : Type} (x : Outcome α) : Prop :=
  ∀ s, x = .error s → ∃ e, s = .rejected e

section

variable {α β : Type}

theorem settles_ok (a : α) : Settles (.ok a) := by
  intro s h
  cases h

theorem settles_reject (e : WireError) : Settles (reject e : Outcome α) := by
  intro s h
  cases h
  exact ⟨e, rfl⟩

theorem Settles.bind {x : Outcome α} {f : α → Outcome β} (hx : Settles x)
    (hf : ∀ a, x = .ok a → Settles (f a)) : Settles (x >>= f) := by
  intro s h
  cases hok : x with
  | error s' =>
    rw [hok] at h
    cases h
    exact hx s hok
  | ok a =>
    rw [hok, except_bind_ok] at h
    exact hf a hok s h

theorem from_utf8_iff {bytes : Bytes} {s : String} : from_utf8 bytes = .ok s ↔ bytes = s.toByteArray.data.toList := by
  rw [from_utf8]
  constructor
  · intro h
    split at h
    · rename_i text htext
      cases h
      rw [String.fromUTF8?] at htext
      split at htext
      · cases htext
        rfl
      · cases htext
    · cases h
  · intro h
    subst h
    have hsome : String.fromUTF8? ⟨s.toByteArray.data.toList.toArray⟩ = some s := by
      rw [String.fromUTF8?, dif_pos s.isValidUTF8]
      rfl
    rw [hsome]

theorem from_utf8_settles (bytes : Bytes) : Settles (from_utf8 bytes) := by
  rw [from_utf8]
  split
  · exact settles_ok _
  · exact settles_reject _

end

/-! ### Bytes and words -/

theorem low_bits (b : UInt8) : (b &&& 0x7f).toNat = b.toNat % 128 := by
  rw [UInt8.toNat_and]
  exact Nat.and_two_pow_sub_one_eq_mod b.toNat 7

theorem high_bit_clear_iff (b : UInt8) : b &&& 0x80 = 0 ↔ b.toNat < 128 := by
  have hlt := b.toNat_lt
  have hbit : (b &&& 0x80).toNat = (b.toNat.testBit 7).toNat * 2 ^ 7 := by
    rw [UInt8.toNat_and]
    exact Nat.and_two_pow b.toNat 7
  have htest : b.toNat.testBit 7 = decide (128 ≤ b.toNat) := by
    rw [Nat.testBit_eq_decide_div_mod_eq]
    have hdiv : b.toNat / 2 ^ 7 % 2 = 1 ↔ 128 ≤ b.toNat := by omega
    exact decide_eq_decide.mpr hdiv
  rw [← UInt8.toNat_inj, hbit, htest]
  by_cases hge : 128 ≤ b.toNat
  · simp [hge]
  · simp [hge]
    omega

/-- A digit joined to the more significant ones. -/
theorem digit_or (b w shift : Nat) (hb : b < 128) :
    (b <<< shift % 2 ^ 64) ||| (w <<< (shift + 7) % 2 ^ 64) = (b + 128 * w) <<< shift % 2 ^ 64 := by
  have hjoin : b ||| w <<< 7 = b + 128 * w := by
    rw [Nat.or_comm, ← Nat.shiftLeft_add_eq_or_of_lt (show b < 2 ^ 7 from hb), Nat.shiftLeft_eq]
    omega
  have hword := Nat.or_mod_two_pow (a := b <<< shift) (b := w <<< (shift + 7)) (n := 64)
  rw [← hword, Nat.add_comm shift 7, Nat.shiftLeft_add, ← Nat.shiftLeft_or_distrib, hjoin]

namespace Reader

/-- The bytes that are still to be read. -/
def rest (r : Reader) : Bytes :=
  r.buf.drop r.pos

/-- The reader after some bytes. -/
def ahead (r : Reader) (n : Nat) : Reader :=
  { r with pos := r.pos + n }

/-- The cursor is in its buffer, and the buffer is one that can be allocated. -/
structure Fits (r : Reader) : Prop where
  inside : r.pos ≤ r.buf.length
  room : r.buf.length < 2 ^ 63

variable {r : Reader}

theorem rest_length : r.rest.length = r.buf.length - r.pos :=
  List.length_drop

theorem rest_ahead {bs more : Bytes} (h : r.rest = bs ++ more) : (r.ahead bs.length).rest = more := by
  change r.buf.drop (r.pos + bs.length) = more
  rw [← List.drop_drop]
  change r.rest.drop bs.length = more
  rw [h, List.drop_left]

theorem Fits.ahead (hfits : r.Fits) {bs more : Bytes} (h : r.rest = bs ++ more) :
    (r.ahead bs.length).Fits := by
  have hlen := congrArg List.length h
  rw [rest_length, List.length_append] at hlen
  have hinside := hfits.inside
  refine ⟨?_, hfits.room⟩
  change r.pos + bs.length ≤ r.buf.length
  omega

theorem ahead_ahead (m n : Nat) : (r.ahead m).ahead n = r.ahead (m + n) := by
  change Reader.mk r.buf (r.pos + m + n) = ⟨r.buf, r.pos + (m + n)⟩
  rw [Nat.add_assoc]

theorem fits_new {bytes : Bytes} (h : bytes.length < 2 ^ 63) : (new bytes).Fits :=
  ⟨Nat.zero_le _, h⟩

theorem next_byte_eq : r.next_byte = match r.rest with
    | b :: _ => .ok b
    | [] => reject .UnexpectedEof := by
  rw [next_byte, rest]
  cases hrest : r.buf.drop r.pos with
  | nil =>
    rw [List.getElem?_eq_none (List.drop_eq_nil_iff.mp hrest)]
  | cons b tail =>
    have hget : r.buf[r.pos]? = some b := by
      rw [← List.head?_drop, hrest]
      rfl
    rw [hget]

theorem Fits.pos_lt (hfits : r.Fits) {b : UInt8} {tail : Bytes} (hrest : r.rest = b :: tail) :
    r.pos < r.buf.length ∧ r.pos + 1 < 2 ^ 64 := by
  have hlen := congrArg List.length hrest
  have hroom := hfits.room
  rw [rest_length, List.length_cons] at hlen
  omega

theorem read_digits_nil (hrest : r.rest = []) {fuel result shift : Nat} :
    read_digits (fuel + 1) r result shift = reject .UnexpectedEof := by
  rw [read_digits, next_byte_eq, hrest]
  rfl

/-- What one round does with the byte it reads. -/
theorem read_digits_cons (hfits : r.Fits) {b : UInt8} {tail : Bytes} (hrest : r.rest = b :: tail)
    {fuel k result : Nat} : read_digits (fuel + 1) r result (7 * k) =
      if 10 ≤ k then reject .VarintOverflow
      else if b.toNat < 128 then .ok (result ||| (b.toNat % 128) <<< (7 * k) % 2 ^ 64, r.ahead 1)
      else read_digits fuel (r.ahead 1) (result ||| (b.toNat % 128) <<< (7 * k) % 2 ^ 64) (7 * (k + 1)) := by
  have hpos : add_usize r.pos 1 = .ok (r.pos + 1) := if_pos (hfits.pos_lt hrest).2
  rw [read_digits, next_byte_eq, hrest]
  change (add_usize r.pos 1 >>= _) = _
  rw [hpos, except_bind_ok]
  by_cases hover : 10 ≤ k
  · rw [if_pos hover, if_pos (by omega)]
  · have hshl : shl_u64 (b &&& 0x7f).toNat (7 * k) = .ok ((b.toNat % 128) <<< (7 * k) % 2 ^ 64) := by
      rw [shl_u64, if_pos (by omega), low_bits]
    have hadd : add_u32 (7 * k) 7 = .ok (7 * (k + 1)) := by
      rw [add_u32, if_pos (by omega)]
      rfl
    rw [if_neg hover, if_neg (by omega), hshl, except_bind_ok]
    by_cases hlast : b.toNat < 128
    · rw [if_pos hlast, if_pos ((high_bit_clear_iff b).mpr hlast)]
      rfl
    · rw [if_neg hlast, if_neg (mt (high_bit_clear_iff b).mp hlast), hadd]
      rfl

/-- The digits that are read join the result at the place of the next digit. -/
theorem read_digits_iff (hfits : r.Fits) {fuel k result v : Nat} (hfuel : fuel + k = 11) {r' : Reader} :
    read_digits fuel r result (7 * k) = .ok (v, r') ↔
      ∃ bs w more, Digits bs w ∧ k + bs.length ≤ 10 ∧ r.rest = bs ++ more ∧ r' = r.ahead bs.length ∧
        v = result ||| w <<< (7 * k) % 2 ^ 64 := by
  induction fuel generalizing r k result with
  | zero =>
    rw [read_digits]
    constructor
    · intro h
      cases h
    · rintro ⟨bs, w, more, _, hlen, _⟩
      omega
  | succ fuel ih =>
    cases hrest : r.rest with
    | nil =>
      rw [read_digits_nil hrest]
      constructor
      · intro h
        cases h
      · rintro ⟨bs, w, more, hdigits, _, hempty, _⟩
        exact absurd (List.append_eq_nil_iff.mp hempty.symm).1 hdigits.ne_nil
    | cons b tail =>
      rw [read_digits_cons hfits hrest]
      by_cases hover : 10 ≤ k
      · rw [if_pos hover]
        constructor
        · intro h
          cases h
        · rintro ⟨bs, w, more, hdigits, hlen, _⟩
          have hne := List.length_pos_iff.mpr hdigits.ne_nil
          omega
      rw [if_neg hover]
      by_cases hlast : b.toNat < 128
      · rw [if_pos hlast, Nat.mod_eq_of_lt hlast]
        constructor
        · intro h
          cases h
          refine ⟨[b], b.toNat, tail, .last hlast, ?_, rfl, rfl, rfl⟩
          rw [List.length_singleton]
          omega
        · rintro ⟨bs, w, more, hdigits, _, hbytes, rfl, rfl⟩
          cases hdigits with
          | last hb =>
            injection hbytes with hhead _
            subst hhead
            rfl
          | more hb _ =>
            injection hbytes with hhead _
            subst hhead
            omega
      · have hone : r.rest = [b] ++ tail := hrest
        have hnext : (r.ahead 1).rest = tail := rest_ahead hone
        have hahead : (r.ahead 1).Fits := hfits.ahead hone
        have hdigit : b.toNat % 128 < 128 := Nat.mod_lt _ (by omega)
        rw [if_neg hlast, ih hahead (k := k + 1) (by omega), hnext]
        constructor
        · rintro ⟨bs, w, more, hdigits, hlen, rfl, rfl, rfl⟩
          refine ⟨b :: bs, b.toNat % 128 + 128 * w, more, .more (by omega) hdigits, ?_, rfl, ?_, ?_⟩
          · rw [List.length_cons]
            omega
          · rw [ahead_ahead, List.length_cons, Nat.add_comm]
          · rw [Nat.or_assoc, ← digit_or _ w (7 * k) hdigit]
            rfl
        · rintro ⟨bs, w, more, hdigits, hlen, hbytes, rfl, rfl⟩
          cases hdigits with
          | last hb =>
            injection hbytes with hhead _
            subst hhead
            omega
          | @more _ bs w _ hdigits =>
            injection hbytes with hhead htail
            subst hhead
            rw [List.length_cons] at hlen
            refine ⟨bs, w, more, hdigits, by omega, htail, ?_, ?_⟩
            · rw [ahead_ahead, List.length_cons, Nat.add_comm]
            · rw [Nat.or_assoc, ← digit_or _ w (7 * k) hdigit]
              rfl

theorem read_digits_settles (hfits : r.Fits) {fuel k result : Nat} (hk : k ≤ 10) (hfuel : fuel + k = 11) :
    Settles (read_digits fuel r result (7 * k)) := by
  induction fuel generalizing r k result with
  | zero => omega
  | succ fuel ih =>
    cases hrest : r.rest with
    | nil =>
      rw [read_digits_nil hrest]
      exact settles_reject _
    | cons b tail =>
      rw [read_digits_cons hfits hrest]
      split
      · exact settles_reject _
      · split
        · exact settles_ok _
        · exact ih (hfits.ahead (show r.rest = [b] ++ tail from hrest)) (by omega) (by omega)

theorem read_raw_varint_iff (hfits : r.Fits) {v : Nat} {r' : Reader} : r.read_raw_varint = .ok (v, r') ↔
    ∃ bs more, cutting.Varint bs v ∧ r.rest = bs ++ more ∧ r' = r.ahead bs.length := by
  rw [read_raw_varint, read_digits_iff hfits (k := 0) rfl]
  constructor
  · rintro ⟨bs, w, more, hdigits, hlen, hrest, hahead, hv⟩
    rw [Nat.zero_or] at hv
    exact ⟨bs, more, ⟨by omega, w, hdigits, hv, nofun⟩, hrest, hahead⟩
  · rintro ⟨bs, more, ⟨hlen, w, hdigits, hv, _⟩, hrest, hahead⟩
    exact ⟨bs, w, more, hdigits, by omega, hrest, hahead, by rw [Nat.zero_or]; exact hv⟩

theorem read_raw_varint_settles (hfits : r.Fits) : Settles r.read_raw_varint :=
  read_digits_settles hfits (Nat.zero_le _) rfl

/-! ### Payloads -/

/-- A length is in range exactly when that many bytes are left. -/
theorem window (hfits : r.Fits) (n : Nat) :
    (n ≤ r.rest.length ∧ checked_add r.pos n = some (r.pos + n) ∧ ¬ r.pos + n > r.buf.length) ∨
      r.rest.length < n ∧ ∀ stop, checked_add r.pos n = some stop → stop > r.buf.length := by
  have hinside := hfits.inside
  have hroom := hfits.room
  rw [rest_length, checked_add]
  by_cases hle : n ≤ r.buf.length - r.pos
  · exact .inl ⟨hle, if_pos (by omega), by omega⟩
  · refine .inr ⟨by omega, ?_⟩
    intro stop hstop
    split at hstop
    · cases hstop
      omega
    · cases hstop

theorem advance_iff (hfits : r.Fits) {n : Nat} {r' : Reader} : r.advance n = .ok r' ↔
    ∃ bs more, bs.length = n ∧ r.rest = bs ++ more ∧ r' = r.ahead bs.length := by
  rw [advance]
  cases window hfits n with
  | inl hin =>
    obtain ⟨hle, hadd, hstop⟩ := hin
    rw [hadd]
    simp only [if_neg hstop]
    constructor
    · intro h
      cases h
      refine ⟨r.rest.take n, r.rest.drop n, List.length_take_of_le hle, (List.take_append_drop n _).symm, ?_⟩
      rw [List.length_take_of_le hle]
      rfl
    · rintro ⟨bs, more, rfl, _, rfl⟩
      rfl
  | inr hout =>
    constructor
    · intro h
      split at h
      · cases h
      · rename_i stop hstop
        rw [if_pos (hout.2 stop hstop)] at h
        cases h
    · rintro ⟨bs, more, rfl, hrest, _⟩
      have hlen := congrArg List.length hrest
      rw [List.length_append] at hlen
      omega

theorem advance_settles (n : Nat) : Settles (r.advance n) := by
  rw [advance]
  split
  · exact settles_reject _
  · split
    · exact settles_reject _
    · exact settles_ok _

theorem slice_rest (hfits : r.Fits) {n : Nat} (hle : n ≤ r.rest.length) :
    slice r.buf r.pos (r.pos + n) = .ok (r.rest.take n) := by
  have hinside := hfits.inside
  rw [rest_length] at hle
  rw [slice, if_pos (by omega), ← List.take_drop]
  rfl

/-- The part of `read_len` behind the length. -/
def take_len (r : Reader) (n : Nat) : Outcome (Bytes × Reader) :=
  match checked_add r.pos n with
  | none => reject .LengthOutOfRange
  | some stop =>
    if stop > r.buf.length then reject .LengthOutOfRange
    else do
      let bytes ← slice r.buf r.pos stop
      .ok (bytes, { r with pos := stop })

theorem read_len_eq : r.read_len = r.read_raw_varint >>= fun read => read.2.take_len read.1 := rfl

theorem take_len_eq (hfits : r.Fits) (n : Nat) : r.take_len n =
    if n ≤ r.rest.length then .ok (r.rest.take n, r.ahead n) else reject .LengthOutOfRange := by
  rw [take_len]
  cases window hfits n with
  | inl hin =>
    obtain ⟨hle, hadd, hstop⟩ := hin
    rw [if_pos hle, hadd]
    simp only [if_neg hstop]
    rw [slice_rest hfits hle]
    rfl
  | inr hout =>
    rw [if_neg (by omega)]
    split
    · rfl
    · rename_i stop hstop
      rw [if_pos (hout.2 stop hstop)]

theorem read_len_iff (hfits : r.Fits) {bytes : Bytes} {r' : Reader} : r.read_len = .ok (bytes, r') ↔
    ∃ size more, cutting.Varint size bytes.length ∧ r.rest = (size ++ bytes) ++ more ∧
      r' = r.ahead (size ++ bytes).length := by
  rw [read_len_eq, bind_ok_iff]
  constructor
  · rintro ⟨⟨n, r₁⟩, hread, htail⟩
    obtain ⟨size, more, hsize, hrest, rfl⟩ := (read_raw_varint_iff hfits).mp hread
    rw [take_len_eq (hfits.ahead hrest), rest_ahead hrest] at htail
    split at htail
    · rename_i hle
      cases htail
      have hlen : (more.take n).length = n := List.length_take_of_le hle
      refine ⟨size, more.drop n, by rwa [hlen], ?_, ?_⟩
      · rw [List.append_assoc, List.take_append_drop, hrest]
      · rw [ahead_ahead, List.length_append, hlen]
    · cases htail
  · rintro ⟨size, more, hsize, hrest, rfl⟩
    rw [List.append_assoc] at hrest
    refine ⟨(bytes.length, r.ahead size.length),
      (read_raw_varint_iff hfits).mpr ⟨size, _, hsize, hrest, rfl⟩, ?_⟩
    rw [take_len_eq (hfits.ahead hrest), rest_ahead hrest, if_pos (by rw [List.length_append]; omega),
      List.take_left, ahead_ahead, List.length_append]

theorem read_len_settles (hfits : r.Fits) : Settles r.read_len := by
  rw [read_len_eq]
  apply (read_raw_varint_settles hfits).bind
  intro read hread
  obtain ⟨size, more, _, hrest, hahead⟩ := (read_raw_varint_iff hfits).mp hread
  rw [hahead, take_len_eq (hfits.ahead hrest)]
  split
  · exact settles_ok _
  · exact settles_reject _

/-! ### Fields -/

def wire_of : WireType → Nat
  | .Varint => 0
  | .Fixed64 => 1
  | .Len => 2
  | .Fixed32 => 5

/-- What `skip` passes over. -/
def read_payload (r : Reader) : WireType → Outcome (Payload × Reader)
  | .Varint => do
    let (v, r) ← r.read_raw_varint
    .ok (.varint v, r)
  | .Len => do
    let (bytes, r) ← r.read_len
    .ok (.len bytes, r)
  | .Fixed64 => do
    let r' ← r.advance 8
    .ok (.fixed64 (r.rest.take 8), r')
  | .Fixed32 => do
    let r' ← r.advance 4
    .ok (.fixed32 (r.rest.take 4), r')

theorem read_payload_iff (hfits : r.Fits) {wire : WireType} {p : Payload} {r' : Reader} :
    r.read_payload wire = .ok (p, r') ↔
      ∃ bs more, cutting.Body (wire_of wire) p bs ∧ r.rest = bs ++ more ∧ r' = r.ahead bs.length := by
  have hfixed : ∀ {n : Nat} {bs more : Bytes}, bs.length = n → r.rest = bs ++ more → r.rest.take n = bs := by
    rintro n bs more rfl hrest
    rw [hrest, List.take_left]
  cases wire with
  | Varint =>
    rw [read_payload, bind_ok_iff]
    constructor
    · rintro ⟨⟨v, r₁⟩, hread, hok⟩
      cases hok
      obtain ⟨bs, more, hbs, hrest, hahead⟩ := (read_raw_varint_iff hfits).mp hread
      exact ⟨bs, more, .varint hbs, hrest, hahead⟩
    · rintro ⟨bs, more, hbody, hrest, hahead⟩
      cases hbody with
      | varint hbs => exact ⟨(_, r'), (read_raw_varint_iff hfits).mpr ⟨bs, more, hbs, hrest, hahead⟩, rfl⟩
  | Len =>
    rw [read_payload, bind_ok_iff]
    constructor
    · rintro ⟨⟨bytes, r₁⟩, hread, hok⟩
      cases hok
      obtain ⟨size, more, hsize, hrest, hahead⟩ := (read_len_iff hfits).mp hread
      exact ⟨size ++ bytes, more, .len hsize, hrest, hahead⟩
    · rintro ⟨bs, more, hbody, hrest, hahead⟩
      cases hbody with
      | len hsize => exact ⟨(_, r'), (read_len_iff hfits).mpr ⟨_, more, hsize, hrest, hahead⟩, rfl⟩
  | Fixed64 =>
    rw [read_payload, bind_ok_iff]
    constructor
    · rintro ⟨r₁, hread, hok⟩
      cases hok
      obtain ⟨bs, more, hlen, hrest, hahead⟩ := (advance_iff hfits).mp hread
      exact ⟨bs, more, by rw [hfixed hlen hrest]; exact .fixed64 hlen, hrest, hahead⟩
    · rintro ⟨bs, more, hbody, hrest, hahead⟩
      cases hbody with
      | fixed64 hlen =>
        exact ⟨r', (advance_iff hfits).mpr ⟨bs, more, hlen, hrest, hahead⟩, by rw [hfixed hlen hrest]⟩
  | Fixed32 =>
    rw [read_payload, bind_ok_iff]
    constructor
    · rintro ⟨r₁, hread, hok⟩
      cases hok
      obtain ⟨bs, more, hlen, hrest, hahead⟩ := (advance_iff hfits).mp hread
      exact ⟨bs, more, by rw [hfixed hlen hrest]; exact .fixed32 hlen, hrest, hahead⟩
    · rintro ⟨bs, more, hbody, hrest, hahead⟩
      cases hbody with
      | fixed32 hlen =>
        exact ⟨r', (advance_iff hfits).mpr ⟨bs, more, hlen, hrest, hahead⟩, by rw [hfixed hlen hrest]⟩

theorem read_payload_settles (hfits : r.Fits) (wire : WireType) : Settles (r.read_payload wire) := by
  cases wire with
  | Varint => exact (read_raw_varint_settles hfits).bind fun _ _ => settles_ok _
  | Len => exact (read_len_settles hfits).bind fun _ _ => settles_ok _
  | Fixed64 => exact (advance_settles 8).bind fun _ _ => settles_ok _
  | Fixed32 => exact (advance_settles 4).bind fun _ _ => settles_ok _

theorem is_empty_iff (hfits : r.Fits) : r.is_empty = true ↔ r.rest = [] := by
  have hinside := hfits.inside
  rw [is_empty, decide_eq_true_eq, ← List.length_eq_zero_iff, rest_length]
  omega

theorem next_field_nil (hfits : r.Fits) (hrest : r.rest = []) : r.next_field = .ok (none, r) := by
  rw [next_field, if_pos ((is_empty_iff hfits).mpr hrest)]

theorem next_field_none (hfits : r.Fits) {r' : Reader} (h : r.next_field = .ok (none, r')) : r.rest = [] := by
  rw [next_field] at h
  split at h
  · rename_i hempty
    exact (is_empty_iff hfits).mp hempty
  · obtain ⟨⟨tag, r₁⟩, _, h⟩ := bind_ok_iff.mp h
    dsimp only at h
    split at h <;> cases h

theorem next_field_some_iff (hfits : r.Fits) {h : FieldHeader} {r' : Reader} :
    r.next_field = .ok (some h, r') ↔ ∃ bs more, cutting.Tag bs h.number (wire_of h.wire_type) ∧
      r.rest = bs ++ more ∧ r' = r.ahead bs.length := by
  rw [next_field]
  split
  · rename_i hempty
    have hrest := (is_empty_iff hfits).mp hempty
    constructor
    · intro h
      cases h
    · rintro ⟨bs, more, htag, hbytes, _⟩
      rw [hrest] at hbytes
      exact absurd (List.append_eq_nil_iff.mp hbytes.symm).1 htag.ne_nil
  · rw [bind_ok_iff]
    have hwire : ∀ tag : Nat, tag &&& 7 = tag % 8 := fun tag => Nat.and_two_pow_sub_one_eq_mod tag 3
    have hnumber : ∀ tag : Nat, tag >>> 3 = tag / 8 := fun tag => Nat.shiftRight_eq_div_pow tag 3
    constructor
    · rintro ⟨⟨tag, r₁⟩, hread, hok⟩
      obtain ⟨bs, more, hbs, hrest, rfl⟩ := (read_raw_varint_iff hfits).mp hread
      simp only [hwire, hnumber] at hok
      refine ⟨bs, more, ⟨tag, hbs, ?_, ?_, nofun⟩, hrest, ?_⟩
      · split at hok <;> cases hok <;> rename_i heq <;> exact heq.symm
      · split at hok <;> cases hok <;> rfl
      · split at hok <;> cases hok <;> rfl
    · rintro ⟨bs, more, ⟨tag, hbs, hwire', hnumber', _⟩, hrest, rfl⟩
      refine ⟨(tag, r.ahead bs.length), (read_raw_varint_iff hfits).mpr ⟨bs, more, hbs, hrest, rfl⟩, ?_⟩
      obtain ⟨number, wire⟩ := h
      simp only [hwire, hnumber]
      rw [← hwire', ← hnumber']
      cases wire <;> rfl

theorem next_field_settles (hfits : r.Fits) : Settles r.next_field := by
  rw [next_field]
  split
  · exact settles_ok _
  · apply (read_raw_varint_settles hfits).bind
    rintro ⟨tag, r₁⟩ _
    simp only
    split
    · exact settles_ok _
    · exact settles_ok _
    · exact settles_ok _
    · exact settles_ok _
    · exact settles_reject _

/-! ### Message loops -/

section

variable {α : Type} {take : α → Field → Outcome α}
  {handle : FieldHeader → α → Reader → Outcome (α × Reader)}

/-- A handler that passes over the payload of its field and takes it. -/
def through (take : α → Field → Outcome α) (h : FieldHeader) (acc : α) (r : Reader) : Outcome (α × Reader) := do
  let (p, r) ← r.read_payload h.wire_type
  let acc ← take acc ⟨h.number, p⟩
  .ok (acc, r)

theorem through_ok_iff {h : FieldHeader} {acc acc' : α} {r' : Reader} :
    through take h acc r = .ok (acc', r') ↔
      ∃ p, r.read_payload h.wire_type = .ok (p, r') ∧ take acc ⟨h.number, p⟩ = .ok acc' := by
  rw [through, bind_ok_iff]
  constructor
  · rintro ⟨⟨p, r₁⟩, hread, htake⟩
    obtain ⟨acc₁, htaken, hok⟩ := bind_ok_iff.mp htake
    cases hok
    exact ⟨p, hread, htaken⟩
  · rintro ⟨p, hread, htake⟩
    exact ⟨(p, r'), hread, bind_ok_iff.mpr ⟨acc', htake, rfl⟩⟩

theorem exists_wire_of {wire : Nat} {p : Payload} {bs : Bytes} (h : cutting.Body wire p bs) :
    ∃ wt, wire_of wt = wire := by
  cases h with
  | varint _ => exact ⟨.Varint, rfl⟩
  | fixed64 _ => exact ⟨.Fixed64, rfl⟩
  | len _ => exact ⟨.Len, rfl⟩
  | fixed32 _ => exact ⟨.Fixed32, rfl⟩

/-- The loop takes the fields of the message, one after the other. -/
theorem each_field_iff (hhandle : ∀ h acc r, handle h acc r = through take h acc r) (hfits : r.Fits)
    {fuel : Nat} (hfuel : r.rest.length < fuel) {acc x : α} :
    each_field handle fuel acc r = .ok x ↔
      ∃ fs, cutting.Fields fs r.rest ∧ fs.foldlM take acc = .ok x := by
  induction fuel generalizing r acc with
  | zero => omega
  | succ fuel ih =>
    rw [each_field, bind_ok_iff]
    constructor
    · rintro ⟨⟨header, r₁⟩, hnext, hloop⟩
      cases header with
      | none =>
        rw [next_field_none hfits hnext]
        exact ⟨[], .nil, hloop⟩
      | some h =>
        obtain ⟨tag, more, htag, hrest, rfl⟩ := (next_field_some_iff hfits).mp hnext
        obtain ⟨⟨acc₁, r₂⟩, hread, hloop⟩ := bind_ok_iff.mp hloop
        rw [hhandle] at hread
        obtain ⟨p, hread, htake⟩ := through_ok_iff.mp hread
        have hahead := hfits.ahead hrest
        obtain ⟨body, rest, hbody, hmore, rfl⟩ := (read_payload_iff hahead).mp hread
        have htail := rest_ahead hmore
        have hpos := List.length_pos_iff.mpr htag.ne_nil
        rw [rest_ahead hrest] at hmore
        have hshort : ((r.ahead tag.length).ahead body.length).rest.length < fuel := by
          rw [hrest, hmore, List.length_append, List.length_append] at hfuel
          rw [htail]
          omega
        obtain ⟨fs, hfields, hfold⟩ := (ih (hahead.ahead (rest_ahead hrest ▸ hmore)) hshort).mp hloop
        rw [htail] at hfields
        refine ⟨⟨h.number, p⟩ :: fs, ?_, ?_⟩
        · rw [hrest, hmore]
          exact .field htag hbody hfields
        · rw [List.foldlM_cons]
          exact bind_ok_iff.mpr ⟨acc₁, htake, hfold⟩
    · rintro ⟨fs, hfields, hfold⟩
      generalize hbytes : r.rest = bytes at hfields
      cases hfields with
      | nil => exact ⟨(none, r), next_field_nil hfits hbytes, hfold⟩
      | group hgroups _ _ _ _ => cases hgroups
      | @field tag body rest number wire p fs htag hbody hfields =>
        obtain ⟨wt, rfl⟩ := exists_wire_of hbody
        rw [List.foldlM_cons] at hfold
        obtain ⟨acc₁, htake, hfold⟩ := bind_ok_iff.mp hfold
        have hahead := hfits.ahead hbytes
        have hmore := rest_ahead hbytes
        have htail := rest_ahead hmore
        have hpos := List.length_pos_iff.mpr htag.ne_nil
        have hshort : ((r.ahead tag.length).ahead body.length).rest.length < fuel := by
          rw [hbytes, List.length_append, List.length_append] at hfuel
          rw [htail]
          omega
        refine ⟨(some ⟨number, wt⟩, r.ahead tag.length),
          (next_field_some_iff hfits).mpr ⟨tag, _, htag, hbytes, rfl⟩, ?_⟩
        refine bind_ok_iff.mpr ⟨(acc₁, (r.ahead tag.length).ahead body.length), ?_, ?_⟩
        · rw [hhandle]
          exact through_ok_iff.mpr ⟨p, (read_payload_iff hahead).mpr ⟨body, rest, hbody, hmore, rfl⟩, htake⟩
        · exact (ih (hahead.ahead hmore) hshort).mpr ⟨fs, by rwa [htail], hfold⟩

theorem each_field_settles (hhandle : ∀ h acc r, handle h acc r = through take h acc r)
    (htake : ∀ acc f, (∀ bytes, f.payload = .len bytes → bytes.length < 2 ^ 63) → Settles (take acc f))
    (hfits : r.Fits) {fuel : Nat} (hfuel : r.rest.length < fuel) {acc : α} :
    Settles (each_field handle fuel acc r) := by
  induction fuel generalizing r acc with
  | zero => omega
  | succ fuel ih =>
    rw [each_field]
    apply (next_field_settles hfits).bind
    rintro ⟨header, r₁⟩ hnext
    cases header with
    | none => exact settles_ok _
    | some h =>
      obtain ⟨tag, more, htag, hrest, rfl⟩ := (next_field_some_iff hfits).mp hnext
      have hahead := hfits.ahead hrest
      have hpos := List.length_pos_iff.mpr htag.ne_nil
      change Settles (handle h acc (r.ahead tag.length) >>= _)
      rw [hhandle]
      refine Settles.bind ?_ ?_
      · apply (read_payload_settles hahead h.wire_type).bind
        rintro ⟨p, r₂⟩ hread
        refine Settles.bind (htake acc _ ?_) fun _ _ => settles_ok _
        intro bytes hbytes
        change p = _ at hbytes
        subst hbytes
        obtain ⟨body, rest, hbody, hmore, _⟩ := (read_payload_iff hahead).mp hread
        have hroom := hfits.room
        have hlen := congrArg List.length hmore
        rw [rest_length, List.length_append] at hlen
        change r.buf.length - _ = _ at hlen
        generalize wire_of h.wire_type = wire at hbody
        cases hbody with
        | len _ =>
          rw [List.length_append] at hlen
          omega
      · rintro ⟨acc₁, r₂⟩ hread
        obtain ⟨p, hread, _⟩ := through_ok_iff.mp hread
        obtain ⟨body, rest, hbody, hmore, rfl⟩ := (read_payload_iff hahead).mp hread
        refine ih (hahead.ahead hmore) ?_
        rw [rest_ahead hrest] at hmore
        rw [hrest, hmore, List.length_append, List.length_append] at hfuel
        rw [rest_ahead ((rest_ahead hrest).trans hmore)]
        omega

/-- A message parser reads the fields of its bytes and takes them in order. -/
theorem while_fields_iff (hhandle : ∀ h acc r, handle h acc r = through take h acc r) {bytes : Bytes}
    (hroom : bytes.length < 2 ^ 63) {acc x : α} : (new bytes).while_fields acc handle = .ok x ↔
      ∃ fs, cutting.Fields fs bytes ∧ fs.foldlM take acc = .ok x :=
  each_field_iff hhandle (fits_new hroom) (Nat.lt_succ_self _)

theorem while_fields_settles (hhandle : ∀ h acc r, handle h acc r = through take h acc r)
    (htake : ∀ acc f, (∀ bytes, f.payload = .len bytes → bytes.length < 2 ^ 63) → Settles (take acc f))
    {bytes : Bytes} (hroom : bytes.length < 2 ^ 63) {acc : α} :
    Settles ((new bytes).while_fields acc handle) :=
  each_field_settles hhandle htake (fits_new hroom) (Nat.lt_succ_self _)

end

/-! ### Packed payloads -/

theorem read_i32_iff (hfits : r.Fits) {v : Int32} {r' : Reader} : r.read_i32 = .ok (v, r') ↔
    ∃ w bs more, v = as_i32 w ∧ cutting.Varint bs w ∧ r.rest = bs ++ more ∧ r' = r.ahead bs.length := by
  rw [read_i32, bind_ok_iff]
  constructor
  · rintro ⟨⟨w, r₁⟩, hread, hok⟩
    cases hok
    obtain ⟨bs, more, hread⟩ := (read_raw_varint_iff hfits).mp hread
    exact ⟨w, bs, more, rfl, hread⟩
  · rintro ⟨w, bs, more, rfl, hread⟩
    exact ⟨(w, r'), (read_raw_varint_iff hfits).mpr ⟨bs, more, hread⟩, rfl⟩

theorem read_i32_settles (hfits : r.Fits) : Settles r.read_i32 :=
  (read_raw_varint_settles hfits).bind fun _ _ => settles_ok _

theorem each_packed_iff (hfits : r.Fits) {fuel : Nat} (hfuel : r.rest.length < fuel) {ints xs : List Int32} :
    each_packed fuel ints r = .ok xs ↔ ∃ vs, cutting.Packed vs r.rest ∧ xs = ints ++ vs.map as_i32 := by
  induction fuel generalizing r ints with
  | zero => omega
  | succ fuel ih =>
    rw [each_packed]
    split
    · rename_i hempty
      rw [(is_empty_iff hfits).mp hempty]
      constructor
      · intro h
        cases h
        exact ⟨[], .nil, by rw [List.map_nil, List.append_nil]⟩
      · rintro ⟨vs, hpacked, rfl⟩
        rw [← Dialect.Packed.unique (d := cutting) .nil hpacked, List.map_nil, List.append_nil]
    · rename_i hempty
      rw [bind_ok_iff]
      constructor
      · rintro ⟨⟨v, r₁⟩, hread, hloop⟩
        obtain ⟨w, bs, more, rfl, hvarint, hrest, rfl⟩ := (read_i32_iff hfits).mp hread
        have hpos := List.length_pos_iff.mpr hvarint.ne_nil
        have hmore := rest_ahead hrest
        have hshort : (r.ahead bs.length).rest.length < fuel := by
          rw [hrest, List.length_append] at hfuel
          rw [hmore]
          omega
        obtain ⟨vs, hpacked, rfl⟩ := (ih (hfits.ahead hrest) hshort).mp hloop
        rw [hmore] at hpacked
        refine ⟨w :: vs, ?_, ?_⟩
        · rw [hrest]
          exact .cons hvarint hpacked
        · rw [List.map_cons, List.append_assoc, List.singleton_append]
      · rintro ⟨vs, hpacked, rfl⟩
        generalize hbytes : r.rest = bytes at hpacked
        cases hpacked with
        | nil => exact absurd ((is_empty_iff hfits).mpr hbytes) hempty
        | @cons w vs bs rest hvarint hpacked =>
          have hpos := List.length_pos_iff.mpr hvarint.ne_nil
          have hmore := rest_ahead hbytes
          have hshort : (r.ahead bs.length).rest.length < fuel := by
            rw [hbytes, List.length_append] at hfuel
            rw [hmore]
            omega
          refine ⟨(as_i32 w, r.ahead bs.length), (read_i32_iff hfits).mpr ⟨w, bs, rest, rfl, hvarint, hbytes, rfl⟩, ?_⟩
          refine (ih (hfits.ahead hbytes) hshort).mpr ⟨vs, by rwa [hmore], ?_⟩
          rw [List.map_cons, List.append_assoc, List.singleton_append]

theorem each_packed_settles (hfits : r.Fits) {fuel : Nat} (hfuel : r.rest.length < fuel) {ints : List Int32} :
    Settles (each_packed fuel ints r) := by
  induction fuel generalizing r ints with
  | zero => omega
  | succ fuel ih =>
    rw [each_packed]
    split
    · exact settles_ok _
    · apply (read_i32_settles hfits).bind
      rintro ⟨v, r₁⟩ hread
      obtain ⟨w, bs, more, _, hvarint, hrest, rfl⟩ := (read_i32_iff hfits).mp hread
      have hpos := List.length_pos_iff.mpr hvarint.ne_nil
      refine ih (hfits.ahead hrest) ?_
      rw [hrest, List.length_append] at hfuel
      rw [rest_ahead hrest]
      omega

theorem while_packed_iff {bytes : Bytes} (hroom : bytes.length < 2 ^ 63) {ints xs : List Int32} :
    (new bytes).while_packed ints = .ok xs ↔ ∃ vs, cutting.Packed vs bytes ∧ xs = ints ++ vs.map as_i32 :=
  each_packed_iff (fits_new hroom) (Nat.lt_succ_self _)

theorem while_packed_settles {bytes : Bytes} (hroom : bytes.length < 2 ^ 63) {ints : List Int32} :
    Settles ((new bytes).while_packed ints) :=
  each_packed_settles (fits_new hroom) (Nat.lt_succ_self _)

end Reader

end cgx.scip.wire
