import Mathlib.Algebra.Group.Nat.Defs
import Mathlib.Data.List.Forall2
import Mathlib.Data.List.Infix

/-! The protobuf wire format as a relation between the fields of a message and its bytes. -/

namespace protobuf

abbrev Bytes := List UInt8

/-- What a reading of the format lets pass. -/
structure Dialect where
  /-- Excess bits of varints and field numbers are cut off instead of refused. -/
  cuts : Bool
  /-- Group fields are fields. -/
  groups : Bool
  /-- Several pieces of an embedded message are merged, instead of the last one counting. -/
  merges : Bool
deriving DecidableEq

/-- The format itself. -/
def standard : Dialect := ⟨false, true, true⟩

/-! ### Varints -/

/-- Little-endian base-128 digits, a set high bit on all but the last. -/
inductive Digits : Bytes → Nat → Prop
  | last {b : UInt8} (h : b.toNat < 128) : Digits [b] b.toNat
  | more {b : UInt8} {bs : Bytes} {v : Nat} (h : 128 ≤ b.toNat) (rest : Digits bs v) :
      Digits (b :: bs) (b.toNat % 128 + 128 * v)

theorem Digits.ne_nil {bs : Bytes} {v : Nat} (h : Digits bs v) : bs ≠ [] := by
  cases h <;> simp

/-- Digits end by themselves: what follows does not change how they are read. -/
theorem Digits.unique {bs bs' more more' : Bytes} {v v' : Nat} (h : Digits bs v) (h' : Digits bs' v')
    (heq : bs ++ more = bs' ++ more') : bs = bs' ∧ v = v' ∧ more = more' := by
  induction h generalizing bs' v' with
  | last hb =>
    cases h' with
    | last hb' =>
      injection heq with hhead htail
      subst hhead
      exact ⟨rfl, rfl, htail⟩
    | more hb' rest' =>
      injection heq with hhead
      subst hhead
      omega
  | more hb rest ih =>
    cases h' with
    | last hb' =>
      injection heq with hhead
      subst hhead
      omega
    | more hb' rest' =>
      injection heq with hhead htail
      subst hhead
      obtain ⟨rfl, rfl, hmore⟩ := ih rest' htail
      exact ⟨rfl, rfl, hmore⟩

/-- The value of a varint has 64 bits. -/
def Dialect.Varint (d : Dialect) (bs : Bytes) (v : Nat) : Prop :=
  bs.length ≤ 10 ∧ ∃ w, Digits bs w ∧ v = w % 2 ^ 64 ∧ (d.cuts = false → w < 2 ^ 64)

namespace Dialect

variable {d e : Dialect}

theorem Varint.ne_nil {bs : Bytes} {v : Nat} (h : d.Varint bs v) : bs ≠ [] := by
  obtain ⟨_, w, hdigits, _⟩ := h
  exact hdigits.ne_nil

theorem Varint.unique {bs bs' more more' : Bytes} {v v' : Nat} (h : d.Varint bs v) (h' : e.Varint bs' v')
    (heq : bs ++ more = bs' ++ more') : bs = bs' ∧ v = v' ∧ more = more' := by
  obtain ⟨_, w, hdigits, rfl, _⟩ := h
  obtain ⟨_, w', hdigits', rfl, _⟩ := h'
  obtain ⟨rfl, rfl, hmore⟩ := hdigits.unique hdigits' heq
  exact ⟨rfl, rfl, hmore⟩

/-- A varint is one in every dialect that cuts whenever this one does. -/
theorem Varint.mono (hcuts : d.cuts = true → e.cuts = true) {bs : Bytes} {v : Nat} (h : d.Varint bs v) :
    e.Varint bs v := by
  obtain ⟨hlen, w, hdigits, hv, hfits⟩ := h
  refine ⟨hlen, w, hdigits, hv, fun he => hfits ?_⟩
  cases hd : d.cuts with
  | false => rfl
  | true =>
    rw [hcuts hd] at he
    cases he

/-! ### Fields -/

/-- A tag carries a field number and a wire type. -/
def Tag (d : Dialect) (bs : Bytes) (number wire : Nat) : Prop :=
  ∃ v, d.Varint bs v ∧ wire = v % 8 ∧ number = v / 8 % 2 ^ 32 ∧
    (d.cuts = false → 0 < v / 8 ∧ v / 8 < 2 ^ 29)

theorem Tag.ne_nil {bs : Bytes} {number wire : Nat} (h : d.Tag bs number wire) : bs ≠ [] := by
  obtain ⟨v, hvarint, _⟩ := h
  exact hvarint.ne_nil

theorem Tag.unique {bs bs' more more' : Bytes} {number number' wire wire' : Nat}
    (h : d.Tag bs number wire) (h' : e.Tag bs' number' wire') (heq : bs ++ more = bs' ++ more') :
    bs = bs' ∧ number = number' ∧ wire = wire' ∧ more = more' := by
  obtain ⟨v, hvarint, rfl, rfl, _⟩ := h
  obtain ⟨v', hvarint', rfl, rfl, _⟩ := h'
  obtain ⟨rfl, rfl, hmore⟩ := hvarint.unique hvarint' heq
  exact ⟨rfl, rfl, rfl, hmore⟩

theorem Tag.mono (hcuts : d.cuts = true → e.cuts = true) {bs : Bytes} {number wire : Nat}
    (h : d.Tag bs number wire) : e.Tag bs number wire := by
  obtain ⟨v, hvarint, hwire, hnumber, hrange⟩ := h
  refine ⟨v, hvarint.mono hcuts, hwire, hnumber, fun he => hrange ?_⟩
  cases hd : d.cuts with
  | false => rfl
  | true =>
    rw [hcuts hd] at he
    cases he

end Dialect

/-- What a field holds. The fields of a group are not told apart. -/
inductive Payload where
  | varint (v : Nat)
  | fixed64 (bytes : Bytes)
  | len (bytes : Bytes)
  | group
  | fixed32 (bytes : Bytes)
deriving DecidableEq

structure Field where
  number : Nat
  payload : Payload
deriving DecidableEq

namespace Dialect

variable {d e : Dialect}

/-- The payloads of the wire types that do not nest. -/
inductive Body (d : Dialect) : Nat → Payload → Bytes → Prop
  | varint {bs : Bytes} {v : Nat} (h : d.Varint bs v) : Body d 0 (.varint v) bs
  | fixed64 {bs : Bytes} (h : bs.length = 8) : Body d 1 (.fixed64 bs) bs
  | len {size bs : Bytes} (h : d.Varint size bs.length) : Body d 2 (.len bs) (size ++ bs)
  | fixed32 {bs : Bytes} (h : bs.length = 4) : Body d 5 (.fixed32 bs) bs

theorem Body.unique {wire : Nat} {p p' : Payload} {bs bs' more more' : Bytes} (h : d.Body wire p bs)
    (h' : e.Body wire p' bs') (heq : bs ++ more = bs' ++ more') : p = p' ∧ bs = bs' ∧ more = more' := by
  cases h with
  | varint h =>
    cases h' with
    | varint h' =>
      obtain ⟨rfl, rfl, hmore⟩ := h.unique h' heq
      exact ⟨rfl, rfl, hmore⟩
  | fixed64 h =>
    cases h' with
    | fixed64 h' =>
      obtain ⟨rfl, hmore⟩ := List.append_inj heq (h.trans h'.symm)
      exact ⟨rfl, rfl, hmore⟩
  | len h =>
    cases h' with
    | len h' =>
      rw [List.append_assoc, List.append_assoc] at heq
      obtain ⟨rfl, hlen, htail⟩ := h.unique h' heq
      obtain ⟨rfl, hmore⟩ := List.append_inj htail hlen
      exact ⟨rfl, rfl, hmore⟩
  | fixed32 h =>
    cases h' with
    | fixed32 h' =>
      obtain ⟨rfl, hmore⟩ := List.append_inj heq (h.trans h'.symm)
      exact ⟨rfl, rfl, hmore⟩

theorem Body.mono (hcuts : d.cuts = true → e.cuts = true) {wire : Nat} {p : Payload} {bs : Bytes}
    (h : d.Body wire p bs) : e.Body wire p bs := by
  cases h with
  | varint h => exact .varint (h.mono hcuts)
  | fixed64 h => exact .fixed64 h
  | len h => exact .len (h.mono hcuts)
  | fixed32 h => exact .fixed32 h

/-- The bytes of a list of fields. -/
inductive Fields (d : Dialect) : List Field → Bytes → Prop
  | nil : Fields d [] []
  | field {tag body rest : Bytes} {number wire : Nat} {p : Payload} {fs : List Field}
      (htag : d.Tag tag number wire) (hbody : d.Body wire p body) (hrest : Fields d fs rest) :
      Fields d (⟨number, p⟩ :: fs) (tag ++ (body ++ rest))
  | group {start inside stop rest : Bytes} {number : Nat} {inner fs : List Field}
      (hgroups : d.groups = true) (hstart : d.Tag start number 3) (hinner : Fields d inner inside)
      (hstop : d.Tag stop number 4) (hrest : Fields d fs rest) :
      Fields d (⟨number, .group⟩ :: fs) (start ++ (inside ++ (stop ++ rest)))

theorem Fields.mono (hcuts : d.cuts = true → e.cuts = true) (hgroups : d.groups = true → e.groups = true)
    {fs : List Field} {bs : Bytes} (h : d.Fields fs bs) : e.Fields fs bs := by
  induction h with
  | nil => exact .nil
  | field htag hbody _ ih => exact .field (htag.mono hcuts) (hbody.mono hcuts) ih
  | group hyes hstart _ hstop _ ihinner ih =>
    exact .group (hgroups hyes) (hstart.mono hcuts) ihinner (hstop.mono hcuts) ih

/-- Bytes that are fields both in a dialect with groups and in one without are the same
fields in both, and none of them is a group. -/
theorem Fields.without_groups (hgroups : e.groups = false) {fs fs' : List Field} {bs : Bytes}
    (h : d.Fields fs bs) (h' : e.Fields fs' bs) :
    fs = fs' ∧ ∀ m, Fields { d with groups := false, merges := m } fs bs := by
  induction h generalizing fs' with
  | nil =>
    generalize hnil : ([] : Bytes) = bs at h'
    cases h' with
    | nil => exact ⟨rfl, fun _ => .nil⟩
    | field htag' _ _ => exact absurd (List.append_eq_nil_iff.mp hnil.symm).1 htag'.ne_nil
    | group _ hstart' _ _ _ => exact absurd (List.append_eq_nil_iff.mp hnil.symm).1 hstart'.ne_nil
  | @field tag body rest _ _ _ _ htag hbody hrest ih =>
    generalize hall : tag ++ (body ++ rest) = bs at h'
    cases h' with
    | nil => exact absurd (List.append_eq_nil_iff.mp hall).1 htag.ne_nil
    | field htag' hbody' hrest' =>
      obtain ⟨rfl, rfl, rfl, htail⟩ := htag.unique htag' hall
      obtain ⟨rfl, rfl, rfl⟩ := hbody.unique hbody' htail
      obtain ⟨rfl, hplain⟩ := ih hrest'
      refine ⟨rfl, fun m => .field (htag.mono ?_) (hbody.mono ?_) (hplain m)⟩
      · exact id
      · exact id
    | group hyes _ _ _ _ => rw [hgroups] at hyes; cases hyes
  | @group start inside stop rest _ _ _ _ hstart _ _ _ _ _ =>
    generalize hall : start ++ (inside ++ (stop ++ rest)) = bs at h'
    cases h' with
    | nil => exact absurd (List.append_eq_nil_iff.mp hall).1 hstart.ne_nil
    | field htag' hbody' _ =>
      obtain ⟨_, _, hwire, _⟩ := hstart.unique htag' hall
      rw [← hwire] at hbody'
      cases hbody'
    | group hyes _ _ _ _ => rw [hgroups] at hyes; cases hyes

/-- The payloads are no longer than the bytes of the fields. -/
theorem Fields.length_le {fs : List Field} {bs : Bytes} (h : d.Fields fs bs) {number : Nat} {payload : Bytes}
    (hmem : ⟨number, .len payload⟩ ∈ fs) : payload.length ≤ bs.length := by
  induction h with
  | nil => cases hmem
  | field _ hbody _ ih =>
    rw [List.length_append, List.length_append]
    cases List.mem_cons.mp hmem with
    | inl hhead =>
      injection hhead with _ hpayload
      subst hpayload
      cases hbody with
      | len _ =>
        rw [List.length_append]
        omega
    | inr htail =>
      have hle := ih htail
      omega
  | group _ _ _ _ _ _ ih =>
    rw [List.length_append, List.length_append, List.length_append]
    cases List.mem_cons.mp hmem with
    | inl hhead => cases hhead
    | inr htail =>
      have hle := ih htail
      omega

end Dialect

/-! ### Messages -/

/-- The payloads under a field number. -/
def payloads (number : Nat) (fs : List Field) : List Payload :=
  (fs.filter fun f => f.number = number).map Field.payload

def Payload.len? : Payload → Option Bytes
  | .len bytes => some bytes
  | _ => none

def Payload.varint? : Payload → Option Nat
  | .varint v => some v
  | _ => none

/-- The length-delimited payloads under a field number; under another wire type the field
is unknown. -/
def lens (number : Nat) (fs : List Field) : List Bytes :=
  (payloads number fs).filterMap Payload.len?

def varints (number : Nat) (fs : List Field) : List Nat :=
  (payloads number fs).filterMap Payload.varint?

theorem payloads_append (number : Nat) (fs gs : List Field) :
    payloads number (fs ++ gs) = payloads number fs ++ payloads number gs := by
  rw [payloads, List.filter_append, List.map_append, payloads, payloads]

theorem lens_append (number : Nat) (fs gs : List Field) :
    lens number (fs ++ gs) = lens number fs ++ lens number gs := by
  rw [lens, payloads_append, List.filterMap_append, lens, lens]

theorem lens_flatten (number : Nat) (fss : List (List Field)) :
    lens number fss.flatten = (fss.map (lens number)).flatten := by
  induction fss with
  | nil => rfl
  | cons fs rest ih => rw [List.flatten_cons, lens_append, ih, List.map_cons, List.flatten_cons]

theorem mem_of_mem_lens {number : Nat} {fs : List Field} {bytes : Bytes} (h : bytes ∈ lens number fs) :
    ⟨number, .len bytes⟩ ∈ fs := by
  obtain ⟨p, hp, hlen⟩ := List.mem_filterMap.mp h
  obtain ⟨f, hf, rfl⟩ := List.mem_map.mp hp
  obtain ⟨hmem, hnumber⟩ := List.mem_filter.mp hf
  obtain ⟨number', payload⟩ := f
  cases payload with
  | len bytes' =>
    cases hlen
    have hnumber : number' = number := by simpa using hnumber
    subst hnumber
    exact hmem
  | _ => cases hlen

/-- A string field: every payload is UTF-8 and the last one counts. -/
def Text (pieces : List Bytes) (s : String) : Prop :=
  ∃ texts : List String, pieces = texts.map (fun t => t.toByteArray.data.toList) ∧ s = texts.getLastD ""

namespace Dialect

variable {α : Type}

/-- The bytes of a message whose fields have the given meaning. -/
def Message (d : Dialect) (meaning : List Field → α → Prop) (x : α) (bytes : Bytes) : Prop :=
  ∃ fs, d.Fields fs bytes ∧ meaning fs x

/-- An embedded message that does not repeat, possibly in several pieces. -/
def Embedded (d : Dialect) (meaning : List Field → α → Prop) (none : α) (pieces : List Bytes) (x : α) : Prop :=
  match d.merges with
  | true => ∃ fss, List.Forall₂ d.Fields fss pieces ∧ meaning fss.flatten x
  | false => ∃ xs, List.Forall₂ (d.Message meaning) xs pieces ∧ x = xs.getLastD none

/-- Scalars in one length-delimited payload. -/
inductive Packed (d : Dialect) : List Nat → Bytes → Prop
  | nil : Packed d [] []
  | cons {v : Nat} {vs : List Nat} {bs rest : Bytes} (h : d.Varint bs v) (hrest : Packed d vs rest) :
      Packed d (v :: vs) (bs ++ rest)

/-- The scalars of one payload of a repeated scalar field, packed or not. -/
inductive Scalars (d : Dialect) : List Nat → Payload → Prop
  | varint (v : Nat) : Scalars d [v] (.varint v)
  | packed {vs : List Nat} {bytes : Bytes} (h : d.Packed vs bytes) : Scalars d vs (.len bytes)
  | unknown {p : Payload} (hlen : p.len? = none) (hvarint : p.varint? = none) : Scalars d [] p

variable {d e : Dialect}

theorem Packed.mono (hcuts : d.cuts = true → e.cuts = true) {vs : List Nat} {bytes : Bytes}
    (h : d.Packed vs bytes) : e.Packed vs bytes := by
  induction h with
  | nil => exact .nil
  | cons h _ ih => exact .cons (h.mono hcuts) ih

theorem Packed.unique {vs vs' : List Nat} {bytes : Bytes} (h : d.Packed vs bytes) (h' : e.Packed vs' bytes) :
    vs = vs' := by
  induction h generalizing vs' with
  | nil =>
    generalize hnil : ([] : Bytes) = bs at h'
    cases h' with
    | nil => rfl
    | cons h' _ => exact absurd (List.append_eq_nil_iff.mp hnil.symm).1 h'.ne_nil
  | @cons v vs bs rest h hrest ih =>
    generalize hall : bs ++ rest = bs' at h'
    cases h' with
    | nil => exact absurd (List.append_eq_nil_iff.mp hall).1 h.ne_nil
    | cons h' hrest' =>
      obtain ⟨rfl, rfl, rfl⟩ := h.unique h' hall
      rw [ih hrest']

theorem Scalars.mono (hcuts : d.cuts = true → e.cuts = true) {vs : List Nat} {p : Payload}
    (h : d.Scalars vs p) : e.Scalars vs p := by
  cases h with
  | varint v => exact .varint v
  | packed h => exact .packed (h.mono hcuts)
  | unknown hlen hvarint => exact .unknown hlen hvarint

theorem Scalars.unique {vs vs' : List Nat} {p : Payload} (h : d.Scalars vs p) (h' : e.Scalars vs' p) :
    vs = vs' := by
  cases h with
  | varint v =>
    cases h' with
    | varint _ => rfl
    | unknown _ hvarint => cases hvarint
  | packed hpacked =>
    cases h' with
    | packed hpacked' => exact hpacked.unique hpacked'
    | unknown hlen _ => cases hlen
  | unknown hlen hvarint =>
    cases h' with
    | varint v => cases hvarint
    | packed _ => cases hlen
    | unknown _ _ => rfl

end Dialect

end protobuf
