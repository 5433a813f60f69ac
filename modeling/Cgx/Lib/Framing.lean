import Mathlib.Algebra.Group.Nat.Defs
import Mathlib.Data.List.Infix

/-!
# Writings that end where they end

A byte writing of a value is framed when no two values have writings of which one goes on
where the other stops. Framed writings can be put one after the other and still be told
apart, so an encoding of a record built from them is injective.
-/

namespace framing

variable {α β : Type}

/-- Among the values in `fits`, the writing of a value tells it and where it ends. -/
def Framed (fits : α → Prop) (write : α → List UInt8) : Prop :=
  ∀ ⦃x y : α⦄, fits x → fits y → ∀ ⦃s t : List UInt8⦄, write x ++ s = write y ++ t → x = y ∧ s = t

variable {fits : α → Prop} {write : α → List UInt8}

/-- A framed writing is injective. -/
theorem Framed.inj (h : Framed fits write) {x y : α} (hx : fits x) (hy : fits y) (heq : write x = write y) :
    x = y :=
  (h hx hy (s := []) (t := []) (by rw [heq])).1

/-! ### Numbers -/

/-- The lowest `k` bytes of a number, the least significant first. -/
def le_bytes : Nat → Nat → List UInt8
  | 0, _ => []
  | k + 1, n => UInt8.ofNat (n % 256) :: le_bytes k (n / 256)

@[simp] theorem length_le_bytes (k n : Nat) : (le_bytes k n).length = k := by
  induction k generalizing n with
  | zero => rfl
  | succ k ih => rw [le_bytes, List.length_cons, ih]

theorem le_bytes_inj {k n m : Nat} (hn : n < 256 ^ k) (hm : m < 256 ^ k) (h : le_bytes k n = le_bytes k m) :
    n = m := by
  induction k generalizing n m with
  | zero => omega
  | succ k ih =>
    rw [Nat.pow_succ] at hn hm
    obtain ⟨hlow, hhigh⟩ := List.cons.inj h
    have hmod : n % 256 = m % 256 := by
      have hbyte := congrArg UInt8.toNat hlow
      rw [UInt8.toNat_ofNat', UInt8.toNat_ofNat'] at hbyte
      omega
    have hdiv : n / 256 = m / 256 := ih (by omega) (by omega) hhigh
    omega

/-- Writings of one length each are framed. -/
theorem framed_of_length {k : Nat} (hlen : ∀ x, (write x).length = k)
    (hinj : ∀ x y, fits x → fits y → write x = write y → x = y) : Framed fits write := by
  intro x y hx hy s t h
  obtain ⟨hwrite, hrest⟩ := List.append_inj h (by rw [hlen, hlen])
  exact ⟨hinj x y hx hy hwrite, hrest⟩

theorem framed_le_bytes (k : Nat) : Framed (· < 256 ^ k) (le_bytes k) :=
  framed_of_length (length_le_bytes k) fun _ _ => le_bytes_inj

/-- A number of any size: seven bits a byte, the low ones first, and a high bit while more follow. -/
def varint (n : Nat) : List UInt8 :=
  if n < 128 then [UInt8.ofNat n] else UInt8.ofNat (n % 128 + 128) :: varint (n / 128)
termination_by n
decreasing_by omega

def read_varint : List UInt8 → Option (Nat × List UInt8)
  | [] => none
  | b :: rest =>
    if b.toNat < 128 then some (b.toNat, rest)
    else (read_varint rest).map fun found => (b.toNat - 128 + 128 * found.1, found.2)

/-- What is written is read back, whatever follows. -/
theorem read_varint_append (n : Nat) (rest : List UInt8) : read_varint (varint n ++ rest) = some (n, rest) := by
  induction n using Nat.strongRecOn with
  | ind n ih =>
    rw [varint]
    split
    case isTrue hsmall =>
      have hbyte : (UInt8.ofNat n).toNat = n := by
        rw [UInt8.toNat_ofNat']
        omega
      rw [List.singleton_append, read_varint, hbyte, if_pos hsmall]
    case isFalse hbig =>
      have hbyte : (UInt8.ofNat (n % 128 + 128)).toNat = n % 128 + 128 := by
        rw [UInt8.toNat_ofNat']
        omega
      have hvalue : n % 128 + 128 - 128 + 128 * (n / 128) = n := by omega
      rw [List.cons_append, read_varint, hbyte, if_neg (by omega), ih (n / 128) (by omega), Option.map_some, hvalue]

/-- The number of some bytes and then the bytes. -/
def sized (payload : List UInt8) : List UInt8 :=
  varint payload.length ++ payload

def read_sized (bytes : List UInt8) : Option (List UInt8 × List UInt8) := do
  let (size, rest) ← read_varint bytes
  if size ≤ rest.length then some (rest.take size, rest.drop size) else none

theorem read_sized_append (payload rest : List UInt8) : read_sized (sized payload ++ rest) = some (payload, rest) := by
  have hroom : payload.length ≤ (payload ++ rest).length := by
    rw [List.length_append]
    omega
  rw [read_sized, sized, List.append_assoc, read_varint_append, Option.bind_eq_bind, Option.bind_some]
  dsimp only
  rw [if_pos hroom, List.take_left, List.drop_left]

/-! ### Composition -/

/-- A number and then that many bytes. -/
def counted (k : Nat) (payload : List UInt8) : List UInt8 :=
  le_bytes k payload.length ++ payload

theorem framed_counted (k : Nat) : Framed (fun payload => payload.length < 256 ^ k) (counted k) := by
  intro x y hx hy s t h
  rw [counted, counted, List.append_assoc, List.append_assoc] at h
  obtain ⟨hcount, hrest⟩ := framed_le_bytes k hx hy h
  exact List.append_inj hrest hcount

/-- A writing of the part that decides the value is framed. -/
theorem Framed.comap (h : Framed fits write) {f : β → α} (hf : ∀ x y, f x = f y → x = y) :
    Framed (fun x => fits (f x)) fun x => write (f x) := by
  intro x y hx hy s t heq
  obtain ⟨hval, hrest⟩ := h hx hy heq
  exact ⟨hf x y hval, hrest⟩

/-- `0` for nothing, `1` and the value for something. -/
def optional (write : α → List UInt8) : Option α → List UInt8
  | none => [0]
  | some x => 1 :: write x

/-- What there is fits. -/
def All (fits : α → Prop) (x : Option α) : Prop :=
  ∀ a ∈ x, fits a

theorem Framed.optional (h : Framed fits write) : Framed (All fits) (optional write) := by
  intro x y hx hy s t heq
  cases x with
  | none =>
    cases y with
    | none => exact ⟨rfl, (List.cons.inj heq).2⟩
    | some b => cases (List.cons.inj heq).1
  | some a =>
    cases y with
    | none => cases (List.cons.inj heq).1
    | some b =>
      obtain ⟨rfl, hrest⟩ := h (hx a rfl) (hy b rfl) (List.cons.inj heq).2
      exact ⟨rfl, hrest⟩

/-- One writing after the other. -/
def both (write : α → List UInt8) (write' : β → List UInt8) (x : α × β) : List UInt8 :=
  write x.1 ++ write' x.2

theorem Framed.both {fits' : β → Prop} {write' : β → List UInt8} (h : Framed fits write)
    (h' : Framed fits' write') : Framed (fun x => fits x.1 ∧ fits' x.2) (both write write') := by
  rintro ⟨a, b⟩ ⟨a', b'⟩ ⟨ha, hb⟩ ⟨ha', hb'⟩ s t heq
  rw [framing.both, framing.both, List.append_assoc, List.append_assoc] at heq
  obtain ⟨rfl, hsecond⟩ := h ha ha' heq
  obtain ⟨rfl, hrest⟩ := h' hb hb' hsecond
  exact ⟨rfl, hrest⟩

end framing
