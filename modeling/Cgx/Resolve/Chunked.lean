import Mathlib.Data.Finset.Sort
import Mathlib.Data.Option.Defs
import Cgx.Lib.Chase
import Cgx.Lib.Chunks
import Cgx.Lib.SortBy
import Cgx.Resolve.Sig

/-! The edge list is stored in chunks of one size, so that no growth copies a full chunk. -/

open cgx.core chase chunks sorting

namespace cgx.resolve

def CHUNK_SHIFT : Nat := 16

/-- Elements per chunk. -/
def CHUNK_LEN : Nat := 1 <<< CHUNK_SHIFT

def CHUNK_MASK : Nat := CHUNK_LEN - 1

/-- A growable sequence stored as a list of chunks. Capacities are left out. -/
structure ChunkedVec (α : Type) where
  chunks : List (List α)
  len : Nat

namespace ChunkedVec

variable {σ α κ : Type}

def new : ChunkedVec α :=
  ⟨[], 0⟩

def is_empty (v : ChunkedVec α) : Bool :=
  v.len == 0

/-- Append an element: to the last chunk if it has room, otherwise to a new one. -/
def push (v : ChunkedVec α) (value : α) : ChunkedVec α :=
  let chunks := match v.chunks.getLast? with
    | some c => if c.length < CHUNK_LEN then v.chunks else v.chunks ++ [[]]
    | none => v.chunks ++ [[]]
  ⟨chunks.modify (chunks.length - 1) fun last => last ++ [value], v.len + 1⟩

/-- The element at `i`, if any. -/
def get (v : ChunkedVec α) (i : Nat) : Option α :=
  (v.chunks[i >>> CHUNK_SHIFT]?).bind fun chunk => chunk[i &&& CHUNK_MASK]?

/-- The element at `i`; `none` is the panic on an index out of bounds. -/
def index (v : ChunkedVec α) (i : Nat) : Option α := do
  let chunk ← v.chunks[i >>> CHUNK_SHIFT]?
  chunk[i &&& CHUNK_MASK]?

/-- The elements in order. -/
def iter (v : ChunkedVec α) : List α :=
  v.chunks.flatten

/-- A slice divided in two; `none` is the panic past the end. -/
def split_at_mut {β : Type} (l : List β) (mid : Nat) : Option (List β × List β) :=
  if mid ≤ l.length then some (l.take mid, l.drop mid) else none

/-- Exchange two elements of different chunks, the first in front. -/
def swap_across (chunks : List (List α)) (lo hi ilo ihi : Nat) : Option (List (List α)) := do
  let (head, tail) ← split_at_mut chunks hi
  let low ← head[lo]?
  let x ← low[ilo]?
  let high ← tail[0]?
  let y ← high[ihi]?
  some (head.set lo (low.set ilo y) ++ tail.set 0 (high.set ihi x))

/-- Swap the elements at `a` and `b`; `none` if either is out of bounds. -/
def swap (v : ChunkedVec α) (a b : Nat) : Option (ChunkedVec α) := do
  let (ca, ia) := (a >>> CHUNK_SHIFT, a &&& CHUNK_MASK)
  let (cb, ib) := (b >>> CHUNK_SHIFT, b &&& CHUNK_MASK)
  if ca = cb then
    let c ← v.chunks[ca]?
    let c ← exchange c ia ib
    some ⟨v.chunks.set ca c, v.len⟩
  else
    let (lo, hi, ilo, ihi) := if ca < cb then (ca, cb, ia, ib) else (cb, ca, ib, ia)
    let chunks ← swap_across v.chunks lo hi ilo ihi
    some ⟨chunks, v.len⟩

/-- Shorten the list to `len` elements. -/
def truncate (v : ChunkedVec α) (len : Nat) : ChunkedVec α :=
  if v.len ≤ len then v
  else
    let keep_chunks := len ⌈/⌉ CHUNK_LEN
    let chunks := v.chunks.take keep_chunks
    ⟨chunks.modify (chunks.length - 1) fun last => last.take (len - (keep_chunks - 1) * CHUNK_LEN), len⟩

/-- One round of `retain`: a survivor is swapped forward. -/
def retain_step (keep : α → σ → Bool × σ) (state : ChunkedVec α × Nat × σ) (read : Nat) :
    Option (ChunkedVec α × Nat × σ) := do
  let (v, write, s) := state
  let x ← v.index read
  let (kept, s) := keep x s
  if kept then
    let v ← if read ≠ write then v.swap read write else some v
    some (v, write + 1, s)
  else some (v, write, s)

/-- Keep the elements a predicate wants; the predicate has a state of its own. -/
def retain (v : ChunkedVec α) (keep : α → σ → Bool × σ) (s : σ) : Option (ChunkedVec α × σ) := do
  let (v, write, s) ← (List.range v.len).foldlM (retain_step keep) (v, 0, s)
  some (v.truncate write, s)

/-- The keys of the elements, computed once each, in order. -/
def cached_keys (f : α → σ → κ × σ) : List α → σ → List κ × σ
  | [], s => ([], s)
  | a :: rest, s =>
    let (k, s) := f a s
    let (keys, s) := cached_keys f rest s
    (k :: keys, s)

/-- Where the element meant for position `i` is now: follow the swaps made before. -/
def follow {I : Type} (from_ : I → Nat) (indices : List (κ × I)) (i : Nat) : Nat → I → Option I
  | 0, index => if from_ index < i then none else some index
  | fuel + 1, index =>
    if from_ index < i then do
      let e ← indices[from_ index]?
      follow from_ indices i fuel e.2
    else some index

def permute_step {I : Type} (from_ : I → Nat) (state : ChunkedVec α × List (κ × I)) (i : Nat) :
    Option (ChunkedVec α × List (κ × I)) := do
  let (v, indices) := state
  let e ← indices[i]?
  let index ← follow from_ indices i i e.2
  let v ← v.swap i (from_ index)
  some (v, indices.set i (e.1, index))

/-- The pairs are all different, so that any sort arranges them alike. -/
def permute_by_key {I : Type} [Ord I] (v : ChunkedVec α) (cmp : κ → κ → Ordering) (f : α → σ → κ × σ)
    (to_ : Nat → I) (from_ : I → Nat) (s : σ) : Option (ChunkedVec α × σ) := do
  let (keys, s) := cached_keys f v.iter s
  let pairs := keys.zipIdx.map fun e => (e.1, to_ e.2)
  let indices := sort_by (compareLex (fun a b => cmp a.1 b.1) (compareOn Prod.snd)) pairs
  let (v, _) ← (List.range v.len).foldlM (permute_step from_) (v, indices)
  some (v, s)

/-- Sort stably by a key computed once per element. The indices are 32 bits wide where
that suffices. -/
def sort_by_cached_key (v : ChunkedVec α) (cmp : κ → κ → Ordering) (f : α → σ → κ × σ) (s : σ) :
    Option (ChunkedVec α × σ) :=
  if v.len < 2 then some (v, s)
  else if v.len < 2 ^ 32 then v.permute_by_key cmp f UInt32.ofNat UInt32.toNat s
  else v.permute_by_key cmp f (fun i => i) (fun i => i) s

def extend (v : ChunkedVec α) (values : List α) : ChunkedVec α :=
  values.foldl push v

/-- The predicate of `remove_edges_at`: its state is the positions still to drop and the
position it is asked about. -/
def not_dropped (_ : α) : List Nat × Nat → Bool × (List Nat × Nat)
  | ([], i) => (true, [], i + 1)
  | (d :: drop, i) => if d = i then (false, drop, i + 1) else (true, d :: drop, i + 1)

/-- Remove the elements at the positions in `drop`. -/
def remove_edges_at (edges : ChunkedVec α) (drop : Finset Nat) : Option (ChunkedVec α) := do
  let (edges, _) ← edges.retain not_dropped (drop.sort (· ≤ ·), 0)
  some edges

/-- The chunked list stores the list: its chunks, and its length. -/
structure Holds (v : ChunkedVec α) (l : List α) : Prop where
  chunks : v.chunks = cut CHUNK_LEN l
  len : v.len = l.length

theorem chunk_len_pos : 0 < CHUNK_LEN := by
  decide

theorem shift_eq (i : Nat) : i >>> CHUNK_SHIFT = i / CHUNK_LEN := by
  rw [Nat.shiftRight_eq_div_pow, CHUNK_LEN, Nat.one_shiftLeft]

theorem mask_eq (i : Nat) : i &&& CHUNK_MASK = i % CHUNK_LEN := by
  rw [CHUNK_MASK, CHUNK_LEN, Nat.one_shiftLeft, Nat.and_two_pow_sub_one_eq_mod]

theorem holds_new : (new : ChunkedVec α).Holds [] where
  chunks := (cut_nil chunk_len_pos).symm
  len := rfl

section holds

variable {v : ChunkedVec α} {l : List α}

theorem Holds.iter_eq (h : v.Holds l) : v.iter = l := by
  rw [iter, h.chunks, flatten_cut chunk_len_pos]

theorem Holds.get_eq (h : v.Holds l) (i : Nat) : v.get i = l[i]? := by
  rw [get, h.chunks, shift_eq, mask_eq, getElem?_of_cut chunk_len_pos]

theorem Holds.index_eq (h : v.Holds l) (i : Nat) : v.index i = l[i]? :=
  h.get_eq i

theorem Holds.push (h : v.Holds l) (value : α) : (v.push value).Holds (l ++ [value]) := by
  constructor
  · unfold ChunkedVec.push
    rw [h.chunks]
    cases hlast : (cut CHUNK_LEN l).getLast? with
    | none =>
      rw [cut_concat_full chunk_len_pos (by simp [hlast])]
      simp [modify_concat]
    | some c =>
      by_cases hshort : c.length < CHUNK_LEN
      · simp only [hshort, ↓reduceIte]
        rw [cut_concat_short chunk_len_pos hlast hshort]
      · rw [cut_concat_full chunk_len_pos (by simp [hlast]; omega)]
        simp [hshort, modify_concat]
  · rw [ChunkedVec.push, List.length_append, List.length_singleton, h.len]

theorem Holds.extend (h : v.Holds l) (values : List α) : (v.extend values).Holds (l ++ values) := by
  induction values generalizing v l with
  | nil => rwa [ChunkedVec.extend, List.foldl_nil, List.append_nil]
  | cons value rest ih =>
    have hrest := ih (h.push value)
    rwa [List.append_assoc, List.singleton_append] at hrest

theorem Holds.truncate (h : v.Holds l) (len : Nat) : (v.truncate len).Holds (l.take len) := by
  unfold ChunkedVec.truncate
  split
  · rename_i hle
    rw [h.len] at hle
    rwa [List.take_of_length_le hle]
  · rename_i hlt
    rw [h.len] at hlt
    have hle : len ≤ l.length := by omega
    constructor
    · rw [h.chunks, cut_take chunk_len_pos hle]
    · rw [List.length_take, Nat.min_eq_left hle]

end holds

section swap

theorem swap_across_eq {chunks : List (List α)} {lo hi : Nat} (h : lo < hi) (ilo ihi : Nat) :
    swap_across chunks lo hi ilo ihi = (do
      let x ← (chunks[lo]?).bind fun chunk => chunk[ilo]?
      let y ← (chunks[hi]?).bind fun chunk => chunk[ihi]?
      some ((chunks.modify lo fun c => c.set ilo y).modify hi fun c => c.set ihi x)) := by
  have hlow : (chunks.take hi)[lo]? = chunks[lo]? := List.getElem?_take_of_lt h
  have hhigh : (chunks.drop hi)[0]? = chunks[hi]? := by rw [List.getElem?_drop, Nat.add_zero]
  unfold swap_across split_at_mut
  by_cases hlen : hi ≤ chunks.length
  · simp only [hlen, ↓reduceIte, Option.bind_eq_bind, Option.bind_some, hlow, hhigh]
    cases hc : chunks[lo]? with
    | none => rfl
    | some low =>
      cases hd : chunks[hi]? with
      | none => simp
      | some high =>
        have hset : ∀ x y, (chunks.take hi).set lo (low.set ilo y) ++ (chunks.drop hi).set 0 (high.set ihi x) =
            (chunks.modify lo fun c => c.set ilo y).modify hi fun c => c.set ihi x := by
          intro x y
          have hhi : (chunks.set lo (low.set ilo y))[hi]? = some high := by
            rw [List.getElem?_set_ne (Nat.ne_of_lt h), hd]
          rw [← set_eq_modify hc fun c => c.set ilo y, ← set_eq_modify hhi fun c => c.set ihi x]
          conv_rhs => rw [← List.take_append_drop hi ((chunks.set lo (low.set ilo y)).set hi (high.set ihi x))]
          rw [List.take_set, List.take_set, List.drop_set, List.drop_set, if_neg (lt_irrefl hi), if_pos h,
            Nat.sub_self, List.set_eq_of_length_le (i := hi) (by simp)]
        simp [hset]
  · rw [if_neg hlen, List.getElem?_eq_none (i := hi) (by omega)]
    simp

theorem swap_eq (v : ChunkedVec α) (a b : Nat) :
    v.swap a b = (do
      let x ← v.get a
      let y ← v.get b
      some ⟨(v.chunks.modify (a >>> CHUNK_SHIFT) fun c => c.set (a &&& CHUNK_MASK) y).modify (b >>> CHUNK_SHIFT)
        fun c => c.set (b &&& CHUNK_MASK) x, v.len⟩) := by
  unfold swap get
  obtain hlt | heq | hgt := Nat.lt_trichotomy (a >>> CHUNK_SHIFT) (b >>> CHUNK_SHIFT)
  · simp only [Nat.ne_of_lt hlt, hlt, ↓reduceIte, swap_across_eq hlt]
    simp [Option.bind_assoc]
  · simp only [heq, ↓reduceIte]
    cases hc : v.chunks[b >>> CHUNK_SHIFT]? with
    | none => rfl
    | some c =>
      have hset : ∀ x y, v.chunks.set (b >>> CHUNK_SHIFT) ((c.set (a &&& CHUNK_MASK) y).set (b &&& CHUNK_MASK) x) =
          (v.chunks.modify (b >>> CHUNK_SHIFT) fun c => c.set (a &&& CHUNK_MASK) y).modify (b >>> CHUNK_SHIFT)
            fun c => c.set (b &&& CHUNK_MASK) x := by
        intro x y
        rw [List.modify_modify_eq]
        exact set_eq_modify hc fun c => (c.set (a &&& CHUNK_MASK) y).set (b &&& CHUNK_MASK) x
      simp [exchange, hset, Option.bind_assoc]
  · simp only [Nat.ne_of_gt hgt, Nat.lt_asymm hgt, ↓reduceIte, swap_across_eq hgt]
    cases hx : (v.chunks[a >>> CHUNK_SHIFT]?).bind fun chunk => chunk[a &&& CHUNK_MASK]? with
    | none => simp
    | some x =>
      cases (v.chunks[b >>> CHUNK_SHIFT]?).bind fun chunk => chunk[b &&& CHUNK_MASK]? with
      | none => simp
      | some y =>
        simp only [Option.bind_eq_bind, Option.bind_some]
        rw [List.modify_modify_ne _ _ _ (Nat.ne_of_lt hgt)]

/-- Swapping is exchanging the elements of the list; it panics where that does. -/
theorem Holds.swap {v : ChunkedVec α} {l : List α} (h : v.Holds l) (a b : Nat) :
    Option.Rel Holds (v.swap a b) (exchange l a b) := by
  rw [swap_eq, exchange, h.get_eq, h.get_eq]
  cases l[a]? with
  | none => exact .none
  | some x =>
    cases l[b]? with
    | none => exact .none
    | some y =>
      refine .some ⟨?_, by simp [h.len]⟩
      rw [h.chunks, shift_eq, shift_eq, mask_eq, mask_eq, modify_cut chunk_len_pos, modify_cut chunk_len_pos]

end swap

theorem exists_of_rel_some {β γ : Type} {R : β → γ → Prop} {o : Option β} {c : γ} (h : Option.Rel R o (some c)) :
    ∃ b, o = some b ∧ R b c := by
  cases h with
  | some h => exact ⟨_, rfl, h⟩

theorem rel_bind {β γ δ ε : Type} {R : β → γ → Prop} {S : δ → ε → Prop} {o : Option β} {o' : Option γ}
    {f : β → Option δ} {g : γ → Option ε} (h : Option.Rel R o o')
    (hfg : ∀ b c, R b c → Option.Rel S (f b) (g c)) : Option.Rel S (o.bind f) (o'.bind g) := by
  cases h with
  | some h => exact hfg _ _ h
  | none => exact .none

section retain

/-- The survivors of a list, the predicate asked about each element once, in order. -/
def survivors (keep : α → σ → Bool × σ) : List α → σ → List α × σ
  | [], s => ([], s)
  | a :: rest, s =>
    let (kept, s) := keep a s
    let (rest, s) := survivors keep rest s
    (if kept then a :: rest else rest, s)

/-- The loop over the rest of the list: `done` has survived so far, `gap` is what has been
passed over. -/
theorem retain_loop (keep : α → σ → Bool × σ) (rest : List α) {v : ChunkedVec α} (done gap : List α) (s : σ)
    (h : v.Holds (done ++ gap ++ rest)) :
    ∃ v' tail, (List.range' (done ++ gap).length rest.length).foldlM (retain_step keep) (v, done.length, s) =
        some (v', (done ++ (survivors keep rest s).1).length, (survivors keep rest s).2) ∧
      v'.Holds (done ++ (survivors keep rest s).1 ++ tail) := by
  induction rest generalizing v done gap s with
  | nil =>
    refine ⟨v, gap, ?_, ?_⟩
    · simp [survivors]
    · simpa [survivors] using h
  | cons x rest ih =>
    have hread : v.index (done ++ gap).length = some x := by
      rw [h.index_eq, List.getElem?_append_right (le_refl _), Nat.sub_self, List.getElem?_cons_zero]
    rw [List.length_cons, List.range'_succ, List.foldlM_cons]
    cases hkeep : keep x s with
    | mk kept s' =>
    cases kept with
    | false =>
      have hstep : retain_step keep (v, done.length, s) (done ++ gap).length = some (v, done.length, s') := by
        simp only [retain_step, hread, hkeep, Option.bind_eq_bind, Option.bind_some, Bool.false_eq_true, ↓reduceIte]
      have hnext : v.Holds (done ++ (gap ++ [x]) ++ rest) := by simpa using h
      obtain ⟨v', tail, hloop, hholds⟩ := ih _ _ s' hnext
      have hlength : (done ++ (gap ++ [x])).length = (done ++ gap).length + 1 := by
        simp [Nat.add_assoc]
      rw [hlength] at hloop
      refine ⟨v', tail, ?_, ?_⟩
      · rw [hstep, Option.bind_eq_bind, Option.bind_some, hloop]
        simp [survivors, hkeep]
      · simpa [survivors, hkeep] using hholds
    | true =>
      -- The survivor comes to stand behind the others.
      obtain ⟨v', gap', hstep, hnext, hlength⟩ : ∃ v' gap',
          retain_step keep (v, done.length, s) (done ++ gap).length = some (v', (done ++ [x]).length, s') ∧
            v'.Holds (done ++ [x] ++ gap' ++ rest) ∧ (done ++ [x] ++ gap').length = (done ++ gap).length + 1 := by
        have hcount : (done ++ [x]).length = done.length + 1 := by simp
        cases gap with
        | nil =>
          refine ⟨v, [], ?_, by simpa using h, by simp⟩
          rw [List.append_nil] at hread ⊢
          rw [hcount]
          simp only [retain_step, hread, hkeep, Option.bind_eq_bind, Option.bind_some, ↓reduceIte, ne_eq,
            not_true_eq_false]
        | cons y gap =>
          have hne : (done ++ y :: gap).length ≠ done.length := by simp
          have hswap := h.swap (done ++ y :: gap).length done.length
          rw [exchange_forward] at hswap
          obtain ⟨v', hv', hholds⟩ := exists_of_rel_some hswap
          refine ⟨v', gap ++ [y], ?_, hholds, by simp; omega⟩
          rw [hcount]
          simp only [retain_step, hread, hkeep, Option.bind_eq_bind, Option.bind_some, ↓reduceIte, hne, ne_eq,
            not_false_eq_true, hv']
      obtain ⟨w, tail, hloop, hholds⟩ := ih _ _ s' hnext
      rw [hlength] at hloop
      refine ⟨w, tail, ?_, ?_⟩
      · rw [hstep, Option.bind_eq_bind, Option.bind_some, hloop]
        simp [survivors, hkeep]
      · simpa [survivors, hkeep] using hholds

theorem Holds.retain {v : ChunkedVec α} {l : List α} (h : v.Holds l) (keep : α → σ → Bool × σ) (s : σ) :
    ∃ v', v.retain keep s = some (v', (survivors keep l s).2) ∧ v'.Holds (survivors keep l s).1 := by
  obtain ⟨v', tail, hloop, hholds⟩ := retain_loop keep l [] [] s h
  refine ⟨v'.truncate (survivors keep l s).1.length, ?_, ?_⟩
  · rw [List.nil_append, List.nil_append, List.length_nil, ← List.range_eq_range'] at hloop
    rw [ChunkedVec.retain, h.len, hloop]
    rfl
  · have htruncate := hholds.truncate (survivors keep l s).1.length
    rwa [List.nil_append, List.take_left] at htruncate

/-- Dropping positions keeps the elements at the others. -/
theorem survivors_not_dropped (l : List α) {drop : List Nat} {i : Nat} (hsorted : drop.Pairwise fun a b => a < b)
    (hstart : ∀ d ∈ drop, i ≤ d) :
    (survivors not_dropped l (drop, i)).1 = ((l.zipIdx i).filter fun e => !drop.contains e.2).map Prod.fst := by
  induction l generalizing drop i with
  | nil => rfl
  | cons a rest ih =>
    rw [List.zipIdx_cons, survivors]
    by_cases hi : i ∈ drop
    · -- The least position still to drop is this one.
      obtain ⟨drop, rfl⟩ : ∃ drop', drop = i :: drop' := by
        cases drop with
        | nil => cases hi
        | cons d drop =>
          obtain rfl | hmem := List.mem_cons.mp hi
          · exact ⟨drop, rfl⟩
          · have hlt := (List.pairwise_cons.mp hsorted).1 i hmem
            have hle := hstart d List.mem_cons_self
            omega
      have hdrop : not_dropped a (i :: drop, i) = (false, drop, i + 1) := by simp [not_dropped]
      have hbehind := (List.pairwise_cons.mp hsorted).1
      rw [hdrop, List.filter_cons_of_neg (by simp)]
      simp only [Bool.false_eq_true, ↓reduceIte]
      rw [ih (List.pairwise_cons.mp hsorted).2 fun d hd => hbehind d hd]
      congr 1
      apply List.filter_congr
      intro e he
      have hpos : e.2 ≠ i := by
        have hle := (List.mem_zipIdx he).1
        omega
      simp [hpos]
    · have hstart' : ∀ d ∈ drop, i + 1 ≤ d := by
        intro d hd
        have hle := hstart d hd
        have hne : d ≠ i := fun heq => hi (heq ▸ hd)
        omega
      have hkeep : not_dropped a (drop, i) = (true, drop, i + 1) := by
        cases drop with
        | nil => rfl
        | cons d drop =>
          have hne : d ≠ i := fun heq => hi (heq ▸ List.mem_cons_self)
          simp [not_dropped, hne]
      rw [hkeep, List.filter_cons_of_pos (by simpa using hi), List.map_cons]
      simp only [↓reduceIte]
      rw [ih hsorted hstart']

theorem Holds.remove_edges_at {v : ChunkedVec α} {l : List α} (h : v.Holds l) (drop : Finset Nat) :
    ∃ v', v.remove_edges_at drop = some v' ∧
      v'.Holds ((l.zipIdx.filter fun e => !(drop.sort (· ≤ ·)).contains e.2).map Prod.fst) := by
  obtain ⟨v', hv', hholds⟩ := h.retain not_dropped (drop.sort (· ≤ ·), 0)
  rw [survivors_not_dropped l (Finset.sortedLT_sort drop).pairwise fun d _ => Nat.zero_le d] at hholds
  refine ⟨v', ?_, hholds⟩
  rw [ChunkedVec.remove_edges_at, hv']
  rfl

/-- The pass over the edges of a graph is the one the post-passes are stated with. -/
theorem iter_remove_edges_at {edges : ChunkedVec EdgeWithProvenance} {l : List EdgeWithProvenance} (h : edges.Holds l)
    (drop : Finset Nat) :
    (edges.remove_edges_at drop).map iter = some (cgx.resolve.remove_edges_at (drop.sort (· ≤ ·)) l) := by
  obtain ⟨v', hv', hholds⟩ := h.remove_edges_at drop
  rw [hv', Option.map_some, hholds.iter_eq]
  rfl

end retain

section permute

variable {I : Type} {from_ : I → Nat}

/-- Following the chain ends at its last position, in no more steps than there are
positions before `i`. -/
theorem follow_of_chases {indices : List (κ × I)} {i x y : Nat}
    (h : Chases (indices.map fun e => from_ e.2) i x y) {fuel : Nat} {index : I} (hx : from_ index = x)
    (hfuel : i - x ≤ fuel) : ∃ last, follow from_ indices i fuel index = some last ∧ from_ last = y := by
  induction h generalizing fuel index with
  | done hle =>
    subst hx
    cases fuel with
    | zero => exact ⟨index, by rw [follow, if_neg (by omega)], rfl⟩
    | succ fuel => exact ⟨index, by rw [follow, if_neg (by omega)], rfl⟩
  | @step x y z hlt hnext hup _ ih =>
    obtain ⟨fuel, rfl⟩ : ∃ f, fuel = f + 1 := ⟨fuel - 1, by omega⟩
    have hless : i - z ≤ fuel := by omega
    subst hx
    rw [List.getElem?_map, Option.map_eq_some_iff] at hnext
    obtain ⟨e, he, hz⟩ := hnext
    obtain ⟨last, hfollow, hlast⟩ := ih hz hless
    refine ⟨last, ?_, hlast⟩
    rw [follow, if_pos hlt, he]
    exact hfollow

/-- One position after the other is settled, to the end of the list. -/
theorem permute_loop {source : List α} {order : List Nat} (hnodup : order.Nodup)
    (hlen : order.length = source.length) (hrange : ∀ p ∈ order, p < source.length) (m : Nat) {i : Nat}
    (him : i + m = source.length) {v : ChunkedVec α} {l : List α} (h : v.Holds l) {indices : List (κ × I)}
    {place : Equiv.Perm Nat} (hsettled : chase.Settled source order i l (indices.map fun e => from_ e.2) place) :
    ∃ v' l' indices', (List.range' i m).foldlM (permute_step from_) (v, indices) = some (v', indices') ∧
      v'.Holds l' ∧ ∀ k : Nat, l'[k]? = order[k]?.bind fun p => source[p]? := by
  induction m generalizing i v l indices place with
  | zero => exact ⟨v, l, indices, rfl, h, hsettled.done (by omega) hlen⟩
  | succ m ih =>
    obtain ⟨p, hp⟩ : ∃ p, order[i]? = some p := ⟨_, List.getElem?_eq_getElem (by omega)⟩
    obtain ⟨q, l', hchain, hexchange, hnext⟩ := hsettled.step hnodup hp (hrange p (List.mem_of_getElem? hp))
    have hids := hsettled.todo i (le_refl i)
    rw [hp, List.getElem?_map, Option.map_eq_some_iff] at hids
    obtain ⟨e, he, hep⟩ := hids
    obtain ⟨last, hfollow, hlast⟩ := follow_of_chases hchain hep (Nat.sub_le i p)
    have hswap := h.swap i q
    rw [hexchange] at hswap
    obtain ⟨v', hv', hholds⟩ := exists_of_rel_some hswap
    have hset : (indices.map fun e => from_ e.2).set i q = (indices.set i (e.1, last)).map fun e => from_ e.2 := by
      rw [List.map_set, hlast]
    rw [hset] at hnext
    obtain ⟨w, l'', indices', hloop, hw, helements⟩ := ih (by omega) hholds hnext
    refine ⟨w, l'', indices', ?_, hw, helements⟩
    rw [List.range'_succ, List.foldlM_cons]
    simp only [permute_step, he, hfollow, hlast, hv', Option.bind_eq_bind, Option.bind_some]
    exact hloop

theorem length_cached_keys (f : α → σ → κ × σ) (l : List α) (s : σ) : (cached_keys f l s).1.length = l.length := by
  induction l generalizing s with
  | nil => rfl
  | cons a rest ih => rw [cached_keys, List.length_cons, List.length_cons, ih]

variable [Ord I] [Std.TransOrd I] {cmp : κ → κ → Ordering} [Std.TransCmp cmp] {to_ : Nat → I}

/-- The permuted list is the stably sorted one, if the indices stand for the positions. -/
theorem Holds.permute_by_key {v : ChunkedVec α} {l : List α} (h : v.Holds l) (f : α → σ → κ × σ) (s : σ)
    (hfrom : ∀ i, i < l.length → from_ (to_ i) = i)
    (hto : ∀ i j, i < j → j < l.length → (compare (to_ i) (to_ j)).isLE) :
    ∃ v', v.permute_by_key cmp f to_ from_ s = some (v', (cached_keys f l s).2) ∧
      v'.Holds ((sort_by (fun a b => cmp a.2 b.2) (l.zip (cached_keys f l s).1)).map Prod.fst) := by
  have hkey : Std.TransCmp fun a b : (α × κ) × Nat => cmp a.1.2 b.1.2 := trans_on cmp fun r : (α × κ) × Nat => r.1.2
  have hindex : Std.TransCmp fun a b : (α × κ) × Nat => compare (to_ a.2) (to_ b.2) :=
    trans_on compare fun r : (α × κ) × Nat => to_ r.2
  have hkeys := length_cached_keys f l s
  let rows := (l.zip (cached_keys f l s).1).zipIdx
  let sorted := sort_by (fun a b : (α × κ) × Nat => cmp a.1.2 b.1.2) rows
  have hrows : rows.length = l.length := by simp [rows, hkeys]
  have hpairs : (cached_keys f l s).1.zipIdx.map (fun e => (e.1, to_ e.2)) = rows.map fun r => (r.1.2, to_ r.2) := by
    have hsnd : (l.zip (cached_keys f l s).1).map Prod.snd = (cached_keys f l s).1 :=
      List.map_snd_zip (Nat.le_of_eq hkeys)
    conv_lhs => rw [← hsnd]
    rw [List.zipIdx_map, List.map_map]
    rfl
  have hascend : rows.Pairwise fun a b => (compare (to_ a.2) (to_ b.2)).isLE := by
    rw [List.pairwise_iff_getElem]
    intro i j hi hj hij
    simp only [rows, List.getElem_zipIdx, Nat.zero_add]
    exact hto i j hij (by omega)
  have hsorted : sort_by (compareLex (fun a b => cmp a.1.2 b.1.2) fun a b => compare (to_ a.2) (to_ b.2)) rows = sorted :=
    sort_by_compareLex hascend
  have hindices : sort_by (compareLex (fun a b => cmp a.1 b.1) (compareOn Prod.snd))
      ((cached_keys f l s).1.zipIdx.map fun e => (e.1, to_ e.2)) = sorted.map fun r => (r.1.2, to_ r.2) := by
    rw [hpairs, ← hsorted]
    exact (map_sort_by (fun r : (α × κ) × Nat => (r.1.2, to_ r.2)) (fun _ _ => rfl) rows).symm
  have hmem : ∀ r ∈ sorted, l[r.2]? = some r.1.1 := by
    intro r hr
    have hrow : r ∈ rows := mem_sort_by.mp hr
    exact (List.getElem?_zip_eq_some.mp (List.mem_zipIdx_iff_getElem?.mp hrow)).1
  have horder : (sorted.map Prod.snd).Perm (List.range l.length) := by
    have hpositions : rows.map Prod.snd = List.range l.length := by
      rw [List.zipIdx_map_snd, List.range_eq_range', ← hrows, List.length_zipIdx]
    exact hpositions ▸ (perm_sort_by rows).map Prod.snd
  have hids : (sorted.map fun r => (r.1.2, to_ r.2)).map (fun e => from_ e.2) = sorted.map Prod.snd := by
    rw [List.map_map]
    apply List.map_congr_left
    intro r hr
    exact hfrom r.2 (List.getElem?_eq_some_iff.mp (hmem r hr)).1
  have hcount : (sorted.map Prod.snd).length = l.length := by rw [horder.length_eq, List.length_range]
  have hstart : chase.Settled l (sorted.map Prod.snd) 0 l
      ((sorted.map fun r => (r.1.2, to_ r.2)).map fun e => from_ e.2) (Equiv.refl Nat) :=
    hids ▸ settled_start l (sorted.map Prod.snd) hcount
  obtain ⟨v', l', indices, hloop, hholds, helements⟩ := permute_loop (horder.nodup_iff.mpr List.nodup_range) hcount
    (fun p hp => List.mem_range.mp (horder.mem_iff.mp hp)) l.length (Nat.zero_add _) h hstart
  have hresult : l' = (sort_by (fun a b => cmp a.2 b.2) (l.zip (cached_keys f l s).1)).map Prod.fst := by
    have hrest : sort_by (fun a b => cmp a.2 b.2) (l.zip (cached_keys f l s).1) = sorted.map Prod.fst := by
      rw [← List.zipIdx_map_fst 0 (l.zip (cached_keys f l s).1)]
      exact (map_sort_by Prod.fst (fun _ _ => rfl) rows).symm
    rw [hrest]
    apply List.ext_getElem?
    intro k
    rw [helements, List.getElem?_map, List.getElem?_map, List.getElem?_map]
    cases hr : sorted[k]? with
    | none => rfl
    | some r =>
      rw [Option.map_some, Option.bind_some, hmem r (List.mem_of_getElem? hr)]
      rfl
  refine ⟨v', ?_, hresult ▸ hholds⟩
  unfold ChunkedVec.permute_by_key
  simp only [h.iter_eq, hindices, h.len, List.range_eq_range', hloop, Option.bind_eq_bind, Option.bind_some]

/-- The elements of a list sorted stably by their cached keys. A list of one element has no
keys computed. -/
def stably_sorted (cmp : κ → κ → Ordering) (f : α → σ → κ × σ) (l : List α) (s : σ) : List α × σ :=
  if l.length < 2 then (l, s)
  else
    let (keys, s) := cached_keys f l s
    ((sort_by (fun a b => cmp a.2 b.2) (l.zip keys)).map Prod.fst, s)

theorem Holds.sort_by_cached_key {v : ChunkedVec α} {l : List α} (h : v.Holds l) (cmp : κ → κ → Ordering)
    [Std.TransCmp cmp] (f : α → σ → κ × σ) (s : σ) :
    ∃ v', v.sort_by_cached_key cmp f s = some (v', (stably_sorted cmp f l s).2) ∧
      v'.Holds (stably_sorted cmp f l s).1 := by
  unfold ChunkedVec.sort_by_cached_key stably_sorted
  rw [h.len]
  split
  · exact ⟨v, rfl, h⟩
  · split
    · rename_i hfits
      apply h.permute_by_key
      · intro i hi
        exact UInt32.toNat_ofNat_of_lt' (Nat.lt_trans hi hfits)
      · intro i j hij hj
        have hj' : j < UInt32.size := Nat.lt_trans hj hfits
        rw [Std.isLE_compare, UInt32.le_iff_toNat_le, UInt32.toNat_ofNat_of_lt' hj',
          UInt32.toNat_ofNat_of_lt' (Nat.lt_trans hij hj')]
        exact Nat.le_of_lt hij
    · apply h.permute_by_key
      · exact fun i _ => rfl
      · intro i j hij _
        exact Std.isLE_compare.mpr (Nat.le_of_lt hij)

end permute

/-- An operation on a list of edges. The closures of the operations share a state, in which
they may note what they are asked about. -/
inductive Op (σ α : Type) : Type 1
  | push (value : α)
  | swap (a b : Nat)
  | truncate (len : Nat)
  | retain (keep : α → σ → Bool × σ)
  | sort_by_cached_key {κ : Type} (cmp : κ → κ → Ordering) (lawful : Std.TransCmp cmp) (f : α → σ → κ × σ)
  | extend (values : List α)
  | remove_edges_at (drop : Finset Nat)

/-- The operation on a chunked list; `none` is a panic. -/
def step (state : ChunkedVec α × σ) : Op σ α → Option (ChunkedVec α × σ)
  | .push value => some (state.1.push value, state.2)
  | .swap a b => do some (← state.1.swap a b, state.2)
  | .truncate len => some (state.1.truncate len, state.2)
  | .retain keep => state.1.retain keep state.2
  | .sort_by_cached_key cmp _ f => state.1.sort_by_cached_key cmp f state.2
  | .extend values => some (state.1.extend values, state.2)
  | .remove_edges_at drop => do some (← state.1.remove_edges_at drop, state.2)

/-- The operation on a plain list. -/
def list_step (state : List α × σ) : Op σ α → Option (List α × σ)
  | .push value => some (state.1 ++ [value], state.2)
  | .swap a b => do some (← exchange state.1 a b, state.2)
  | .truncate len => some (state.1.take len, state.2)
  | .retain keep => some (survivors keep state.1 state.2)
  | .sort_by_cached_key cmp _ f => some (stably_sorted cmp f state.1 state.2)
  | .extend values => some (state.1 ++ values, state.2)
  | .remove_edges_at drop =>
    some ((state.1.zipIdx.filter fun e => !(drop.sort (· ≤ ·)).contains e.2).map Prod.fst, state.2)

/-- A chunked list with a closure state, against a plain list with one. -/
def HoldsWith (p : ChunkedVec α × σ) (q : List α × σ) : Prop :=
  p.1.Holds q.1 ∧ p.2 = q.2

theorem step_refines {p : ChunkedVec α × σ} {q : List α × σ} (h : HoldsWith p q) (op : Op σ α) :
    Option.Rel HoldsWith (step p op) (list_step q op) := by
  obtain ⟨v, s⟩ := p
  obtain ⟨l, _⟩ := q
  obtain ⟨hholds, rfl⟩ := h
  cases op with
  | push value => exact .some ⟨hholds.push value, rfl⟩
  | swap a b => exact rel_bind (hholds.swap a b) fun v' l' h => .some ⟨h, rfl⟩
  | truncate len => exact .some ⟨hholds.truncate len, rfl⟩
  | retain keep =>
    obtain ⟨v', hv', h⟩ := hholds.retain keep s
    simp only [step, list_step, hv']
    exact .some ⟨h, rfl⟩
  | sort_by_cached_key cmp lawful f =>
    obtain ⟨v', hv', h⟩ := hholds.sort_by_cached_key cmp f s
    simp only [step, list_step, hv']
    exact .some ⟨h, rfl⟩
  | extend values => exact .some ⟨hholds.extend values, rfl⟩
  | remove_edges_at drop =>
    obtain ⟨v', hv', h⟩ := hholds.remove_edges_at drop
    simp only [step, list_step, hv']
    exact .some ⟨h, rfl⟩

theorem run_refines (ops : List (Op σ α)) {p : ChunkedVec α × σ} {q : List α × σ} (h : HoldsWith p q) :
    Option.Rel HoldsWith (ops.foldlM step p) (ops.foldlM list_step q) := by
  induction ops generalizing p q with
  | nil => exact .some h
  | cons op rest ih =>
    rw [List.foldlM_cons, List.foldlM_cons]
    exact rel_bind (step_refines h op) fun p' q' h' => ih h'

/-- After any operations the chunked edge list is the plain list they make: a panic where that
panics, the same elements in order, each found at its position, and the closures asked about the
same elements in the same order. Every chunk but the last is full, and none is empty. -/
theorem behaves_like_list (ops : List (Op σ α)) (s : σ) :
    (ops.foldlM step (new, s)).map (fun p => (p.1.iter, p.2)) = ops.foldlM list_step ([], s) ∧
      ∀ v s', ops.foldlM step (new, s) = some (v, s') →
        v.len = v.iter.length ∧ (∀ i : Nat, v.get i = v.iter[i]? ∧ v.index i = v.iter[i]?) ∧
          (∀ j c, v.chunks[j]? = some c → j + 1 < v.chunks.length → c.length = CHUNK_LEN) ∧
          ∀ c ∈ v.chunks, 0 < c.length ∧ c.length ≤ CHUNK_LEN := by
  have hrel := run_refines ops (show HoldsWith (new, s) ([], s) from ⟨holds_new, rfl⟩)
  generalize ops.foldlM step (new, s) = o, ops.foldlM list_step ([], s) = o' at hrel
  cases hrel with
  | none => exact ⟨rfl, fun v s' hrun => by cases hrun⟩
  | @some p q h =>
    obtain ⟨hholds, hstate⟩ := h
    refine ⟨?_, fun v s' hrun => ?_⟩
    · rw [Option.map_some, hholds.iter_eq, hstate]
    · obtain rfl := Option.some.inj hrun
      rw [hholds.iter_eq, hholds.chunks]
      exact ⟨hholds.len, fun i => ⟨hholds.get_eq i, hholds.index_eq i⟩,
        fun j c hc hj => length_of_cut chunk_len_pos hc hj, fun c hc => bounds_of_cut chunk_len_pos hc⟩

end ChunkedVec

end cgx.resolve
