import Mathlib.Data.List.Basic

namespace gathering

variable {σ α β : Type}

/-- A step of a loop that gathers the items `P` into `out`: nothing gathered before is
lost, only `P` is added, and unless the step is cut it adds all of it. A cut is never
taken back. -/
structure Gathers (out : σ → List α) (cut : σ → Bool) (P : α → Prop) (step : σ → σ) : Prop where
  keeps : ∀ s, ∀ x ∈ out s, x ∈ out (step s)
  sound : ∀ s, ∀ x ∈ out (step s), x ∈ out s ∨ P x
  complete : ∀ s, cut (step s) = false → cut s = false ∧ ∀ x, P x → x ∈ out (step s)

namespace Gathers

variable {out : σ → List α} {cut : σ → Bool} {P Q : α → Prop} {step : σ → σ}

theorem congr (h : Gathers out cut P step) (hPQ : ∀ x, P x ↔ Q x) : Gathers out cut Q step where
  keeps := h.keeps
  sound s x hx := (h.sound s x hx).imp_right (hPQ x).mp
  complete s hcut := ⟨(h.complete s hcut).1, fun x hx => (h.complete s hcut).2 x ((hPQ x).mpr hx)⟩

/-- A loop gathers what its rounds gather. -/
theorem foldl {f : σ → β → σ} {P : β → α → Prop} {rounds : List β}
    (hround : ∀ b ∈ rounds, Gathers out cut (P b) (fun s => f s b)) :
    Gathers out cut (fun x => ∃ b ∈ rounds, P b x) (fun s => rounds.foldl f s) := by
  induction rounds with
  | nil =>
    refine ⟨fun s x hx => hx, fun s x hx => .inl hx, fun s hcut => ⟨hcut, ?_⟩⟩
    rintro x ⟨b, hb, _⟩
    simp at hb
  | cons b rest ih =>
    have hhead := hround b List.mem_cons_self
    have htail := ih fun b' hb' => hround b' (List.mem_cons_of_mem b hb')
    refine ⟨?_, ?_, ?_⟩
    · intro s x hx
      exact htail.keeps (f s b) x (hhead.keeps s x hx)
    · intro s x hx
      obtain hx | ⟨b', hb', hP⟩ := htail.sound (f s b) x hx
      · exact (hhead.sound s x hx).imp_right fun hP => ⟨b, List.mem_cons_self, hP⟩
      · exact .inr ⟨b', List.mem_cons_of_mem b hb', hP⟩
    · intro s hcut
      obtain ⟨hmid, hrest⟩ := htail.complete (f s b) hcut
      obtain ⟨hstart, hfirst⟩ := hhead.complete s hmid
      refine ⟨hstart, ?_⟩
      rintro x ⟨b', hb', hP⟩
      obtain rfl | hb' := List.mem_cons.mp hb'
      · exact htail.keeps (f s b') x (hfirst x hP)
      · exact hrest x ⟨b', hb', hP⟩

/-- In an uncut loop no round was cut. -/
theorem uncut_rounds {f : σ → β → σ} {P : β → α → Prop} {rounds : List β} {s : σ}
    (hround : ∀ b ∈ rounds, Gathers out cut (P b) (fun s => f s b))
    (hcut : cut (rounds.foldl f s) = false) : ∀ b ∈ rounds, ∃ t, cut (f t b) = false := by
  induction rounds generalizing s with
  | nil => simp
  | cons b rest ih =>
    have hrest : ∀ b' ∈ rest, Gathers out cut (P b') (fun s => f s b') :=
      fun b' hb' => hround b' (List.mem_cons_of_mem b hb')
    intro b' hb'
    obtain rfl | hb' := List.mem_cons.mp hb'
    · exact ⟨s, ((foldl hrest).complete (f s b') hcut).1⟩
    · exact ih hrest hcut b' hb'

/-- From an empty collection, an uncut step gathers exactly `P`. -/
theorem mem_iff (h : Gathers out cut P step) {s : σ} (hempty : out s = [])
    (hcut : cut (step s) = false) {x : α} : x ∈ out (step s) ↔ P x := by
  constructor
  · intro hx
    obtain hx | hP := h.sound s x hx
    · rw [hempty] at hx
      simp at hx
    · exact hP
  · exact (h.complete s hcut).2 x

theorem of_mem (h : Gathers out cut P step) {s : σ} (hempty : out s = []) {x : α}
    (hx : x ∈ out (step s)) : P x := by
  obtain hx | hP := h.sound s x hx
  · rw [hempty] at hx
    simp at hx
  · exact hP

end Gathers

/-- A loop whose rounds gather independently of the rest of the state gathers the same
from every state that agrees on what is gathered. -/
theorem foldl_out_congr {out : σ → List α} {f : σ → β → σ} {rounds : List β}
    (hround : ∀ b ∈ rounds, ∀ s t, out s = out t → out (f s b) = out (f t b)) :
    ∀ s t, out s = out t → out (rounds.foldl f s) = out (rounds.foldl f t) := by
  induction rounds with
  | nil => exact fun s t h => h
  | cons b rest ih =>
    intro s t h
    exact ih (fun b' hb' => hround b' (List.mem_cons_of_mem b hb')) (f s b) (f t b)
      (hround b List.mem_cons_self s t h)

end gathering
