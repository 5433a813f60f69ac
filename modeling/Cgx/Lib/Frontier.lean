import Cgx.Lib.Walk
import Mathlib.Data.Finset.Card

namespace walks

variable {α ε σ : Type}

/-- A frontier entry: a node to expand, its hop count and the state carried to it. -/
structure Entry (α σ : Type) where
  node : α
  depth : Nat
  carry : σ

/-- A discovery: the node, its hop count, the node and the label it was entered
through, and the state carried to it. -/
structure Found (α ε σ : Type) where
  node : α
  depth : Nat
  prev : α
  via : ε
  carry : σ

def Found.entry (f : Found α ε σ) : Entry α σ :=
  ⟨f.node, f.depth, f.carry⟩

def Entry.with_carry {τ : Type} (h : σ → τ) (e : Entry α σ) : Entry α τ :=
  ⟨e.node, e.depth, h e.carry⟩

def Found.with_carry {τ : Type} (h : σ → τ) (f : Found α ε σ) : Found α ε τ :=
  ⟨f.node, f.depth, f.prev, f.via, h f.carry⟩

/-- The entries of a frontier stand in order of depth and span at most one level. -/
def Level (d : Nat) (frontier : List (Entry α σ)) : Prop :=
  frontier.Pairwise (fun a b => a.depth ≤ b.depth) ∧
    ∀ e ∈ frontier, d ≤ e.depth ∧ e.depth ≤ d + 1

theorem Level.tail {d : Nat} {e : Entry α σ} {frontier : List (Entry α σ)}
    (h : Level d (e :: frontier)) : Level e.depth frontier := by
  obtain ⟨hsorted, hspan⟩ := h
  rw [List.pairwise_cons] at hsorted
  refine ⟨hsorted.2, fun e' he' => ?_⟩
  have hle := hsorted.1 e' he'
  have hhead := hspan e List.mem_cons_self
  have hbound := hspan e' (List.mem_cons_of_mem _ he')
  omega

theorem Level.push {d : Nat} {frontier new : List (Entry α σ)} (h : Level d frontier)
    (hnew : ∀ e ∈ new, e.depth = d + 1) : Level d (frontier ++ new) := by
  obtain ⟨hsorted, hspan⟩ := h
  refine ⟨?_, ?_⟩
  · rw [List.pairwise_append]
    refine ⟨hsorted, ?_, ?_⟩
    · rw [List.pairwise_iff_forall_sublist]
      intro a b hab
      have ha := hnew a (hab.subset (by simp))
      have hb := hnew b (hab.subset (by simp))
      omega
    · intro a ha b hb
      have hle := (hspan a ha).2
      have hdepth := hnew b hb
      omega
  · intro e he
    obtain he | he := List.mem_append.mp he
    · exact hspan e he
    · have hdepth := hnew e he
      omega

variable [DecidableEq α]

/-- The discoveries made while scanning one row of neighbours: each node not yet
seen, once, with the label it occurs under first. -/
def visit (advance : σ → ε → σ) (e : Entry α σ) : List (α × ε) → List α → List (Found α ε σ)
  | [], _ => []
  | (peer, via) :: rest, seen =>
    if peer ∈ seen then visit advance e rest seen
    else
      ⟨peer, e.depth + 1, e.node, via, advance e.carry via⟩ ::
        visit advance e rest (peer :: seen)

/-- First-in first-out frontier search. Every entry taken off the frontier is
expanded unless its neighbours lie beyond the limit. -/
def search (adj : α → List (α × ε)) (advance : σ → ε → σ) (limit : Option Nat) :
    Nat → List α → List (Entry α σ) → List (Found α ε σ)
  | 0, _, _ => []
  | _ + 1, _, [] => []
  | fuel + 1, seen, e :: frontier =>
    if within limit (e.depth + 1) then
      let new := visit advance e (adj e.node) seen
      new ++ search adj advance limit fuel (seen ++ new.map Found.node)
        (frontier ++ new.map Found.entry)
    else search adj advance limit fuel seen frontier

section visit

variable {advance : σ → ε → σ} {e : Entry α σ}

theorem visit_spec {row : List (α × ε)} {seen : List α} {f : Found α ε σ}
    (hf : f ∈ visit advance e row seen) :
    f.node ∉ seen ∧ f.depth = e.depth + 1 ∧ f.prev = e.node ∧ (f.node, f.via) ∈ row ∧
      f.carry = advance e.carry f.via := by
  induction row generalizing seen with
  | nil => simp [visit] at hf
  | cons head rest ih =>
    obtain ⟨peer, via⟩ := head
    simp only [visit] at hf
    split at hf
    · obtain ⟨hnew, hdepth, hprev, hrow, hcarry⟩ := ih hf
      exact ⟨hnew, hdepth, hprev, List.mem_cons_of_mem _ hrow, hcarry⟩
    · rename_i hpeer
      obtain rfl | hf := List.mem_cons.mp hf
      · exact ⟨hpeer, rfl, rfl, List.mem_cons_self, rfl⟩
      · obtain ⟨hnew, hdepth, hprev, hrow, hcarry⟩ := ih hf
        exact ⟨fun h => hnew (List.mem_cons_of_mem _ h), hdepth, hprev,
          List.mem_cons_of_mem _ hrow, hcarry⟩

theorem visit_covers (advance : σ → ε → σ) (e : Entry α σ) {row : List (α × ε)} (seen : List α)
    {p : α} {v : ε} (hp : (p, v) ∈ row) :
    p ∈ seen ∨ ∃ f ∈ visit advance e row seen, f.node = p := by
  induction row generalizing seen with
  | nil => simp at hp
  | cons head rest ih =>
    obtain ⟨peer, via⟩ := head
    simp only [visit]
    obtain heq | hp := List.mem_cons.mp hp
    · cases heq
      split
      · exact .inl ‹_›
      · exact .inr ⟨_, List.mem_cons_self, rfl⟩
    · split
      · exact ih seen hp
      · obtain hseen | ⟨f, hf, hnode⟩ := ih (peer :: seen) hp
        · obtain rfl | hseen := List.mem_cons.mp hseen
          · exact .inr ⟨_, List.mem_cons_self, rfl⟩
          · exact .inl hseen
        · exact .inr ⟨f, List.mem_cons_of_mem _ hf, hnode⟩

theorem visit_nodup (row : List (α × ε)) (seen : List α) :
    ((visit advance e row seen).map Found.node).Nodup := by
  induction row generalizing seen with
  | nil => simp [visit]
  | cons head rest ih =>
    obtain ⟨peer, via⟩ := head
    simp only [visit]
    split
    · exact ih seen
    · rw [List.map_cons, List.nodup_cons]
      refine ⟨?_, ih (peer :: seen)⟩
      rw [List.mem_map]
      rintro ⟨f, hf, hnode⟩
      simp only at hnode
      subst hnode
      exact (visit_spec hf).1 List.mem_cons_self

theorem visit_with_carry {τ : Type} {advance' : τ → ε → τ} {h : σ → τ}
    (hadvance : ∀ s via, h (advance s via) = advance' (h s) via) (e : Entry α σ) (row : List (α × ε))
    (seen : List α) :
    visit advance' (e.with_carry h) row seen = (visit advance e row seen).map (Found.with_carry h) := by
  induction row generalizing seen with
  | nil => rfl
  | cons head rest ih =>
    obtain ⟨peer, via⟩ := head
    simp only [visit]
    split
    · exact ih seen
    · rw [List.map_cons, ih]
      simp only [Found.with_carry, Entry.with_carry, hadvance]

end visit

section search

variable {adj : α → List (α × ε)} {advance : σ → ε → σ} {limit : Option Nat}

/-- One step along the adjacency. -/
def Adjacent (adj : α → List (α × ε)) (x y : α) : Prop :=
  ∃ via, (y, via) ∈ adj x

/-- A property of the entries that expansion hands on holds of every discovery. -/
theorem search_induction {P : Entry α σ → Prop} {fuel : Nat} {seen : List α}
    {frontier : List (Entry α σ)} (hfrontier : ∀ e ∈ frontier, P e)
    (hstep : ∀ e y via, P e → within limit (e.depth + 1) = true → (y, via) ∈ adj e.node →
      P ⟨y, e.depth + 1, advance e.carry via⟩) :
    ∀ f ∈ search adj advance limit fuel seen frontier,
      P f.entry ∧ f.node ∉ seen ∧ within limit f.depth = true ∧
        ∃ e, P e ∧ e.node = f.prev ∧ f.depth = e.depth + 1 ∧ (f.node, f.via) ∈ adj f.prev ∧
          f.carry = advance e.carry f.via := by
  induction fuel generalizing seen frontier with
  | zero => simp [search]
  | succ fuel ih =>
    cases frontier with
    | nil => simp [search]
    | cons e frontier =>
      intro f hf
      have hPe : P e := hfrontier e List.mem_cons_self
      have hPrest : ∀ e' ∈ frontier, P e' := fun e' he' => hfrontier e' (List.mem_cons_of_mem _ he')
      simp only [search] at hf
      split at hf
      · rename_i hwithin
        have hentry : ∀ g ∈ visit advance e (adj e.node) seen, P g.entry := by
          intro g hg
          obtain ⟨_, hdepth, _, hrow, hcarry⟩ := visit_spec hg
          have hP := hstep e g.node g.via hPe hwithin hrow
          rwa [← hdepth, ← hcarry] at hP
        obtain hf | hf := List.mem_append.mp hf
        · obtain ⟨hnew, hdepth, hprev, hrow, hcarry⟩ := visit_spec hf
          exact ⟨hentry f hf, hnew, hdepth ▸ hwithin, e, hPe, hprev.symm, hdepth, hprev ▸ hrow, hcarry⟩
        · have hnext : ∀ e' ∈ frontier ++ (visit advance e (adj e.node) seen).map Found.entry, P e' := by
            intro e' he'
            obtain he' | he' := List.mem_append.mp he'
            · exact hPrest e' he'
            · obtain ⟨g, hg, rfl⟩ := List.mem_map.mp he'
              exact hentry g hg
          obtain ⟨hP, hnew, hrest⟩ := ih hnext f hf
          exact ⟨hP, fun h => hnew (List.mem_append_left _ h), hrest⟩
      · exact ih hPrest f hf

/-- Every discovery ends a walk of its own hop count. -/
theorem search_sound {start : α} {carry : σ} {fuel : Nat} {f : Found α ε σ}
    (hf : f ∈ search adj advance limit fuel [start] [⟨start, 0, carry⟩]) :
    Walk (Adjacent adj) f.depth start f.node ∧ within limit f.depth = true ∧ f.node ≠ start ∧
      1 ≤ f.depth ∧ (f.node, f.via) ∈ adj f.prev := by
  have hstart : ∀ e ∈ [(⟨start, 0, carry⟩ : Entry α σ)], Walk (Adjacent adj) e.depth start e.node := by
    simpa using Walk.refl start
  have hinduct := search_induction hstart (fun e y via hwalk _ hrow => .snoc hwalk ⟨via, hrow⟩) f hf
  obtain ⟨hwalk, hnew, hwithin, e, _, _, hdepth, hrow, _⟩ := hinduct
  exact ⟨hwalk, hwithin, by simpa using hnew, by omega, hrow⟩

theorem search_depth_ge {d fuel : Nat} {seen : List α} {frontier : List (Entry α σ)}
    (hfrontier : ∀ e ∈ frontier, d ≤ e.depth) {f : Found α ε σ}
    (hf : f ∈ search adj advance limit fuel seen frontier) : d ≤ f.depth := by
  obtain ⟨hP, _⟩ := search_induction (P := fun e : Entry α σ => d ≤ e.depth) hfrontier
    (fun e _ _ he _ _ => Nat.le_succ_of_le he) f hf
  exact hP

/-- How many nodes of `all` have not been seen. -/
def unseen (all : Finset α) (seen : List α) : Nat :=
  (all \ seen.toFinset).card

theorem unseen_visit_le (advance : σ → ε → σ) {all : Finset α} {e : Entry α σ}
    (hadj : ∀ y via, (y, via) ∈ adj e.node → y ∈ all) (seen : List α) :
    unseen all (seen ++ (visit advance e (adj e.node) seen).map Found.node) +
      (visit advance e (adj e.node) seen).length ≤ unseen all seen := by
  set new := visit advance e (adj e.node) seen with hnew
  have hsub : (new.map Found.node).toFinset ⊆ all \ seen.toFinset := by
    intro y hy
    rw [List.mem_toFinset, List.mem_map] at hy
    obtain ⟨f, hf, rfl⟩ := hy
    obtain ⟨hfresh, _, _, hrow, _⟩ := visit_spec hf
    rw [Finset.mem_sdiff, List.mem_toFinset]
    exact ⟨hadj _ _ hrow, hfresh⟩
  have hcard : (new.map Found.node).toFinset.card = new.length := by
    rw [List.toFinset_card_of_nodup (visit_nodup _ _), List.length_map]
  have hsplit : all \ (seen ++ new.map Found.node).toFinset =
      (all \ seen.toFinset) \ (new.map Found.node).toFinset := by
    rw [List.toFinset_append, sdiff_sdiff_left]
    rfl
  have hle := Finset.card_le_card hsub
  rw [unseen, unseen, hsplit, Finset.card_sdiff_of_subset hsub, hcard]
  omega

/-- With enough fuel every node adjacent to an expanded entry is seen already, or
discovered at most one hop deeper. -/
theorem search_closed {all : Finset α}
    (hadj : ∀ x y via, (y, via) ∈ adj x → y ∈ all) {fuel d : Nat} {seen : List α}
    {frontier : List (Entry α σ)} (hfuel : frontier.length + unseen all seen ≤ fuel)
    (hlevel : Level d frontier) {x y : α} {dx : Nat}
    (hx : (∃ e ∈ frontier, e.node = x ∧ e.depth = dx) ∨
      ∃ f ∈ search adj advance limit fuel seen frontier, f.node = x ∧ f.depth = dx)
    (hwithin : within limit (dx + 1) = true) (hxy : Adjacent adj x y) :
    y ∈ seen ∨ ∃ f ∈ search adj advance limit fuel seen frontier, f.node = y ∧ f.depth ≤ dx + 1 := by
  induction fuel generalizing d seen frontier with
  | zero =>
    have hnil : frontier = [] := List.length_eq_zero_iff.mp (by omega)
    subst hnil
    simp [search] at hx
  | succ fuel ih =>
    cases frontier with
    | nil => simp [search] at hx
    | cons e frontier =>
      have htail := hlevel.tail
      simp only [search] at hx ⊢
      split
      · rename_i hexpand
        rw [if_pos hexpand] at hx
        set new := visit advance e (adj e.node) seen with hnewdef
        have hdepths : ∀ e' ∈ new.map Found.entry, e'.depth = e.depth + 1 := by
          intro e' he'
          obtain ⟨g, hg, rfl⟩ := List.mem_map.mp he'
          exact (visit_spec hg).2.1
        have hunseen := unseen_visit_le advance (hadj e.node) seen
        rw [← hnewdef] at hunseen
        have hfuel' : (frontier ++ new.map Found.entry).length +
            unseen all (seen ++ new.map Found.node) ≤ fuel := by
          simp only [List.length_append, List.length_map, List.length_cons] at hfuel ⊢
          omega
        by_cases hhead : e.node = x ∧ e.depth = dx
        · -- the head entry itself is expanded: its row is scanned here
          obtain ⟨rfl, rfl⟩ := hhead
          obtain ⟨via, hrow⟩ := hxy
          obtain hseen | ⟨f, hf, hnode⟩ := visit_covers advance e seen hrow
          · exact .inl hseen
          · exact .inr ⟨f, List.mem_append_left _ hf, hnode, (visit_spec hf).2.1.le⟩
        · have hx' : (∃ e' ∈ frontier ++ new.map Found.entry, e'.node = x ∧ e'.depth = dx) ∨
              ∃ f ∈ search adj advance limit fuel (seen ++ new.map Found.node)
                (frontier ++ new.map Found.entry), f.node = x ∧ f.depth = dx := by
            obtain ⟨e', he', hxe⟩ | ⟨f, hf, hxf⟩ := hx
            · obtain rfl | he' := List.mem_cons.mp he'
              · exact absurd hxe hhead
              · exact .inl ⟨e', List.mem_append_left _ he', hxe⟩
            · obtain hf | hf := List.mem_append.mp hf
              · exact .inl ⟨f.entry, List.mem_append_right _ (List.mem_map_of_mem hf), hxf⟩
              · exact .inr ⟨f, hf, hxf⟩
          have hdx : e.depth ≤ dx := by
            obtain ⟨e', he', _, rfl⟩ | ⟨f, hf, _, rfl⟩ := hx'
            · exact ((htail.push hdepths).2 e' he').1
            · exact search_depth_ge (fun e' he' => ((htail.push hdepths).2 e' he').1) hf
          obtain hseen | ⟨f, hf, hyf⟩ := ih hfuel' (htail.push hdepths) hx'
          · obtain hseen | hseen := List.mem_append.mp hseen
            · exact .inl hseen
            · obtain ⟨f, hf, hnode⟩ := List.mem_map.mp hseen
              have hdepth := (visit_spec hf).2.1
              exact .inr ⟨f, List.mem_append_left _ hf, hnode, by omega⟩
          · exact .inr ⟨f, List.mem_append_right _ hf, hyf⟩
      · rename_i hexpand
        rw [if_neg hexpand] at hx
        have hfuel' : frontier.length + unseen all seen ≤ fuel := by
          simp only [List.length_cons] at hfuel
          omega
        refine ih hfuel' htail ?_
        obtain ⟨e', he', hnode, hdepth⟩ | hx := hx
        · obtain rfl | he' := List.mem_cons.mp he'
          · rw [hdepth] at hexpand
            exact absurd hwithin hexpand
          · exact .inl ⟨e', he', hnode, hdepth⟩
        · exact .inr hx

/-- A walk within the limit ends at the start or at a discovery no deeper than it. -/
theorem search_complete {all : Finset α}
    (hadj : ∀ x y via, (y, via) ∈ adj x → y ∈ all) {start : α} {carry : σ} {fuel : Nat}
    (hfuel : all.card + 1 ≤ fuel) {k : Nat} {y : α}
    (hwalk : Walk (Adjacent adj) k start y) (hk : within limit k = true) :
    y = start ∨ ∃ f ∈ search adj advance limit fuel [start] [⟨start, 0, carry⟩],
      f.node = y ∧ f.depth ≤ k := by
  have hunseen : unseen all [start] ≤ all.card :=
    Finset.card_le_card Finset.sdiff_subset
  have hfuel' : [(⟨start, 0, carry⟩ : Entry α σ)].length + unseen all [start] ≤ fuel := by
    simp only [List.length_singleton]
    omega
  have hlevel : Level 0 [(⟨start, 0, carry⟩ : Entry α σ)] := by simp [Level]
  induction k generalizing y with
  | zero => exact .inl (Walk.zero_iff.mp hwalk).symm
  | succ k ih =>
    obtain ⟨x, hx, hxy⟩ := Walk.succ_iff.mp hwalk
    -- the last but one node is an entry of its own, at some depth `dx ≤ k`
    obtain ⟨dx, hdx, hentry⟩ : ∃ dx ≤ k, (∃ e ∈ [(⟨start, 0, carry⟩ : Entry α σ)],
        e.node = x ∧ e.depth = dx) ∨ ∃ f ∈ search adj advance limit fuel [start] [⟨start, 0, carry⟩],
        f.node = x ∧ f.depth = dx := by
      obtain rfl | ⟨f, hf, hnode, hdepth⟩ := ih hx (within_of_le (Nat.le_succ k) hk)
      · exact ⟨0, Nat.zero_le k, .inl ⟨_, List.mem_singleton_self _, rfl, rfl⟩⟩
      · exact ⟨f.depth, hdepth, .inr ⟨f, hf, hnode, rfl⟩⟩
    have hwithin : within limit (dx + 1) = true := within_of_le (by omega) hk
    obtain hseen | ⟨f, hf, hnode, hdepth⟩ := search_closed hadj hfuel' hlevel hentry hwithin hxy
    · exact .inl (List.mem_singleton.mp hseen)
    · exact .inr ⟨f, hf, hnode, by omega⟩

/-- What is carried does not steer the search: an image of the carried state gives the
image of the search. -/
theorem search_with_carry {τ : Type} {advance' : τ → ε → τ} {h : σ → τ}
    (hadvance : ∀ s via, h (advance s via) = advance' (h s) via) (fuel : Nat) (seen : List α)
    (frontier : List (Entry α σ)) :
    search adj advance' limit fuel seen (frontier.map (Entry.with_carry h)) =
      (search adj advance limit fuel seen frontier).map (Found.with_carry h) := by
  induction fuel generalizing seen frontier with
  | zero => rfl
  | succ fuel ih =>
    cases frontier with
    | nil => rfl
    | cons e frontier =>
      have hvisit := visit_with_carry hadvance e (adj e.node) seen
      have hnodes : ((visit advance e (adj e.node) seen).map (Found.with_carry h)).map Found.node =
          (visit advance e (adj e.node) seen).map Found.node := by
        rw [List.map_map]
        rfl
      have hentries : ((visit advance e (adj e.node) seen).map (Found.with_carry h)).map Found.entry =
          ((visit advance e (adj e.node) seen).map Found.entry).map (Entry.with_carry h) := by
        rw [List.map_map, List.map_map]
        rfl
      simp only [search, List.map_cons]
      show (if within limit (e.depth + 1) then _ else _) = _
      split
      · rw [show (Entry.with_carry h e).node = e.node from rfl, hvisit, hnodes, hentries, ← List.map_append, ih,
          List.map_append]
      · exact ih seen frontier

/-- A discovery was entered from an entry of the frontier or from another discovery. -/
theorem search_prev {fuel : Nat} {seen : List α} {frontier : List (Entry α σ)} {f : Found α ε σ}
    (hf : f ∈ search adj advance limit fuel seen frontier) :
    ∃ e, (e ∈ frontier ∨ ∃ g ∈ search adj advance limit fuel seen frontier, g.entry = e) ∧ e.node = f.prev ∧
      f.depth = e.depth + 1 ∧ (f.node, f.via) ∈ adj f.prev ∧ f.carry = advance e.carry f.via := by
  induction fuel generalizing seen frontier with
  | zero => simp [search] at hf
  | succ fuel ih =>
    cases frontier with
    | nil => simp [search] at hf
    | cons e frontier =>
      simp only [search] at hf ⊢
      split at hf
      · rename_i hwithin
        rw [if_pos hwithin]
        obtain hf | hf := List.mem_append.mp hf
        · obtain ⟨_, hdepth, hprev, hrow, hcarry⟩ := visit_spec hf
          exact ⟨e, .inl List.mem_cons_self, hprev.symm, hdepth, hprev ▸ hrow, hcarry⟩
        · obtain ⟨e', hentry, hspec⟩ := ih hf
          refine ⟨e', ?_, hspec⟩
          obtain hmem | ⟨g, hg, hentry⟩ := hentry
          · obtain hmem | hmem := List.mem_append.mp hmem
            · exact .inl (List.mem_cons_of_mem _ hmem)
            · obtain ⟨g, hg, hentry⟩ := List.mem_map.mp hmem
              exact .inr ⟨g, List.mem_append_left _ hg, hentry⟩
          · exact .inr ⟨g, List.mem_append_right _ hg, hentry⟩
      · rename_i hwithin
        rw [if_neg hwithin]
        obtain ⟨e', hentry, hspec⟩ := ih hf
        exact ⟨e', hentry.imp_left (List.mem_cons_of_mem _), hspec⟩

theorem search_nodup {fuel : Nat} {seen : List α} {frontier : List (Entry α σ)} :
    ((search adj advance limit fuel seen frontier).map Found.node).Nodup := by
  induction fuel generalizing seen frontier with
  | zero => simp [search]
  | succ fuel ih =>
    cases frontier with
    | nil => simp [search]
    | cons e frontier =>
      simp only [search]
      split
      · rw [List.map_append, List.nodup_append']
        refine ⟨visit_nodup _ _, ih, ?_⟩
        intro y hy hlater
        obtain ⟨g, hg, rfl⟩ := List.mem_map.mp hlater
        have hnew := (search_induction (P := fun _ => True) (fun _ _ => trivial)
          (fun _ _ _ _ _ _ => trivial) g hg).2.1
        exact hnew (List.mem_append_right _ hy)
      · exact ih

/-- The predecessors of a discovery lie at every lower depth, so no discovery is deeper
than there are discoveries. -/
theorem search_depth_le {start : α} {carry : σ} {fuel : Nat} {f : Found α ε σ}
    (hf : f ∈ search adj advance limit fuel [start] [⟨start, 0, carry⟩]) :
    f.depth ≤ (search adj advance limit fuel [start] [⟨start, 0, carry⟩]).length := by
  set found := search adj advance limit fuel [start] [⟨start, 0, carry⟩] with hfound
  have hchain : ∀ k, ∀ g ∈ found, g.depth = k + 1 → List.range' 1 (k + 1) ⊆ found.map Found.depth := by
    intro k
    induction k with
    | zero =>
      intro g hg hdepth
      rw [show List.range' 1 (0 + 1) = [g.depth] by rw [hdepth]; rfl]
      exact List.cons_subset.mpr ⟨List.mem_map_of_mem hg, List.nil_subset _⟩
    | succ k ih =>
      intro g hg hdepth
      obtain ⟨e, hentry, _, he, _⟩ := search_prev hg
      obtain hstart | ⟨g', hg', hentry⟩ := hentry
      · rw [List.mem_singleton.mp hstart] at he
        simp only at he
        omega
      · have hg'depth : g'.depth = k + 1 := by
          rw [← hentry] at he
          simp only [Found.entry] at he
          omega
        rw [List.range'_concat]
        refine List.append_subset.mpr ⟨ih g' hg' hg'depth, ?_⟩
        rw [show 1 + 1 * (k + 1) = g.depth by omega]
        exact List.cons_subset.mpr ⟨List.mem_map_of_mem hg, List.nil_subset _⟩
  have hdepth := (search_sound hf).2.2.2.1
  have hsub := hchain (f.depth - 1) f hf (by omega)
  have hnodup : (List.range' 1 (f.depth - 1 + 1)).Nodup := List.nodup_range'
  have hle := (List.subperm_of_subset hnodup hsub).length_le
  rw [List.length_range', List.length_map] at hle
  omega

/-- A node is discovered at the hop count of its shortest walks. -/
theorem search_shortest {all : Finset α}
    (hadj : ∀ x y via, (y, via) ∈ adj x → y ∈ all) {start : α} {carry : σ} {fuel : Nat}
    (hfuel : all.card + 1 ≤ fuel) {f : Found α ε σ}
    (hf : f ∈ search adj advance limit fuel [start] [⟨start, 0, carry⟩]) :
    Shortest (Adjacent adj) f.depth start f.node := by
  obtain ⟨hwalk, hwithin, hne, _, _⟩ := search_sound hf
  refine ⟨hwalk, fun k hk => ?_⟩
  by_cases hlimit : within limit k = true
  · obtain hstart | ⟨g, hg, hnode, hdepth⟩ := search_complete hadj hfuel hk hlimit
    · exact absurd hstart hne
    · have hsame : g = f := List.inj_on_of_nodup_map search_nodup hg hf hnode
      rwa [hsame] at hdepth
  · by_contra hlt
    exact hlimit (within_of_le (by omega) hwithin)

/-- What a search from `start` discovers: exactly the other nodes reached within
the limit. -/
theorem mem_search_iff {all : Finset α}
    (hadj : ∀ x y via, (y, via) ∈ adj x → y ∈ all) {start : α} {carry : σ} {fuel : Nat}
    (hfuel : all.card + 1 ≤ fuel) {y : α} :
    (∃ f ∈ search adj advance limit fuel [start] [⟨start, 0, carry⟩], f.node = y) ↔
      y ≠ start ∧ ReachedWithin (Adjacent adj) limit start y := by
  constructor
  · rintro ⟨f, hf, rfl⟩
    obtain ⟨hwalk, hwithin, hne, _, _⟩ := search_sound hf
    exact ⟨hne, f.depth, hwithin, hwalk⟩
  · rintro ⟨hne, k, hk, hwalk⟩
    obtain rfl | ⟨f, hf, hnode, _⟩ := search_complete hadj hfuel hwalk hk
    · exact absurd rfl hne
    · exact ⟨f, hf, hnode⟩

end search

end walks
