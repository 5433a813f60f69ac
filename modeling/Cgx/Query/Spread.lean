import Mathlib.Logic.Relation
import Cgx.Query.Honesty
import Cgx.Query.Impacted

open cgx.core walks sorting

namespace cgx.query.impacted

open cgx.query.FrontierFacts (when_positive)

/-- One step of the answer: an admitted edge taken backwards, or from a lambda to the
symbol that encloses it. -/
def Spreads (view : GraphView) (walker : PathWalker) (x y : NodeId) : Prop :=
  walker.Follows view .Backward x y ∨ owner view x = some y

/-- What some number of steps from a changed symbol leads to. -/
def Impacted (view : GraphView) (walker : PathWalker) (changed : List NodeId) (y : NodeId) : Prop :=
  ∃ s ∈ seeds view changed, Relation.ReflTransGen (Spreads view walker) s y

variable {view : GraphView} {walker : PathWalker} {changed : List NodeId}

theorem mem_seeds {n : NodeId} : n ∈ seeds view changed ↔ n ∈ changed ∧ n.index < view.node_count := by
  unfold seeds
  rw [List.mem_dedup, mem_sort_by, List.mem_filter, decide_eq_true_eq]

theorem owner_range {x y : NodeId} (h : owner view x = some y) : y.index < view.node_count := by
  unfold owner at h
  split at h
  · cases h
  · obtain ⟨fqn, _, hfind⟩ := Option.bind_eq_some_iff.mp h
    obtain ⟨record, hrecord, rfl⟩ := Option.map_eq_some_iff.mp hfind
    exact (GraphView.node_of_mem (List.mem_of_find?_eq_some hrecord)).1

theorem Impacted.follow {x y : NodeId} {limit : Option Nat} (hx : Impacted view walker changed x)
    (h : ReachedWithin (walker.Follows view .Backward) limit x y) : Impacted view walker changed y := by
  obtain ⟨s, hs, hsteps⟩ := hx
  obtain ⟨_, _, hwalk⟩ := h
  refine ⟨s, hs, ?_⟩
  exact hwalk.mem_of_closed (M := Relation.ReflTransGen (Spreads view walker) s)
    (fun _ _ hstep hnext => hstep.tail (.inl hnext)) hsteps

theorem Impacted.lift {x y : NodeId} (hx : Impacted view walker changed x) (h : owner view x = some y) :
    Impacted view walker changed y := by
  obtain ⟨s, hs, hsteps⟩ := hx
  exact ⟨s, hs, hsteps.tail (.inr h)⟩

/-- A set that holds the changed symbols and is closed under the steps holds all that
is impacted. -/
theorem Impacted.mem_of_closed {M : NodeId → Prop} {y : NodeId} (h : Impacted view walker changed y)
    (hseeds : ∀ s ∈ seeds view changed, M s) (hclosed : ∀ x z, M x → Spreads view walker x z → M z) :
    M y := by
  obtain ⟨s, hs, hsteps⟩ := h
  induction hsteps with
  | refl => exact hseeds s hs
  | tail _ hstep ih => exact hclosed _ _ ih hstep

theorem Spreads.unrestricted {x y : NodeId} (h : Spreads view walker x y) :
    Spreads view walker.unrestricted x y := by
  cases h with
  | inl hfollows => exact .inl (follows_unrestricted hfollows)
  | inr howner => exact .inr howner

theorem Impacted.unrestricted {y : NodeId} (h : Impacted view walker changed y) :
    Impacted view walker.unrestricted changed y := by
  obtain ⟨s, hs, hsteps⟩ := h
  exact ⟨s, hs, hsteps.lift id fun _ _ => Spreads.unrestricted⟩

namespace Marks

/-- The marks while the roots `todo` wait and the owners of the nodes `fresh` have not
been looked up. -/
structure Spreading (view : GraphView) (walker : PathWalker) (changed todo fresh : List NodeId)
    (m : Marks) : Prop where
  range : ∀ x ∈ m.reached, x.index < view.node_count
  seeded : ∀ s ∈ seeds view changed, s ∈ m.reached
  sound : ∀ x ∈ m.reached, Impacted view walker changed x
  waiting : ∀ r ∈ todo, r ∈ m.reached
  pending : ∀ x ∈ fresh, x ∈ m.reached
  expanded : ∀ r ∈ m.expanded, r ∈ m.reached ∧
    ∀ y, ReachedWithin (walker.Follows view .Backward) walker.limit r y → y ∈ m.reached
  walked : ∀ y ∈ m.walk_reached, ∃ r ∈ m.expanded,
    ReachedWithin (walker.Follows view .Backward) walker.limit r y
  rooted : ∀ x ∈ m.reached, x ∈ todo ∨ x ∈ m.expanded ∨ x ∈ m.walk_reached
  lifted : ∀ x ∈ m.reached, x ∉ fresh → ∀ y, owner view x = some y → y ∈ m.reached

/-- What recording discoveries does to the marks. -/
structure Discovers (view : GraphView) (m : Marks) (ds : List Discovered) (m' : Marks) : Prop where
  reached : ∀ x, x ∈ m'.reached ↔ x ∈ m.reached ∨ ∃ d ∈ ds, d.node = x ∧ x.index < view.node_count
  expanded : m'.expanded = m.expanded
  walk_of : ∀ x ∈ m'.walk_reached, x ∈ m.walk_reached ∨ ∃ d ∈ ds, d.node = x
  walk_mono : ∀ x ∈ m.walk_reached, x ∈ m'.walk_reached
  new : ∀ x ∈ m'.reached, x ∈ m.reached ∨ x ∈ m'.walk_reached ∧ x ∈ m'.round_new
  fresh_mono : ∀ x ∈ m.round_new, x ∈ m'.round_new
  fresh_of : ∀ x ∈ m'.round_new, x ∈ m.round_new ∨ x ∈ m'.reached

theorem discover_spec (view : GraphView) (m : Marks) (d : Discovered) : Discovers view m [d] (discover view m d) := by
  unfold discover
  split
  · rename_i hold
    refine ⟨fun x => ⟨.inl, ?_⟩, rfl, fun _ => .inl, fun _ => id, fun _ => .inl, fun _ => id,
      fun _ => .inl⟩
    rintro (hx | ⟨d', hd', rfl, hrange⟩)
    · exact hx
    · rw [List.mem_singleton.mp hd'] at hrange ⊢
      exact hold.resolve_left (Nat.not_le_of_lt hrange)
  · rename_i hnew
    push Not at hnew
    refine ⟨fun x => ?_, rfl, fun x hx => ?_, fun _ => List.mem_cons_of_mem _, fun x hx => ?_,
      fun _ => List.mem_append_left _, fun x hx => ?_⟩
    · simp only [List.mem_cons, List.not_mem_nil, or_false, exists_eq_left]
      constructor
      · rintro (rfl | hx)
        · exact .inr ⟨rfl, hnew.1⟩
        · exact .inl hx
      · rintro (hx | ⟨rfl, _⟩)
        · exact .inr hx
        · exact .inl rfl
    · obtain rfl | hx := List.mem_cons.mp hx
      · exact .inr ⟨d, List.mem_singleton_self d, rfl⟩
      · exact .inl hx
    · obtain rfl | hx := List.mem_cons.mp hx
      · exact .inr ⟨List.mem_cons_self, List.mem_append_right _ (List.mem_singleton_self _)⟩
      · exact .inl hx
    · obtain hx | hx := List.mem_append.mp hx
      · exact .inl hx
      · rw [List.mem_singleton.mp hx]
        exact .inr List.mem_cons_self

theorem foldl_discover_spec (view : GraphView) (ds : List Discovered) (m : Marks) :
    Discovers view m ds (ds.foldl (discover view) m) := by
  induction ds generalizing m with
  | nil => exact ⟨by simp, rfl, fun _ => .inl, fun _ => id, fun _ => .inl, fun _ => id, fun _ => .inl⟩
  | cons d ds ih =>
    have hstep := discover_spec view m d
    have hrest := ih (discover view m d)
    rw [List.foldl_cons]
    refine ⟨fun x => ?_, hrest.expanded.trans hstep.expanded, fun x hx => ?_,
      fun x hx => hrest.walk_mono x (hstep.walk_mono x hx), fun x hx => ?_,
      fun x hx => hrest.fresh_mono x (hstep.fresh_mono x hx), fun x hx => ?_⟩
    · rw [hrest.reached, hstep.reached]
      simp only [List.mem_cons, List.not_mem_nil, or_false, exists_eq_left, or_assoc, exists_eq_or_imp]
    · obtain hx | ⟨d', hd', rfl⟩ := hrest.walk_of x hx
      · obtain hx | ⟨d', hd', rfl⟩ := hstep.walk_of x hx
        · exact .inl hx
        · exact .inr ⟨d', List.mem_cons.mpr (.inl (List.mem_singleton.mp hd')), rfl⟩
      · exact .inr ⟨d', List.mem_cons_of_mem _ hd', rfl⟩
    · obtain hx | hx := hrest.new x hx
      · obtain hx | ⟨hwalk, hfresh⟩ := hstep.new x hx
        · exact .inl hx
        · exact .inr ⟨hrest.walk_mono x hwalk, hrest.fresh_mono x hfresh⟩
      · exact .inr hx
    · obtain hx | hx := hrest.fresh_of x hx
      · obtain hx | hx := hstep.fresh_of x hx
        · exact .inl hx
        · exact .inr ((hrest.reached x).mpr (.inl hx))
      · exact .inr hx

/-- Expanding a root takes it off the waiting ones. -/
theorem Spreading.expand_root {todo : List NodeId} {m : Marks} {r : NodeId}
    (h : Spreading view walker changed (r :: todo) m.round_new m) :
    Spreading view walker changed todo (expand_root view walker m r).round_new
      (expand_root view walker m r) := by
  have hr := h.waiting r List.mem_cons_self
  unfold Marks.expand_root
  split
  · rename_i hskip
    have hold : r ∈ m.expanded ∨ r ∈ m.walk_reached := by
      obtain hrange | hexpanded | ⟨_, hwalked⟩ := hskip
      · exact absurd (h.range r hr) (Nat.not_lt_of_le hrange)
      · exact .inl hexpanded
      · exact .inr hwalked
    refine { h with
      waiting := fun x hx => h.waiting x (List.mem_cons_of_mem _ hx)
      rooted := fun x hx => ?_ }
    obtain htodo | hdone := h.rooted x hx
    · obtain rfl | htodo := List.mem_cons.mp htodo
      · exact .inr hold
      · exact .inl htodo
    · exact .inr hdone
  · set start : Marks := { m with expanded := r :: m.expanded }
    have hspec := foldl_discover_spec view (walker.bfs view r .Backward) start
    set m' := (walker.bfs view r .Backward).foldl (discover view) start
    have hmono : ∀ x ∈ m.reached, x ∈ m'.reached := fun x hx => (hspec.reached x).mpr (.inl hx)
    have hbfs : ∀ d ∈ walker.bfs view r .Backward,
        ReachedWithin (walker.Follows view .Backward) walker.limit r d.node := by
      intro d hd
      obtain ⟨hwalk, hwithin, _, _⟩ := PathWalker.bfs_sound hd
      exact ⟨d.depth, hwithin, hwalk⟩
    refine ⟨fun x hx => ?_, fun s hs => hmono s (h.seeded s hs), fun x hx => ?_,
      fun x hx => hmono x (h.waiting x (List.mem_cons_of_mem _ hx)), fun x hx => ?_, fun x hx => ?_,
      fun x hx => ?_, fun x hx => ?_, fun x hx hfresh y hy => ?_⟩
    · obtain hx | ⟨_, _, _, hrange⟩ := (hspec.reached x).mp hx
      · exact h.range x hx
      · exact hrange
    · obtain hx | ⟨d, hd, rfl, _⟩ := (hspec.reached x).mp hx
      · exact h.sound x hx
      · exact (h.sound r hr).follow (hbfs d hd)
    · obtain hx | hx := hspec.fresh_of x hx
      · exact hmono x (h.pending x hx)
      · exact hx
    · rw [hspec.expanded] at hx
      obtain rfl | hx := List.mem_cons.mp hx
      · refine ⟨hmono x hr, fun y hy => ?_⟩
        by_cases hne : y = x
        · exact hne ▸ hmono x hr
        · obtain ⟨d, hd, rfl⟩ := PathWalker.mem_bfs_iff.mpr ⟨hne, hy⟩
          exact (hspec.reached _).mpr (.inr ⟨d, hd, rfl, (PathWalker.bfs_sound hd).2.2.2⟩)
      · exact ⟨hmono x (h.expanded x hx).1, fun y hy => hmono y ((h.expanded x hx).2 y hy)⟩
    · rw [hspec.expanded]
      obtain hx | ⟨d, hd, rfl⟩ := hspec.walk_of x hx
      · obtain ⟨r', hr', hreached⟩ := h.walked x hx
        exact ⟨r', List.mem_cons_of_mem _ hr', hreached⟩
      · exact ⟨r, List.mem_cons_self, hbfs d hd⟩
    · rw [hspec.expanded]
      obtain hx | ⟨hwalk, _⟩ := hspec.new x hx
      · obtain htodo | hexpanded | hwalk := h.rooted x hx
        · obtain rfl | htodo := List.mem_cons.mp htodo
          · exact .inr (.inl List.mem_cons_self)
          · exact .inl htodo
        · exact .inr (.inl (List.mem_cons_of_mem _ hexpanded))
        · exact .inr (.inr (hspec.walk_mono x hwalk))
      · exact .inr (.inr hwalk)
    · obtain hx | ⟨_, hnew⟩ := hspec.new x hx
      · exact hmono y (h.lifted x hx (fun hold => hfresh (hspec.fresh_mono x hold)) y hy)
      · exact absurd hnew hfresh

theorem expand_root_mono (m : Marks) (r : NodeId) : ∀ x ∈ m.reached,
    x ∈ (Marks.expand_root view walker m r).reached := by
  intro x hx
  unfold Marks.expand_root
  split
  · exact hx
  · exact ((foldl_discover_spec view _ _).reached x).mpr (.inl hx)

/-- Expanding the worklist leaves no root waiting. -/
theorem Spreading.expand_all {todo : List NodeId} {m : Marks}
    (h : Spreading view walker changed todo m.round_new m) :
    Spreading view walker changed [] (todo.foldl (Marks.expand_root view walker) m).round_new
        (todo.foldl (Marks.expand_root view walker) m) ∧
      ∀ x ∈ m.reached, x ∈ (todo.foldl (Marks.expand_root view walker) m).reached := by
  induction todo generalizing m with
  | nil => exact ⟨h, fun _ => id⟩
  | cons r todo ih =>
    obtain ⟨hall, hmono⟩ := ih h.expand_root
    exact ⟨hall, fun x hx => hmono x (expand_root_mono m r x hx)⟩

/-- What lifting from the nodes `xs` does to the marks and to the new roots. -/
structure Lifted (view : GraphView) (acc : Marks × List NodeId) (xs : List NodeId)
    (acc' : Marks × List NodeId) : Prop where
  reached : ∀ y, y ∈ acc'.1.reached ↔ y ∈ acc.1.reached ∨ ∃ x ∈ xs, owner view x = some y
  expanded : acc'.1.expanded = acc.1.expanded
  walk_reached : acc'.1.walk_reached = acc.1.walk_reached
  next : ∀ y, y ∈ acc'.2 ↔ y ∈ acc.2 ∨ y ∈ acc'.1.reached ∧ y ∉ acc.1.reached

theorem lift_spec (view : GraphView) (acc : Marks × List NodeId) (x : NodeId) : Lifted view acc [x] (lift view acc x) := by
  unfold lift
  cases howner : owner view x with
  | none => exact ⟨by simp [howner], rfl, rfl, by simp⟩
  | some o =>
    have hrange := owner_range howner
    simp only []
    split
    · rename_i hold
      have ho := hold.resolve_left (Nat.not_le_of_lt hrange)
      refine ⟨fun y => ⟨.inl, ?_⟩, rfl, rfl, by simp⟩
      rintro (hy | ⟨x', hx', hy⟩)
      · exact hy
      · rw [List.mem_singleton.mp hx', howner, Option.some.injEq] at hy
        exact hy ▸ ho
    · rename_i hnew
      push Not at hnew
      refine ⟨fun y => ?_, rfl, rfl, fun y => ?_⟩
      · simp only [List.mem_cons, List.not_mem_nil, or_false, exists_eq_left, howner, Option.some.injEq]
        rw [or_comm, eq_comm]
      · simp only [List.mem_cons]
        constructor
        · rintro (rfl | hy)
          · exact .inr ⟨.inl rfl, hnew.2⟩
          · exact .inl hy
        · rintro (hy | ⟨hy | hy, hfresh⟩)
          · exact .inr hy
          · exact .inl hy
          · exact absurd hy hfresh

theorem foldl_lift_spec (view : GraphView) (xs : List NodeId) (acc : Marks × List NodeId) :
    Lifted view acc xs (xs.foldl (lift view) acc) := by
  induction xs generalizing acc with
  | nil => exact ⟨by simp, rfl, rfl, by simp⟩
  | cons x xs ih =>
    have hstep := lift_spec view acc x
    have hrest := ih (lift view acc x)
    rw [List.foldl_cons]
    refine ⟨fun y => ?_, hrest.expanded.trans hstep.expanded,
      hrest.walk_reached.trans hstep.walk_reached, fun y => ?_⟩
    · rw [hrest.reached, hstep.reached]
      simp only [List.mem_cons, List.not_mem_nil, or_false, exists_eq_left, or_assoc, exists_eq_or_imp]
    · rw [hrest.next, hstep.next]
      have hmono := hrest.reached y
      by_cases hold : y ∈ acc.1.reached <;> by_cases hmid : y ∈ (lift view acc x).1.reached
      · simp [hold, hmid]
      · exact absurd ((hstep.reached y).mpr (.inl hold)) hmid
      · simp [hold, hmid, hmono.mpr (.inl hmid)]
      · simp [hold, hmid]

/-- A round keeps what the marks say, with the lifted symbols as the new roots. -/
theorem Spreading.round {todo : List NodeId} {m : Marks}
    (h : Spreading view walker changed todo m.round_new m) :
    Spreading view walker changed (round view walker todo m).2 (round view walker todo m).2
        (round view walker todo m).1 ∧
      (∀ x ∈ m.reached, x ∈ (round view walker todo m).1.reached) ∧
      ∀ x ∈ (round view walker todo m).2, x ∈ (round view walker todo m).1.reached ∧ x ∉ m.reached := by
  obtain ⟨hwalked, hmono⟩ := h.expand_all
  have hspec := foldl_lift_spec view
    (sort_by id_cmp (todo.foldl (Marks.expand_root view walker) m).round_new)
    (todo.foldl (Marks.expand_root view walker) m, [])
  unfold Marks.round
  simp only []
  set walked := todo.foldl (Marks.expand_root view walker) m
  set result := (sort_by id_cmp walked.round_new).foldl (lift view) (walked, [])
  have hold : ∀ x ∈ walked.reached, x ∈ result.1.reached := fun x hx => (hspec.reached x).mpr (.inl hx)
  have hnext : ∀ x, x ∈ result.2 ↔ x ∈ result.1.reached ∧ x ∉ walked.reached := by
    intro x
    rw [hspec.next]
    simp
  have hsound : ∀ x ∈ result.1.reached, x.index < view.node_count ∧ Impacted view walker changed x := by
    intro x hx
    obtain hx | ⟨l, hl, howner⟩ := (hspec.reached x).mp hx
    · exact ⟨hwalked.range x hx, hwalked.sound x hx⟩
    · have hl := hwalked.pending l (mem_sort_by.mp hl)
      exact ⟨owner_range howner, (hwalked.sound l hl).lift howner⟩
  refine ⟨⟨fun x hx => (hsound x hx).1, fun s hs => hold s (hwalked.seeded s hs),
    fun x hx => (hsound x hx).2, fun x hx => ((hnext x).mp hx).1, fun x hx => ((hnext x).mp hx).1,
    fun x hx => ?_, fun x hx => ?_, fun x hx => ?_, fun x hx hfresh y hy => ?_⟩,
    fun x hx => hold x (hmono x hx), fun x hx => ?_⟩
  · rw [hspec.expanded] at hx
    exact ⟨hold x (hwalked.expanded x hx).1, fun y hy => hold y ((hwalked.expanded x hx).2 y hy)⟩
  · rw [hspec.walk_reached] at hx
    rw [hspec.expanded]
    exact hwalked.walked x hx
  · rw [hnext, hspec.expanded, hspec.walk_reached]
    by_cases hwas : x ∈ walked.reached
    · exact .inr ((hwalked.rooted x hwas).resolve_left (List.not_mem_nil))
    · exact .inl ⟨hx, hwas⟩
  · have hwas : x ∈ walked.reached := by
      by_contra hnot
      exact hfresh ((hnext x).mpr ⟨hx, hnot⟩)
    by_cases hnew : x ∈ walked.round_new
    · exact (hspec.reached y).mpr (.inr ⟨x, mem_sort_by.mpr hnew, hy⟩)
    · exact hold y (hwalked.lifted x hwas hnew y hy)
  · obtain ⟨hin, hnot⟩ := (hnext x).mp hx
    exact ⟨hin, fun hm => hnot (hmono x hm)⟩

/-- The marks with which the next round begins: the lifted symbols wait in id order. -/
def next_round (view : GraphView) (walker : PathWalker) (todo : List NodeId) (m : Marks) : Marks :=
  { (Marks.round view walker todo m).1 with
    round_new := sort_by id_cmp (Marks.round view walker todo m).2 }

theorem Spreading.next_round {todo : List NodeId} {m : Marks}
    (h : Spreading view walker changed todo m.round_new m) :
    Spreading view walker changed (next_round view walker todo m).round_new
      (next_round view walker todo m).round_new (next_round view walker todo m) := by
  obtain ⟨hround, -, -⟩ := h.round
  refine ⟨hround.range, hround.seeded, hround.sound, fun r hr => hround.waiting r (mem_sort_by.mp hr),
    fun r hr => hround.pending r (mem_sort_by.mp hr), hround.expanded, hround.walked, fun r hr => ?_,
    fun r hr hfresh => hround.lifted r hr (fun hmem => hfresh (mem_sort_by.mpr hmem))⟩
  unfold Marks.next_round
  rw [mem_sort_by]
  exact hround.rooted r hr

/-- A round that lifts marks a node of the view. -/
theorem Spreading.round_marks {todo : List NodeId} {m : Marks}
    (h : Spreading view walker changed todo m.round_new m)
    (hlifts : (Marks.round view walker todo m).2 ≠ []) :
    (view.ids \ (Marks.round view walker todo m).1.reached.toFinset).card <
      (view.ids \ m.reached.toFinset).card := by
  obtain ⟨hround, hmono, hnew⟩ := h.round
  obtain ⟨x, hx⟩ := List.exists_mem_of_ne_nil _ hlifts
  obtain ⟨hin, hout⟩ := hnew x hx
  apply Finset.card_lt_card
  rw [Finset.ssubset_iff_of_subset]
  · refine ⟨x, ?_, ?_⟩
    · rw [Finset.mem_sdiff, List.mem_toFinset]
      exact ⟨GraphView.mem_ids (hround.range x hin), hout⟩
    · rw [Finset.mem_sdiff, List.mem_toFinset]
      exact fun hleft => hleft.2 hin
  · intro y hy
    rw [Finset.mem_sdiff, List.mem_toFinset] at hy ⊢
    exact ⟨hy.1, fun hm => hy.2 (hmono y hm)⟩

/-- What each round keeps holds when the rounds end: marking only nodes of the view,
they run out of lifts before they run out. -/
theorem spread_induct {P : List NodeId → Marks → Prop} {Q : Marks → Prop}
    (hlast : ∀ todo m, Spreading view walker changed todo m.round_new m → P todo m →
      (Marks.round view walker todo m).2 = [] → Q (Marks.round view walker todo m).1)
    (hnext : ∀ todo m, Spreading view walker changed todo m.round_new m → P todo m →
      P (next_round view walker todo m).round_new (next_round view walker todo m))
    {rounds : Nat} {todo : List NodeId} {m : Marks}
    (h : Spreading view walker changed todo m.round_new m) (hP : P todo m)
    (hrounds : (view.ids \ m.reached.toFinset).card < rounds) :
    Q (Marks.spread view walker rounds todo m) := by
  induction rounds generalizing todo m with
  | zero => omega
  | succ rounds ih =>
    unfold Marks.spread
    simp only []
    split
    · rename_i hnone
      exact hlast todo m h hP (List.isEmpty_iff.mp hnone)
    · rename_i hsome
      rw [List.isEmpty_iff] at hsome
      have hless := h.round_marks hsome
      exact ih h.next_round (hnext todo m h hP) (by simp only []; omega)

end Marks

/-- The marks before the first round. -/
def Marks.initial (view : GraphView) (changed : List NodeId) : Marks :=
  ⟨seeds view changed, [], [], fun _ => none, fun _ => none, seeds view changed⟩

theorem Marks.Spreading.initial (view : GraphView) (changed : List NodeId) (walker : PathWalker) :
    Marks.Spreading view walker changed (seeds view changed) (seeds view changed)
      (Marks.initial view changed) := by
  refine ⟨fun x hx => (mem_seeds.mp hx).2, fun s => id, fun x hx => ⟨x, hx, .refl⟩, fun r => id,
    fun x => id, fun r hr => ?_, fun y hy => ?_, fun x => .inl, fun x hx hfresh => absurd hx hfresh⟩
  · cases hr
  · cases hy

/-- What holds before the first round and is kept by each holds of the marks. -/
theorem marks_induct {P : List NodeId → Marks → Prop} {Q : Marks → Prop}
    (hinitial : P (seeds view changed) (Marks.initial view changed))
    (hlast : ∀ todo m, Marks.Spreading view walker changed todo m.round_new m → P todo m →
      (Marks.round view walker todo m).2 = [] → Q (Marks.round view walker todo m).1)
    (hnext : ∀ todo m, Marks.Spreading view walker changed todo m.round_new m → P todo m →
      P (Marks.next_round view walker todo m).round_new (Marks.next_round view walker todo m)) :
    Q (marks view changed walker) := by
  refine Marks.spread_induct hlast hnext (.initial view changed walker) hinitial ?_
  have hcard := (Finset.card_le_card (Finset.sdiff_subset :
    view.ids \ (seeds view changed).toFinset ⊆ view.ids)).trans view.card_ids_le
  exact Nat.lt_succ_of_le hcard

/-- What the walk from the changed symbols has marked when it ends. -/
theorem marks_spec (view : GraphView) (changed : List NodeId) (walker : PathWalker) :
    Marks.Spreading view walker changed [] [] (marks view changed walker) := by
  refine marks_induct (P := fun _ _ => True) trivial (fun todo m h _ hnone => ?_) fun _ _ _ _ => trivial
  obtain ⟨hround, -, -⟩ := h.round
  rwa [hnone] at hround

/-- The answer's marker of a node. -/
theorem marks_answer {n : NodeId} (hrange : n.index < view.node_count) :
    (impacted_tests view changed walker).marks n = some (decide (n ∈ (marks view changed walker).reached)) := by
  have hnode : view.nodes[n.index]? = some (view.node n) := by
    unfold GraphView.node
    rw [getElem!_pos view.nodes n.index hrange]
    exact List.getElem?_eq_getElem hrange
  unfold ImpactedTests.marks impacted_tests
  simp only []
  rw [List.getElem?_map, hnode, Option.map_some, GraphView.node_id hrange]

/-- `b` has counted at least what `a` has. -/
private def Counts (a b : FrontierFacts) : Prop :=
  a.below_floor ≤ b.below_floor ∧ a.dropped_max_candidates ≤ b.dropped_max_candidates ∧
    (a.depth_truncated = true → b.depth_truncated = true)

/-- The scan counts what it counts at each reached node. -/
private theorem foldl_scan_counts (answer : ImpactedTests) (nodes : List NodeRecord)
    (init : FrontierFacts) :
    Counts init (nodes.foldl (scan_node view walker answer) init) ∧
      ∀ node ∈ nodes, ∃ before, Counts (scan_node view walker answer before node)
        (nodes.foldl (scan_node view walker answer) init) := by
  induction nodes generalizing init with
  | nil => simp [Counts]
  | cons head rest ih =>
    obtain ⟨hinit, hrest⟩ := ih (scan_node view walker answer init head)
    rw [List.foldl_cons]
    have hhead : Counts init (scan_node view walker answer init head) := by
      unfold scan_node
      split
      · exact ⟨le_refl _, le_refl _, id⟩
      · exact ⟨le_refl _, le_refl _, id⟩
      · exact ⟨Nat.le_add_right _ _, Nat.le_add_right _ _, fun h => by simp [h]⟩
    refine ⟨⟨hhead.1.trans hinit.1, hhead.2.1.trans hinit.2.1, fun h => hinit.2.2 (hhead.2.2 h)⟩, ?_⟩
    intro node hnode
    obtain rfl | hnode := List.mem_cons.mp hnode
    · exact ⟨init, hinit⟩
    · exact hrest node hnode

/-- The reasons that say that the search itself was cut short. -/
def SEARCH_REASONS : List String :=
  ["below-confidence-floor", "dropped-max-candidates", "depth-limit"]

/-- A scan that reports no cut of the search has met no edge below the floor, none over
the cap and none beyond the depth bound. -/
theorem zero_of_no_search_reason {facts : FrontierFacts}
    (h : ∀ r ∈ facts.into_reasons walker, r.code ∉ SEARCH_REASONS) :
    facts.below_floor = 0 ∧
      (walker.filter.max_candidates ≠ none → facts.dropped_max_candidates = 0) ∧
      (walker.max_depth.isSome = true → facts.depth_truncated = false) := by
  unfold FrontierFacts.into_reasons at h
  simp only [List.mem_append, or_imp, forall_and] at h
  obtain ⟨⟨⟨_, hfloor⟩, hcap⟩, hdepth⟩ := h
  have hzero : ∀ {count : Nat} {reason : Nat → ApproxReason},
      (∀ r ∈ when_positive count reason, r.code ∉ SEARCH_REASONS) →
      (∀ k, (reason k).code ∈ SEARCH_REASONS) → count = 0 := by
    intro count reason hnone hcode
    by_contra hpos
    refine hnone (reason count) ?_ (hcode count)
    rw [when_positive, if_pos (Nat.pos_of_ne_zero hpos)]
    exact List.mem_singleton_self _
  refine ⟨hzero hfloor (fun _ => by simp [below_floor_reason, SEARCH_REASONS]), fun hmax => ?_, fun hsome => ?_⟩
  · obtain ⟨max, hmax⟩ := Option.ne_none_iff_exists'.mp hmax
    rw [hmax] at hcap
    exact hzero hcap fun _ => by simp [dropped_max_candidates_reason, SEARCH_REASONS]
  · obtain ⟨depth, hmax⟩ := Option.isSome_iff_exists.mp hsome
    rw [hmax] at hdepth
    by_contra htruncated
    rw [Bool.not_eq_false] at htruncated
    simp only [htruncated, if_true] at hdepth
    exact hdepth _ (List.mem_singleton_self _) (by simp [depth_limit_reason, SEARCH_REASONS])

/-- Where no cut of the search is reported, what is marked is closed under the
unrestricted steps. -/
theorem marks_closed
    (hnone : ∀ r ∈ (scan_frontier view walker (impacted_tests view changed walker)).into_reasons walker,
      r.code ∉ SEARCH_REASONS) {x y : NodeId}
    (hx : x ∈ (marks view changed walker).reached) (hxy : Spreads view walker.unrestricted x y) :
    y ∈ (marks view changed walker).reached := by
  have hmarks := marks_spec view changed walker
  cases hxy with
  | inr howner => exact hmarks.lifted x hx List.not_mem_nil y howner
  | inl hfollows =>
    obtain ⟨hfloor, hcap, htruncated⟩ := zero_of_no_search_reason hnone
    have hrange := hmarks.range x hx
    obtain ⟨before, hcfloor, hccap, hcdepth⟩ := (foldl_scan_counts
      (impacted_tests view changed walker) view.nodes .empty).2 _ (GraphView.node_mem hrange)
    have hid := GraphView.node_id hrange
    simp only [scan_node, hid, marks_answer hrange, hx, decide_true] at hcfloor hccap hcdepth
    have hzero : ∀ {a b c : Nat}, a + b ≤ c → c = 0 → b = 0 := by omega
    have hstep := follows_of_clean (hzero hcfloor hfloor) (fun hmax => hzero hccap (hcap hmax)) hfollows
    cases hbound : walker.max_depth with
    | none =>
      -- an unbounded walk from the root `x` was found from goes on to `y`
      have hlimit : walker.limit = none := by simp [PathWalker.limit, hbound]
      obtain ⟨r, hr, k, _, hwalk⟩ : ∃ r ∈ (marks view changed walker).expanded,
          ReachedWithin (walker.Follows view .Backward) walker.limit r x := by
        obtain hroot | hroot | hroot := hmarks.rooted x hx
        · cases hroot
        · exact ⟨x, hroot, 0, by simp [hlimit], .refl x⟩
        · exact hmarks.walked x hroot
      exact (hmarks.expanded r hr).2 y ⟨k + 1, by simp [hlimit], .snoc hwalk hstep⟩
    | some depth =>
      -- a bounded walk would have reported the edge to `y`
      by_contra hfresh
      obtain ⟨er, her, hpeer, hyrange⟩ := hstep
      have hclean := htruncated (by rw [hbound]; rfl)
      rw [scan_frontier] at hclean
      rw [hcdepth ?_] at hclean
      · cases hclean
      · rw [hbound, Option.isSome_some, Bool.true_and, Bool.or_eq_true, List.any_eq_true]
        refine .inr ⟨er, her, ?_⟩
        rw [hpeer, marks_answer hyrange]
        simp [hfresh]

/-- Where no cut of the search is reported, the walk marks what the unrestricted walk
marks. -/
theorem mem_marks_unrestricted
    (hnone : ∀ r ∈ (scan_frontier view walker (impacted_tests view changed walker)).into_reasons walker,
      r.code ∉ SEARCH_REASONS) (n : NodeId) :
    n ∈ (marks view changed walker).reached ↔ n ∈ (marks view changed walker.unrestricted).reached := by
  have hmarks := marks_spec view changed walker
  have hfree := marks_spec view changed walker.unrestricted
  constructor
  · intro hn
    refine (hmarks.sound n hn).unrestricted.mem_of_closed hfree.seeded fun x z hx hxz => ?_
    cases hxz with
    | inr howner => exact hfree.lifted x hx List.not_mem_nil z howner
    | inl hstep =>
      obtain hroot | hroot | hroot := hfree.rooted x hx
      · cases hroot
      · exact (hfree.expanded x hroot).2 z ⟨1, rfl, .single hstep⟩
      · obtain ⟨r, hr, k, _, hwalk⟩ := hfree.walked x hroot
        exact (hfree.expanded r hr).2 z ⟨k + 1, rfl, .snoc hwalk hstep⟩
  · intro hn
    exact (hfree.sound n hn).mem_of_closed hmarks.seeded fun x z hx hxz => marks_closed hnone hx hxz

/-- The tests of an answer are the marked test entrypoints in result order. -/
theorem tests_node : (impacted_tests view changed walker).tests.map NeighborResult.node =
    sort_by result_cmp (view.nodes.filter (marks view changed walker).reports) := by
  unfold impacted_tests
  simp only []
  rw [List.map_map]
  refine (map_sort_by (NeighborResult.node ∘ Prod.fst) (fun _ _ => rfl) _).trans ?_
  rw [List.map_map]
  congr 1
  exact List.map_id _

/-- An answer whose contract reports no edge below the floor, none over the cap and no
depth limit names the tests, and marks the nodes, that the walk without floor, cap and
depth bound does. -/
theorem impacted_without_cut_is_complete (view : GraphView) (changed : List NodeId) (walker : PathWalker)
    (facts : DiffFacts) (granular : Nat)
    (h : ∀ r ∈ (contract_for view walker changed
      { impacted_tests view changed walker with file_granular_only := granular } facts).reasons,
      r.code ∉ SEARCH_REASONS) :
    (impacted_tests view changed walker).reached =
        (impacted_tests view changed walker.unrestricted).reached ∧
      (impacted_tests view changed walker).tests.map NeighborResult.node =
        (impacted_tests view changed walker.unrestricted).tests.map NeighborResult.node := by
  have hnone : ∀ r ∈ (scan_frontier view walker (impacted_tests view changed walker)).into_reasons walker,
      r.code ∉ SEARCH_REASONS := by
    intro r hr
    refine h r ?_
    simp only [contract_for, ApproximationContract.assemble, List.mem_append]
    exact .inl (.inl (.inl (.inl (.inl (.inl (.inl (.inl hr)))))))
  have hmem := mem_marks_unrestricted hnone
  constructor
  · simp only [impacted_tests, hmem]
  · rw [tests_node, tests_node]
    congr 2
    funext node
    simp only [Marks.reports, hmem]

/-- A closure inside the test `t` calls the changed symbol `c`. -/
def closure_call : GraphView where
  nodes := [{ function_node 0 "t" with entrypoint_kind := some .Test },
    { function_node 1 "t::\x7bclosure@1:5\x7d" with kind := .Lambda }, function_node 2 "c"]
  edges := [certain_edge 0 .Calls 1 2]
  candidates := []
  ids_dense := by decide

theorem impacted_without_cut_is_complete_closure_call :
    (impacted_tests closure_call [⟨2⟩] bounded_walker).reached = [true, true, true] ∧
      (impacted_tests closure_call [⟨2⟩] bounded_walker.unrestricted).reached = [true, true, true] ∧
      (impacted_tests closure_call [⟨2⟩] bounded_walker.unrestricted).tests.map (fun r => r.node.fqn) = ["t"] := by
  obtain ⟨hreached, htests⟩ := impacted_without_cut_is_complete closure_call [⟨2⟩] bounded_walker
    ⟨0, 0, 0, false⟩ 0 (by decide +kernel)
  have hmarked : (impacted_tests closure_call [⟨2⟩] bounded_walker).reached = [true, true, true] := by
    decide +kernel
  have hnames := congrArg (List.map NodeRecord.fqn) htests
  rw [List.map_map, List.map_map] at hnames
  refine ⟨hmarked, hreached ▸ hmarked, hnames.symm.trans ?_⟩
  decide +kernel

end cgx.query.impacted
