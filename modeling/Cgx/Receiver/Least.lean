import Cgx.Receiver.Flow

open propagate Relation

namespace cgx.receiver

/-! ### What solving leaves at a key -/

/-- Copies lead from a key to another. -/
def Flows (bindings : List Binding) : Key → Key → Prop :=
  ReflTransGen (Copied bindings)

/-- A type state is the join of the seeds of the keys from which copies lead to `k`. -/
structure Joins (bindings : List Binding) (k : Key) (ts : TypeSet) : Prop where
  top : ts.top = true ↔ ∃ a s, Flows bindings a k ∧ Seeded bindings a s ∧ s.top = true
  types : ∀ c, c ∈ ts.types ↔ ts.top = false ∧ ∃ a s, Flows bindings a k ∧ Seeded bindings a s ∧ c ∈ s.types
  ext : ∀ c, c ∈ ts.ext ↔ ts.top = false ∧ ∃ a s, Flows bindings a k ∧ Seeded bindings a s ∧ c ∈ s.ext

/-- What the seeds of the keys from which copies lead to `k` admit. -/
def reaching (bindings : List Binding) (k : Key) : Set Atom :=
  {x | ∃ a s, Flows bindings a k ∧ Seeded bindings a s ∧ x ∈ s.admits}

namespace Flow

section graph

variable {named : Key → Prop} {seeds : Key → TypeSet → Prop} {copied : Key → Key → Prop} {flow : Flow}

theorem Graph.sound (h : Graph named seeds copied flow) : flow.Sound := by
  refine ⟨fun e he => ?_, h.plain⟩
  obtain ⟨a, b, _, hab, _, hb⟩ := (h.copies e.1 e.2).mp he
  rw [hb]
  exact h.lt (h.ends a b hab).2

/-- The nodes that reach the node of a key are those of the keys that reach it. -/
theorem Graph.reaches_iff (h : Graph named seeds copied flow) {k : Key} (hk : named k) {i : Nat} :
    ReflTransGen (Edge flow.copies) i (flow.ids.idxOf k) ↔
      ∃ a, i = flow.ids.idxOf a ∧ ReflTransGen copied a k := by
  constructor
  · intro hreach
    suffices hnamed : ∃ a, named a ∧ i = flow.ids.idxOf a ∧ ReflTransGen copied a k from
      hnamed.imp fun a ha => ha.2
    induction hreach using ReflTransGen.head_induction_on with
    | refl => exact ⟨k, hk, rfl, .refl⟩
    | head hedge _ ih =>
      obtain ⟨b, hb, hj, hreach⟩ := ih
      obtain ⟨a, c, _, hac, hi, hc⟩ := (h.copies _ _).mp hedge
      have hsame : c = b := h.idx_inj (h.ends a c hac).2 (hc.symm.trans hj)
      exact ⟨a, (h.ends a c hac).1, hi, .head (hsame ▸ hac) hreach⟩
  · rintro ⟨a, rfl, hreach⟩
    induction hreach using ReflTransGen.head_induction_on with
    | refl => exact .refl
    | @head a c hac _ ih =>
      by_cases heq : a = c
      · exact heq ▸ ih
      · exact .head ((h.copies _ _).mpr ⟨a, c, heq, hac, rfl, rfl⟩) ih

end graph

theorem get_eq_some {solved : Flow} {k : Key} {ts : TypeSet} :
    solved.get k = some ts ↔ k ∈ solved.ids ∧ at_node solved.state (solved.ids.idxOf k) = ts := by
  rw [get]
  split
  · rename_i hmem
    exact ⟨fun h => ⟨hmem, Option.some.inj h⟩, fun h => congrArg some h.2⟩
  · rename_i hnot
    exact ⟨nofun, fun h => absurd h.1 hnot⟩

/-- A solved graph of the bindings: it has the keys that they name, and each admits what the
seeds of the keys that reach it do. -/
structure Solved (bindings : List Binding) (solved : Flow) : Prop where
  ids : ∀ k, k ∈ solved.ids ↔ Named bindings k
  plain : ∀ k ts, solved.get k = some ts → ts.Plain
  admits : ∀ k ts, solved.get k = some ts → ts.admits = reaching bindings k

/-- The graph of any bindings can be solved. -/
theorem bound_solved (bindings : List Binding) :
    ∃ solved, (∃ rounds, ∀ fuel, rounds ≤ fuel → (bound bindings).solve fuel = some solved) ∧
      Solved bindings solved := by
  have hgraph := graph_bound bindings
  obtain ⟨solved, hends, hsolution, hadmits⟩ := hgraph.sound.solved
  have hids : ∀ k, k ∈ solved.ids ↔ Named bindings k := by
    intro k
    rw [hsolution.ids]
    exact hgraph.ids k
  refine ⟨solved, hends, hids, fun k ts hget => ?_, fun k ts hget => ?_⟩
  · obtain ⟨_, rfl⟩ := get_eq_some.mp hget
    exact plain_at_node hsolution.plain _
  · obtain ⟨hmem, rfl⟩ := get_eq_some.mp hget
    ext x
    have hx := hadmits (solved.ids.idxOf k) x
    rw [admitted] at hx
    rw [hx, hsolution.ids]
    constructor
    · rintro ⟨i, hreach, hi⟩
      obtain ⟨a, rfl, hflows⟩ := (hgraph.reaches_iff ((hids k).mp hmem)).mp hreach
      obtain ⟨s, hs, hxs⟩ := (hgraph.seeds a x).mp hi
      exact ⟨a, s, hflows, hs, hxs⟩
    · rintro ⟨a, s, hflows, hs, hxs⟩
      exact ⟨_, (hgraph.reaches_iff ((hids k).mp hmem)).mpr ⟨a, rfl, hflows⟩, (hgraph.seeds a x).mpr ⟨s, hs, hxs⟩⟩

variable {bindings bindings' : List Binding} {solved solved' : Flow}

/-- Whatever the number of rounds, only a solved graph comes out. -/
theorem solved_of_solve {fuel : Nat} (h : (bound bindings).solve fuel = some solved) : Solved bindings solved := by
  obtain ⟨solved', ⟨rounds, hends⟩, hsolved⟩ := bound_solved bindings
  have hmore := solve_mono h (Nat.le_max_left fuel rounds)
  rw [hends _ (Nat.le_max_right fuel rounds)] at hmore
  cases hmore
  exact hsolved

theorem Solved.isSome_get (h : Solved bindings solved) (k : Key) :
    (solved.get k).isSome = true ↔ Named bindings k := by
  rw [← h.ids k, Option.isSome_iff_exists]
  constructor
  · rintro ⟨ts, hts⟩
    exact (get_eq_some.mp hts).1
  · exact fun hmem => ⟨_, get_eq_some.mpr ⟨hmem, rfl⟩⟩

/-- A key of a solved graph has the join of the seeds that reach it. -/
theorem Solved.joins (h : Solved bindings solved) {k : Key} {ts : TypeSet} (hget : solved.get k = some ts) :
    Joins bindings k ts := by
  have hadmits : ∀ x, x ∈ ts.admits ↔ x ∈ reaching bindings k := Set.ext_iff.mp (h.admits k ts hget)
  have hplain := h.plain k ts hget
  have htop : ts.top = true ↔ ∃ a s, Flows bindings a k ∧ Seeded bindings a s ∧ s.top = true := hadmits .Unknown
  have hknown : ∀ {a s}, ts.top = false → Flows bindings a k → Seeded bindings a s → ¬ s.top = true := by
    intro a s hts hflows hs hstop
    rw [htop.mpr ⟨a, s, hflows, hs, hstop⟩] at hts
    cases hts
  refine ⟨htop, fun c => hplain.mem_types_iff.trans ?_, fun c => hplain.mem_ext_iff.trans ?_⟩
  · refine and_congr_right fun hts => (hadmits (.Class c)).trans ⟨?_, ?_⟩
    · rintro ⟨a, s, hflows, hs, hc⟩
      exact ⟨a, s, hflows, hs, hc.resolve_left (hknown hts hflows hs)⟩
    · rintro ⟨a, s, hflows, hs, hc⟩
      exact ⟨a, s, hflows, hs, .inr hc⟩
  · refine and_congr_right fun hts => (hadmits (.Outside c)).trans ⟨?_, ?_⟩
    · rintro ⟨a, s, hflows, hs, hc⟩
      exact ⟨a, s, hflows, hs, hc.resolve_left (hknown hts hflows hs)⟩
    · rintro ⟨a, s, hflows, hs, hc⟩
      exact ⟨a, s, hflows, hs, .inr hc⟩

theorem reaching_mono (h : bindings ⊆ bindings') (k : Key) : reaching bindings k ⊆ reaching bindings' k := by
  rintro x ⟨a, s, hflows, hs, hx⟩
  exact ⟨a, s, ReflTransGen.mono (fun _ _ hcopy => h hcopy) _ _ hflows, h hs, hx⟩

theorem named_mono (h : bindings ⊆ bindings') {k : Key} (hk : Named bindings k) : Named bindings' k := by
  obtain ⟨b, hb, hnames⟩ := hk
  exact ⟨b, h hb, hnames⟩

/-- More bindings only widen what a key admits. -/
theorem Solved.wider (h : Solved bindings solved) (h' : Solved bindings' solved') (hsub : bindings ⊆ bindings')
    {k : Key} {ts : TypeSet} (hget : solved.get k = some ts) :
    ∃ ts', solved'.get k = some ts' ∧ ts.admits ⊆ ts'.admits := by
  have hnamed : Named bindings k := (h.isSome_get k).mp (Option.isSome_iff_exists.mpr ⟨ts, hget⟩)
  obtain ⟨ts', hget'⟩ := Option.isSome_iff_exists.mp ((h'.isSome_get k).mpr (named_mono hsub hnamed))
  refine ⟨ts', hget', ?_⟩
  rw [h.admits k ts hget, h'.admits k ts' hget']
  exact reaching_mono hsub k

/-- The same bindings, in whatever order and however often, give the same states. -/
theorem Solved.get_eq (h : Solved bindings solved) (h' : Solved bindings' solved') (hsub : bindings ⊆ bindings')
    (hsub' : bindings' ⊆ bindings) (k : Key) : solved'.get k = solved.get k := by
  cases hget : solved.get k with
  | some ts =>
    obtain ⟨ts', hget', hle⟩ := h.wider h' hsub hget
    have hge : ts'.admits ⊆ ts.admits := by
      rw [h.admits k ts hget, h'.admits k ts' hget']
      exact reaching_mono hsub' k
    rw [hget', (h'.plain k ts' hget').ext_admits (h.plain k ts hget) (hge.antisymm hle)]
  | none =>
    rw [Option.eq_none_iff_forall_not_mem]
    intro ts' hget'
    obtain ⟨ts, hts, _⟩ := h'.wider h hsub' hget'
    rw [hget] at hts
    cases hts

end Flow

theorem TypeSet.subset_of_wider {ts ts' : TypeSet} (hle : ts.admits ⊆ ts'.admits) (hknown : ts'.top = false) :
    ts.types ⊆ ts'.types ∧ ts.ext ⊆ ts'.ext := by
  have htop' : ¬ ts'.top = true := Bool.eq_false_iff.mp hknown
  constructor
  · intro c hc
    exact (hle (a := .Class c) (.inr hc)).resolve_left htop'
  · intro c hc
    exact (hle (a := .Outside c) (.inr hc)).resolve_left htop'

/-- Solving ends for the seeds and copies of any list of bindings, and each named key then
has the join of the seeds of the keys from which copies lead to it. The order of the
bindings does not matter, and with more bindings an unknown state stays unknown and one that
does not become unknown loses no class. -/
theorem solve_is_least (bindings : List Binding) :
    ∃ solved, (∃ rounds, ∀ fuel, rounds ≤ fuel → (Flow.bound bindings).solve fuel = some solved) ∧
      (∀ k, (solved.get k).isSome = true ↔ Named bindings k) ∧
      (∀ k ts, solved.get k = some ts → Joins bindings k ts) ∧
      (∀ bindings' fuel solved', bindings.Perm bindings' → (Flow.bound bindings').solve fuel = some solved' →
        ∀ k, solved'.get k = solved.get k) ∧
      ∀ bindings' fuel solved', bindings ⊆ bindings' → (Flow.bound bindings').solve fuel = some solved' →
        ∀ k ts, solved.get k = some ts →
          ∃ ts', solved'.get k = some ts' ∧ (ts.top = true → ts'.top = true) ∧
            (ts'.top = false → ts.types ⊆ ts'.types ∧ ts.ext ⊆ ts'.ext) := by
  obtain ⟨solved, hends, hsolved⟩ := Flow.bound_solved bindings
  refine ⟨solved, hends, hsolved.isSome_get, fun k ts hget => hsolved.joins hget, ?_, ?_⟩
  · intro bindings' fuel solved' hperm hsolve k
    exact hsolved.get_eq (Flow.solved_of_solve hsolve) hperm.subset hperm.symm.subset k
  · intro bindings' fuel solved' hsub hsolve k ts hget
    obtain ⟨ts', hget', hle⟩ := hsolved.wider (Flow.solved_of_solve hsolve) hsub hget
    exact ⟨ts', hget', fun htop => hle (a := .Unknown) htop, TypeSet.subset_of_wider hle⟩

end cgx.receiver
