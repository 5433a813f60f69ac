import Mathlib.Order.ConditionallyCompleteLattice.Basic
import Cgx.Receiver.Types

open propagate Relation

namespace cgx.receiver

namespace Flow

/-! ### The rounds of `solve` are passes -/

/-- What the states of the nodes admit. -/
def admitted (state : List TypeSet) (node : Nat) : Set Atom :=
  (at_node state node).admits

theorem plain_at_node {state : List TypeSet} (hplain : ∀ ts ∈ state, ts.Plain) (node : Nat) :
    (at_node state node).Plain := by
  rw [at_node, List.getD_eq_getElem?_getD]
  cases h : state[node]? with
  | none => exact TypeSet.plain_empty
  | some ts => exact hplain ts (List.mem_of_getElem? h)

theorem at_node_set {state : List TypeSet} {node : Nat} (hnode : node < state.length) (ts : TypeSet) (k : Nat) :
    at_node (state.set node ts) k = if k = node then ts else at_node state k := by
  rw [at_node, at_node, List.getD_eq_getElem?_getD, List.getD_eq_getElem?_getD, List.getElem?_set]
  by_cases hk : k = node
  · rw [hk, if_pos rfl, if_pos rfl, if_pos hnode, Option.getD_some]
  · rw [if_neg (Ne.symm hk), if_neg hk]

theorem admitted_propagate {state : List TypeSet} {e : Nat × Nat} (he : e.2 < state.length) (b : Bool) :
    admitted (propagate_copy (state, b) e).1 = relax (admitted state) e := by
  funext k
  rw [admitted, propagate_copy, at_node_set he, relax]
  by_cases hk : k = e.2
  · rw [if_pos hk, hk, Function.update_self]
    exact TypeSet.admits_join _ _
  · rw [if_neg hk, Function.update_of_ne hk]
    rfl

/-- A round over the copies is a pass over what the states admit, and its flag tells whether
the pass changed anything. -/
theorem propagate_spec {copies : List (Nat × Nat)} {state : List TypeSet}
    (hin : ∀ e ∈ copies, e.2 < state.length) (hplain : ∀ ts ∈ state, ts.Plain) (b : Bool) :
    (copies.foldl propagate_copy (state, b)).1.length = state.length ∧
      (∀ ts ∈ (copies.foldl propagate_copy (state, b)).1, ts.Plain) ∧
      admitted (copies.foldl propagate_copy (state, b)).1 = pass copies (admitted state) ∧
      ((copies.foldl propagate_copy (state, b)).2 = false ↔
        b = false ∧ pass copies (admitted state) = admitted state) := by
  induction copies generalizing state b with
  | nil => exact ⟨rfl, hplain, rfl, by simp [propagate.pass]⟩
  | cons e rest ih =>
    have he := hin e List.mem_cons_self
    have hlen : (propagate_copy (state, b) e).1.length = state.length := List.length_set
    have hplain' : ∀ ts ∈ (propagate_copy (state, b) e).1, ts.Plain := by
      intro ts hts
      obtain hold | hnew := List.mem_or_eq_of_mem_set hts
      · exact hplain ts hold
      · rw [hnew]
        exact (plain_at_node hplain e.2).join _
    have hfirst := admitted_propagate he b
    have hflag : (propagate_copy (state, b) e).2 = false ↔ b = false ∧ relax (admitted state) e = admitted state := by
      rw [relax_eq_self_iff, propagate_copy, Bool.or_eq_false_iff, TypeSet.join_flag_iff]
      rfl
    have hin' : ∀ e' ∈ rest, e'.2 < (propagate_copy (state, b) e).1.length :=
      fun e' he' => hlen ▸ hin e' (List.mem_cons_of_mem e he')
    obtain ⟨hlength, hplains, hadmitted, hflags⟩ := ih hin' hplain' (propagate_copy (state, b) e).2
    rw [hfirst] at hadmitted hflags
    refine ⟨hlength.trans hlen, hplains, hadmitted, hflags.trans ?_⟩
    have hpass : pass (e :: rest) (admitted state) = admitted state ↔ ∀ f ∈ e :: rest, admitted state f.1 ≤ admitted state f.2 :=
      pass_eq_self_iff
    rw [hflag, hpass, List.forall_mem_cons, ← relax_eq_self_iff (s := admitted state), ← pass_eq_self_iff]
    constructor
    · rintro ⟨⟨hb, hsame⟩, hrest⟩
      rw [hsame] at hrest
      exact ⟨hb, hsame, hrest⟩
    · rintro ⟨hb, hsame, hrest⟩
      rw [hsame]
      exact ⟨⟨hb, rfl⟩, hrest⟩

/-- A graph that can be solved: its copies lead to nodes, and its states are plain. -/
structure Sound (flow : Flow) : Prop where
  targets : ∀ e ∈ flow.copies, e.2 < flow.state.length
  plain : ∀ ts ∈ flow.state, ts.Plain

theorem solve_mono {flow solved : Flow} {fuel more : Nat} (h : flow.solve fuel = some solved) (hle : fuel ≤ more) :
    flow.solve more = some solved := by
  induction fuel generalizing flow more with
  | zero => cases h
  | succ fuel ih =>
    obtain ⟨more, rfl⟩ : ∃ n, more = n + 1 := ⟨more - 1, by omega⟩
    rw [solve] at h ⊢
    split at h
    · rename_i hchanged
      rw [if_pos hchanged]
      exact ih h (by omega)
    · rename_i hdone
      rw [if_neg hdone]
      exact h

/-- What solving ends with. -/
structure Solution (flow solved : Flow) : Prop where
  ids : solved.ids = flow.ids
  plain : ∀ ts ∈ solved.state, ts.Plain
  done : ∃ n, admitted solved.state = passes flow.copies (admitted flow.state) n ∧
    pass flow.copies (admitted solved.state) = admitted solved.state

/-- With more rounds than the passes need, `solve` ends. -/
theorem Sound.solve_ends {flow : Flow} (h : flow.Sound) {n : Nat}
    (hdone : pass flow.copies (passes flow.copies (admitted flow.state) n) =
      passes flow.copies (admitted flow.state) n) :
    ∃ solved, flow.solve (n + 1) = some solved ∧ Solution flow solved := by
  induction n generalizing flow with
  | zero =>
    obtain ⟨_, hplain, hadmitted, hflag⟩ := propagate_spec h.targets h.plain false
    rw [passes] at hdone
    rw [solve, hflag.mpr ⟨rfl, hdone⟩]
    refine ⟨_, rfl, rfl, hplain, 0, hadmitted.trans hdone, ?_⟩
    dsimp only
    rw [hadmitted, hdone, hdone]
  | succ n ih =>
    obtain ⟨hlength, hplain, hadmitted, hflag⟩ := propagate_spec h.targets h.plain false
    rw [solve]
    split
    · have hafter : Sound { flow with state := (flow.copies.foldl propagate_copy (flow.state, false)).1 } :=
        ⟨fun e he => hlength ▸ h.targets e he, hplain⟩
      obtain ⟨solved, hsolve, hsolution⟩ := ih hafter (by
        dsimp only
        rw [hadmitted, passes_pass]
        exact hdone)
      obtain ⟨m, hm, hfix⟩ := hsolution.done
      dsimp only at hm
      rw [hadmitted, passes_pass] at hm
      exact ⟨solved, hsolve, hsolution.ids, hsolution.plain, m + 1, hm, hfix⟩
    · rename_i hdone
      obtain ⟨_, hsame⟩ := hflag.mp (Bool.not_eq_true _ ▸ hdone)
      refine ⟨_, rfl, rfl, hplain, 0, hadmitted.trans hsame, ?_⟩
      dsimp only
      rw [hadmitted, hsame, hsame]

/-- `solve` ends, whatever the copies, and then each node admits what the nodes from which it
is reachable admitted. -/
theorem Sound.solved {flow : Flow} (h : flow.Sound) :
    ∃ solved, (∃ rounds, ∀ fuel, rounds ≤ fuel → flow.solve fuel = some solved) ∧ Solution flow solved ∧
      ∀ k x, x ∈ admitted solved.state k ↔
        ∃ i, ReflTransGen (Edge flow.copies) i k ∧ x ∈ admitted flow.state i := by
  obtain ⟨n, _, hdone⟩ := passes_settle flow.copies (admitted flow.state)
  obtain ⟨solved, hsolve, hsolution⟩ := h.solve_ends hdone
  refine ⟨solved, ⟨n + 1, fun fuel hle => solve_mono hsolve hle⟩, hsolution, fun k x => ?_⟩
  obtain ⟨m, hm, hfix⟩ := hsolution.done
  rw [hm] at hfix
  obtain ⟨S, hS, hsup⟩ := settled_eq_sup hfix
  rw [hm, hsup, Finset.sup_set_eq_biUnion, Set.mem_iUnion₂]
  constructor
  · rintro ⟨i, hi, hx⟩
    exact ⟨i, (hS i k).mp hi, hx⟩
  · rintro ⟨i, hi, hx⟩
    exact ⟨i, (hS i k).mpr hi, hx⟩

/-! ### The graph of the bindings -/

/-- The graph of named keys with the seeds and the copies between them. -/
structure Graph (named : Key → Prop) (seeds : Key → TypeSet → Prop) (copied : Key → Key → Prop) (flow : Flow) :
    Prop where
  nodup : flow.ids.Nodup
  length : flow.state.length = flow.ids.length
  plain : ∀ ts ∈ flow.state, ts.Plain
  ids : ∀ k, k ∈ flow.ids ↔ named k
  seeds : ∀ k x, x ∈ admitted flow.state (flow.ids.idxOf k) ↔ ∃ ts, seeds k ts ∧ x ∈ ts.admits
  ends : ∀ a b, copied a b → named a ∧ named b
  copies : ∀ i j, (i, j) ∈ flow.copies ↔
    ∃ a b, a ≠ b ∧ copied a b ∧ i = flow.ids.idxOf a ∧ j = flow.ids.idxOf b

variable {named : Key → Prop} {seeds : Key → TypeSet → Prop} {copied : Key → Key → Prop} {flow : Flow}

theorem Graph.lt (h : Graph named seeds copied flow) {k : Key} (hk : named k) :
    flow.ids.idxOf k < flow.state.length := by
  rw [h.length]
  exact List.idxOf_lt_length_of_mem ((h.ids k).mpr hk)

theorem Graph.idx_inj (h : Graph named seeds copied flow) {a b : Key} (ha : named a)
    (heq : flow.ids.idxOf a = flow.ids.idxOf b) : a = b :=
  (List.idxOf_inj ((h.ids a).mpr ha)).mp heq

theorem at_node_of_le {state : List TypeSet} {i : Nat} (h : state.length ≤ i) : at_node state i = .empty := by
  rw [at_node, List.getD_eq_getElem?_getD, List.getElem?_eq_none h, Option.getD_none]

theorem at_node_append_empty (state : List TypeSet) (i : Nat) : at_node (state ++ [.empty]) i = at_node state i := by
  rcases Nat.lt_trichotomy i state.length with h | h | h
  · rw [at_node, at_node, List.getD_eq_getElem?_getD, List.getElem?_append_left h, List.getD_eq_getElem?_getD]
  · rw [at_node_of_le h.ge, h, at_node, List.getD_eq_getElem?_getD, List.getElem?_concat_length, Option.getD_some]
  · rw [at_node_of_le h.le, at_node_of_le (by rw [List.length_append, List.length_singleton]; omega)]

/-- Naming a key keeps the nodes of the others. -/
theorem idxOf_node {k : Key} (hk : k ∈ flow.ids) (key : Key) : (flow.node key).1.ids.idxOf k = flow.ids.idxOf k := by
  rw [Flow.node]
  split
  · rfl
  · exact List.idxOf_append_of_mem hk

/-- Naming a key gives it a node. -/
theorem Graph.node (h : Graph named seeds copied flow) (key : Key) :
    Graph (fun k => named k ∨ k = key) seeds copied (flow.node key).1 ∧
      (flow.node key).2 = (flow.node key).1.ids.idxOf key := by
  rw [Flow.node]
  split
  · rename_i hmem
    refine ⟨⟨h.nodup, h.length, h.plain, fun k => ?_, h.seeds, fun a b hab => ?_, h.copies⟩, rfl⟩
    · rw [h.ids k]
      constructor
      · exact .inl
      · rintro (hk | rfl)
        · exact hk
        · exact (h.ids k).mp hmem
    · exact (h.ends a b hab).imp .inl .inl
  · rename_i hnew
    have hold : ∀ {k}, named k → (flow.ids ++ [key]).idxOf k = flow.ids.idxOf k :=
      fun hk => List.idxOf_append_of_mem ((h.ids _).mpr hk)
    have hkey : (flow.ids ++ [key]).idxOf key = flow.ids.length := by
      rw [List.idxOf_append_of_notMem hnew, List.idxOf_cons_self, Nat.add_zero]
    refine ⟨⟨?_, ?_, ?_, fun k => ?_, fun k x => ?_, fun a b hab => ?_, fun i j => ?_⟩, ?_⟩
    · exact h.nodup.append (List.nodup_singleton key) (by simpa using hnew)
    · rw [List.length_append, List.length_append, h.length]
      rfl
    · intro ts hts
      obtain hts | hts := List.mem_append.mp hts
      · exact h.plain ts hts
      · rw [List.mem_singleton.mp hts]
        exact TypeSet.plain_empty
    · rw [List.mem_append, h.ids k, List.mem_singleton]
    · rw [← h.seeds k x, admitted, admitted, at_node_append_empty]
      by_cases hk : k ∈ flow.ids
      · rw [List.idxOf_append_of_mem hk]
      · -- Neither the new key nor a key without a node has a state behind the old ones.
        rw [List.idxOf_append_of_notMem hk, at_node_of_le (by rw [h.length]; omega),
          at_node_of_le (by rw [h.length, List.idxOf_eq_length hk])]
    · exact (h.ends a b hab).imp .inl .inl
    · rw [h.copies i j]
      constructor
      · rintro ⟨a, b, hne, hab, rfl, rfl⟩
        exact ⟨a, b, hne, hab, (hold (h.ends a b hab).1).symm, (hold (h.ends a b hab).2).symm⟩
      · rintro ⟨a, b, hne, hab, rfl, rfl⟩
        exact ⟨a, b, hne, hab, hold (h.ends a b hab).1, hold (h.ends a b hab).2⟩
    · rw [hkey, h.length]

/-- A seed joins the seeds of its key. -/
theorem Graph.seed (h : Graph named seeds copied flow) {key : Key} (hkey : named key) (ts : TypeSet) :
    Graph named (fun k t => seeds k t ∨ k = key ∧ t = ts) copied (flow.seed (flow.ids.idxOf key) ts) := by
  have hlt := h.lt hkey
  have hset : (flow.seed (flow.ids.idxOf key) ts).state =
      flow.state.set (flow.ids.idxOf key) ((at_node flow.state (flow.ids.idxOf key)).join ts).1 := by
    rw [Flow.seed, List.modify_eq_set_getElem?, List.getElem?_eq_getElem hlt, at_node,
      List.getD_eq_getElem?_getD, List.getElem?_eq_getElem hlt]
    rfl
  refine ⟨h.nodup, ?_, ?_, h.ids, fun k x => ?_, h.ends, h.copies⟩
  · rw [hset, List.length_set]
    exact h.length
  · rw [hset]
    intro t ht
    obtain hold | hnew := List.mem_or_eq_of_mem_set ht
    · exact h.plain t hold
    · rw [hnew]
      exact (plain_at_node h.plain _).join ts
  · have hids : (flow.seed (flow.ids.idxOf key) ts).ids = flow.ids := rfl
    rw [hids, admitted, hset, at_node_set hlt]
    by_cases hk : k = key
    · subst hk
      have hold := h.seeds k x
      rw [admitted] at hold
      rw [if_pos rfl, TypeSet.admits_join, Set.mem_union, hold]
      constructor
      · rintro (⟨t, ht, hx⟩ | hx)
        · exact ⟨t, .inl ht, hx⟩
        · exact ⟨ts, .inr ⟨rfl, rfl⟩, hx⟩
      · rintro ⟨t, ht | ⟨_, rfl⟩, hx⟩
        · exact .inl ⟨t, ht, hx⟩
        · exact .inr hx
    · rw [if_neg fun heq => hk (h.idx_inj hkey heq.symm).symm]
      refine (h.seeds k x).trans ⟨?_, ?_⟩
      · rintro ⟨t, ht, hx⟩
        exact ⟨t, .inl ht, hx⟩
      · rintro ⟨t, ht | ⟨heq, _⟩, hx⟩
        · exact ⟨t, ht, hx⟩
        · exact absurd heq hk

/-- A copy between named keys joins their edges. -/
theorem Graph.copy (h : Graph named seeds copied flow) {src dst : Key} (hsrc : named src) (hdst : named dst) :
    Graph named seeds (fun a b => copied a b ∨ a = src ∧ b = dst)
      (flow.copy (flow.ids.idxOf src) (flow.ids.idxOf dst)) := by
  have hends : ∀ a b, copied a b ∨ a = src ∧ b = dst → named a ∧ named b := by
    rintro a b (hab | ⟨rfl, rfl⟩)
    · exact h.ends a b hab
    · exact ⟨hsrc, hdst⟩
  rw [Flow.copy]
  split
  · rename_i hne
    refine ⟨h.nodup, h.length, h.plain, h.ids, h.seeds, hends, fun i j => ?_⟩
    rw [List.mem_append, h.copies i j, List.mem_singleton, Prod.mk.injEq]
    constructor
    · rintro (⟨a, b, hab, hcopy, hi, hj⟩ | ⟨rfl, rfl⟩)
      · exact ⟨a, b, hab, .inl hcopy, hi, hj⟩
      · exact ⟨src, dst, fun heq => hne (by rw [heq]), .inr ⟨rfl, rfl⟩, rfl, rfl⟩
    · rintro ⟨a, b, hab, hcopy | ⟨rfl, rfl⟩, rfl, rfl⟩
      · exact .inl ⟨a, b, hab, hcopy, rfl, rfl⟩
      · exact .inr ⟨rfl, rfl⟩
  · rename_i hsame
    have heq : src = dst := h.idx_inj hsrc (not_not.mp hsame)
    refine ⟨h.nodup, h.length, h.plain, h.ids, h.seeds, hends, fun i j => ?_⟩
    rw [h.copies i j]
    constructor
    · rintro ⟨a, b, hab, hcopy, hi, hj⟩
      exact ⟨a, b, hab, .inl hcopy, hi, hj⟩
    · rintro ⟨a, b, hab, hcopy | ⟨rfl, rfl⟩, hi, hj⟩
      · exact ⟨a, b, hab, hcopy, hi, hj⟩
      · exact absurd heq hab

theorem Graph.congr {named' : Key → Prop} {seeds' : Key → TypeSet → Prop} {copied' : Key → Key → Prop}
    (h : Graph named seeds copied flow) (hnamed : ∀ k, named k ↔ named' k) (hseeds : ∀ k ts, seeds k ts ↔ seeds' k ts)
    (hcopied : ∀ a b, copied a b ↔ copied' a b) : Graph named' seeds' copied' flow := by
  have hn : named = named' := funext fun k => propext (hnamed k)
  have hs : seeds = seeds' := funext fun k => funext fun ts => propext (hseeds k ts)
  have hc : copied = copied' := funext fun a => funext fun b => propext (hcopied a b)
  rwa [← hn, ← hs, ← hc]

end Flow

/-- The keys a binding is about. -/
def Binding.Names (k : Key) : Binding → Prop
  | .Node key => k = key
  | .Seed key _ => k = key
  | .Copy src dst => k = src ∨ k = dst

/-- A key that some binding is about. -/
def Named (bindings : List Binding) (k : Key) : Prop :=
  ∃ b ∈ bindings, b.Names k

def Seeded (bindings : List Binding) (k : Key) (ts : TypeSet) : Prop :=
  .Seed k ts ∈ bindings

def Copied (bindings : List Binding) (src dst : Key) : Prop :=
  .Copy src dst ∈ bindings

namespace Flow

theorem graph_new : Graph (Named []) (Seeded []) (Copied []) new := by
  refine ⟨List.nodup_nil, rfl, by simp [new], by simp [new, Named], fun k x => ?_, by simp [Copied], by simp [new, Copied]⟩
  have hempty : admitted new.state (new.ids.idxOf k) = ∅ := TypeSet.admits_empty
  simp [hempty, Seeded]

theorem named_append {bindings : List Binding} {b : Binding} {k : Key} :
    Named (bindings ++ [b]) k ↔ Named bindings k ∨ b.Names k := by
  simp only [Named, List.mem_append, List.mem_singleton, or_and_right, exists_or, exists_eq_left]

/-- One more binding. -/
theorem graph_bind {bindings : List Binding} (h : Graph (Named bindings) (Seeded bindings) (Copied bindings) flow)
    (b : Binding) :
    Graph (Named (bindings ++ [b])) (Seeded (bindings ++ [b])) (Copied (bindings ++ [b])) (flow.bind b) := by
  cases b with
  | Node key =>
    refine (h.node key).1.congr (fun k => (named_append (b := .Node key)).symm) (fun k ts => ?_) (fun a b => ?_)
    · simp [Seeded]
    · simp [Copied]
  | Seed key ts =>
    obtain ⟨hnode, hid⟩ := h.node key
    have hbind : flow.bind (.Seed key ts) = (flow.node key).1.seed (flow.node key).2 ts := rfl
    rw [hbind, hid]
    refine (hnode.seed (.inr rfl) ts).congr (fun k => (named_append (b := .Seed key ts)).symm)
      (fun k ts => ?_) (fun a b => ?_)
    · simp [Seeded]
    · simp [Copied]
  | Copy src dst =>
    obtain ⟨hdst, hdid⟩ := h.node dst
    obtain ⟨hsrc, hsid⟩ := hdst.node src
    have hkeep : (flow.node dst).2 = ((flow.node dst).1.node src).1.ids.idxOf dst := by
      rw [hdid]
      exact (idxOf_node ((hdst.ids dst).mpr (.inr rfl)) src).symm
    have hbind : flow.bind (.Copy src dst) =
        ((flow.node dst).1.node src).1.copy ((flow.node dst).1.node src).2 (flow.node dst).2 := rfl
    rw [hbind, hsid, hkeep]
    refine (hsrc.copy (.inr rfl) (.inl (.inr rfl))).congr (fun k => ?_) (fun k ts => ?_) (fun a b => ?_)
    · rw [named_append, or_assoc, Binding.Names, Or.comm (a := k = dst)]
    · simp [Seeded]
    · simp [Copied]

theorem graph_bound (bindings : List Binding) :
    Graph (Named bindings) (Seeded bindings) (Copied bindings) (bound bindings) := by
  induction bindings using List.reverseRecOn with
  | nil => exact graph_new
  | append_singleton bindings b ih =>
    rw [bound, List.foldl_append]
    exact graph_bind ih b

end Flow

end cgx.receiver
