import Mathlib.Data.List.Perm.Basic
import Cgx.Lib.Condense

open sorting tarjan Relation Std

namespace cgx.resolve

/-- A set of ordered keys, as the list of them in ascending order. -/
structure KeySet {N : Type} (cmp : N → N → Ordering) where
  keys : List N
  ascending : keys.Pairwise fun a b => cmp a b = .lt

section tarjan_sccs

variable {N : Type} (cmp : N → N → Ordering)

/-- The dense index of a node, if the key is a node. -/
def index_of (node_vec : List N) (key : N) : Option Nat :=
  node_vec.findIdx? fun n => cmp key n = .eq

/-- The adjacency as index lists. What is no node is left out. -/
def adjacency (nodes : KeySet cmp) (succ : N → Option (KeySet cmp)) : List (List Nat) :=
  nodes.keys.map fun n =>
    match succ n with
    | some targets => targets.keys.filterMap (index_of cmp nodes.keys)
    | none => []

/-- The successors of an index. -/
def adj (nodes : KeySet cmp) (succ : N → Option (KeySet cmp)) (v : Nat) : List Nat :=
  (adjacency cmp nodes succ).getD v []

/-- Components stay in the order in which they are popped: they are sorted by name. -/
def unsorted (_ _ : Nat) : Ordering :=
  .eq

/-- Rounds until the search stack is empty, if the fuel lasts. -/
def search_rounds (adj : Nat → List Nat) : Nat → State Nat → Option (State Nat)
  | 0, s => if s.call_stack.isEmpty then some s else none
  | fuel + 1, s =>
    match step unsorted adj s with
    | none => some s
    | some s => search_rounds adj fuel s

/-- Search from a start that is not visited. -/
def search_start (adj : Nat → List Nat) (fuel : Nat) (s : State Nat) (start : Nat) : Option (State Nat) :=
  match s.idx start with
  | some _ => some s
  | none => search_rounds adj fuel (enter adj start s)

/-- Tarjan's strongly connected components, in reverse topological order. -/
def tarjan_sccs (fuel : Nat) (nodes : KeySet cmp) (succ : N → Option (KeySet cmp)) : Option (List (List N)) := do
  let s ← (List.range nodes.keys.length).foldlM (search_start (adj cmp nodes succ) fuel) .start
  return s.sccs.map fun comp => sort_by cmp (comp.filterMap fun i => nodes.keys[i]?)

/-- An edge from a node to a node. -/
def Leads (nodes : KeySet cmp) (succ : N → Option (KeySet cmp)) (x y : N) : Prop :=
  x ∈ nodes.keys ∧ y ∈ nodes.keys ∧ ∃ targets, succ x = some targets ∧ y ∈ targets.keys

/-- The classes of mutual reachability, each sorted, and each after those it leads to. -/
structure SccsInOrder (nodes : KeySet cmp) (succ : N → Option (KeySet cmp)) (sccs : List (List N)) : Prop where
  nodup : sccs.flatten.Nodup
  mem_iff : ∀ n, n ∈ sccs.flatten ↔ n ∈ nodes.keys
  nonempty : ∀ comp ∈ sccs, comp ≠ []
  classes : ∀ x ∈ nodes.keys, ∀ y ∈ nodes.keys, (∃ comp ∈ sccs, x ∈ comp ∧ y ∈ comp) ↔
    ReflTransGen (Leads cmp nodes succ) x y ∧ ReflTransGen (Leads cmp nodes succ) y x
  sorted : ∀ comp ∈ sccs, comp.Pairwise fun a b => cmp a b = .lt
  emitted_before : ∀ before comp after, sccs = before ++ comp :: after → ∀ x ∈ comp, ∀ y, Leads cmp nodes succ x y →
    y ∉ comp → ∃ emitted ∈ before, y ∈ emitted

end tarjan_sccs

section rounds

variable {next : Nat → List Nat} {fuel more : Nat} {s : State Nat}

/-- A search whose stack is empty at its end has not run out of fuel. -/
theorem search_rounds_of_empty (hempty : (drain unsorted next fuel s).call_stack = []) :
    search_rounds next fuel s = some (drain unsorted next fuel s) := by
  induction fuel generalizing s with
  | zero =>
    rw [drain] at hempty
    simp [search_rounds, drain, hempty]
  | succ fuel ih =>
    cases hstep : step unsorted next s with
    | none => simp only [search_rounds, drain, hstep]
    | some s' =>
      simp only [drain, hstep] at hempty
      simp only [search_rounds, drain, hstep]
      exact ih hempty

/-- With fuel to spare the search ends where the stack is empty. -/
theorem search_rounds_eq (hempty : (drain unsorted next fuel s).call_stack = []) (hle : fuel ≤ more) :
    search_rounds next more s = some (drain unsorted next fuel s) := by
  have hdrain := drain_of_le hempty hle
  rw [search_rounds_of_empty (by rw [hdrain, hempty]), hdrain]

variable {nodes : List Nat}

theorem search_start_eq (hadj : ∀ v, ∀ w ∈ next v, w ∈ nodes) (h : Inv next nodes none s) (hempty : s.call_stack = [])
    (hfuel : tarjan.fuel next nodes ≤ more) {v : Nat} (hv : v ∈ nodes) :
    search_start next more s v = some (search_from unsorted next nodes s v) := by
  have hspec := search_from_spec unsorted hadj h hempty hv
  cases hidx : s.idx v with
  | some i => simp only [search_start, search_from, hidx]
  | none =>
    simp only [search_from, hidx] at hspec
    simp only [search_start, search_from, hidx]
    exact search_rounds_eq hspec.2.1 hfuel

/-- With fuel to spare every search ends. -/
theorem searches_eq (hadj : ∀ v, ∀ w ∈ next v, w ∈ nodes) (hfuel : tarjan.fuel next nodes ≤ more) {starts : List Nat}
    (hstarts : ∀ v ∈ starts, v ∈ nodes) (h : Inv next nodes none s) (hempty : s.call_stack = []) :
    starts.foldlM (search_start next more) s = some (starts.foldl (search_from unsorted next nodes) s) := by
  induction starts generalizing s with
  | nil => rfl
  | cons v rest ih =>
    have hv := hstarts v List.mem_cons_self
    obtain ⟨hinv, hempty', _⟩ := search_from_spec unsorted hadj h hempty hv
    rw [List.foldlM_cons, search_start_eq hadj h hempty hfuel hv, List.foldl_cons]
    exact ih (fun u hu => hstarts u (List.mem_cons_of_mem v hu)) hinv hempty'

end rounds

section names

variable {N : Type} {cmp : N → N → Ordering} [TransCmp cmp] [LawfulEqCmp cmp] {nodes : KeySet cmp}
  {succ : N → Option (KeySet cmp)}

omit [TransCmp cmp] in
theorem KeySet.nodup (nodes : KeySet cmp) : nodes.keys.Nodup := by
  refine nodes.ascending.imp fun {a b} hlt heq => ?_
  have hself : cmp a b = .eq := LawfulEqCmp.compare_eq_iff_eq.mpr heq
  rw [hself] at hlt
  cases hlt

/-- An index stands for the node at its place. -/
theorem index_of_eq_some {n : N} {i : Nat} : index_of cmp nodes.keys n = some i ↔ nodes.keys[i]? = some n := by
  unfold index_of
  rw [List.findIdx?_eq_some_iff_getElem]
  constructor
  · rintro ⟨hi, heq, _⟩
    rw [List.getElem?_eq_getElem hi, LawfulEqCmp.eq_of_compare (of_decide_eq_true heq)]
  · intro hget
    obtain ⟨hi, heq⟩ := List.getElem?_eq_some_iff.mp hget
    refine ⟨hi, by simp [heq, ReflCmp.compare_self], fun j hj => ?_⟩
    have hlt : cmp nodes.keys[j] nodes.keys[i] = .lt := List.pairwise_iff_getElem.mp nodes.ascending j i _ hi hj
    rw [heq] at hlt
    have hgt : cmp n nodes.keys[j] = .gt := OrientedCmp.gt_of_lt hlt
    simp [hgt]

/-- The edges of the indices are those of the nodes they stand for. -/
theorem mem_adj_iff {i j : Nat} :
    j ∈ adj cmp nodes succ i ↔ ∃ x y, nodes.keys[i]? = some x ∧ nodes.keys[j]? = some y ∧
      Leads cmp nodes succ x y := by
  unfold adj adjacency
  rw [List.getD_eq_getElem?_getD, List.getElem?_map]
  cases hx : nodes.keys[i]? with
  | none => simp
  | some x =>
    simp only [Option.map_some, Option.getD_some]
    cases htargets : succ x with
    | none => simp [Leads, htargets]
    | some targets =>
      simp only [List.mem_filterMap, index_of_eq_some]
      constructor
      · rintro ⟨y, hy, hget⟩
        exact ⟨x, y, rfl, hget, List.mem_of_getElem? hx, List.mem_of_getElem? hget, targets, htargets, hy⟩
      · rintro ⟨x', y, hx', hget, _, _, targets', htargets', hy⟩
        cases hx'
        rw [htargets] at htargets'
        cases htargets'
        exact ⟨y, hy, hget⟩

omit [TransCmp cmp] in
theorem index_unique {i j : Nat} {n : N} (hi : nodes.keys[i]? = some n) (hj : nodes.keys[j]? = some n) : i = j :=
  (List.getElem?_inj (List.getElem?_eq_some_iff.mp hi).1 nodes.nodup).mp (hi.trans hj.symm)

/-- A path of indices is a path of the nodes they stand for. -/
theorem names_path {i j : Nat} {x : N} (hx : nodes.keys[i]? = some x)
    (hpath : ReflTransGen (Edge (adj cmp nodes succ)) i j) :
    ∃ y, nodes.keys[j]? = some y ∧ ReflTransGen (Leads cmp nodes succ) x y := by
  induction hpath with
  | refl => exact ⟨x, hx, .refl⟩
  | tail _ hedge ih =>
    obtain ⟨m, hm, hreach⟩ := ih
    obtain ⟨m', y, hm', hy, hleads⟩ := mem_adj_iff.mp hedge
    rw [hm] at hm'
    cases hm'
    exact ⟨y, hy, hreach.tail hleads⟩

theorem index_path {i : Nat} {x y : N} (hx : nodes.keys[i]? = some x) (hpath : ReflTransGen (Leads cmp nodes succ) x y) :
    ∃ j, nodes.keys[j]? = some y ∧ ReflTransGen (Edge (adj cmp nodes succ)) i j := by
  induction hpath with
  | refl => exact ⟨i, hx, .refl⟩
  | tail _ hleads ih =>
    obtain ⟨m, hm, hreach⟩ := ih
    obtain ⟨j, hj⟩ := List.mem_iff_getElem?.mp hleads.2.1
    exact ⟨j, hj, hreach.tail (mem_adj_iff.mpr ⟨_, _, hm, hj, hleads⟩)⟩

theorem reach_iff {i j : Nat} {x y : N} (hx : nodes.keys[i]? = some x) (hy : nodes.keys[j]? = some y) :
    ReflTransGen (Edge (adj cmp nodes succ)) i j ↔ ReflTransGen (Leads cmp nodes succ) x y := by
  constructor
  · intro hpath
    obtain ⟨y', hy', hreach⟩ := names_path hx hpath
    rw [hy] at hy'
    cases hy'
    exact hreach
  · intro hpath
    obtain ⟨j', hj', hreach⟩ := index_path hx hpath
    rw [index_unique hy hj']
    exact hreach

/-- The names of a component, sorted. -/
def named (cmp : N → N → Ordering) (nodes : KeySet cmp) (comp : List Nat) : List N :=
  sort_by cmp (comp.filterMap fun i => nodes.keys[i]?)

omit [TransCmp cmp] [LawfulEqCmp cmp] in
theorem mem_named {comp : List Nat} {x : N} : x ∈ named cmp nodes comp ↔ ∃ i ∈ comp, nodes.keys[i]? = some x := by
  rw [named, mem_sort_by, List.mem_filterMap]

/-- The named components of indices are those of the nodes. -/
theorem named_in_order {sccs : List (List Nat)}
    (h : Condensation (adj cmp nodes succ) (List.range nodes.keys.length) sccs) :
    SccsInOrder cmp nodes succ (sccs.map (named cmp nodes)) where
  nodup := by
    have hperm : (sccs.map (named cmp nodes)).flatten.Perm (sccs.flatten.filterMap fun i => nodes.keys[i]?) := by
      rw [← List.flatMap_def, List.filterMap_flatten, ← List.flatMap_def]
      exact List.Perm.flatMap_left sccs fun comp _ => perm_sort_by _
    refine hperm.nodup_iff.mpr (h.nodup.filterMap fun i j x hi hj => ?_)
    exact index_unique hi hj
  mem_iff n := by
    rw [List.mem_flatten]
    constructor
    · rintro ⟨names, hnames, hn⟩
      obtain ⟨comp, _, rfl⟩ := List.mem_map.mp hnames
      obtain ⟨i, _, hget⟩ := mem_named.mp hn
      exact List.mem_of_getElem? hget
    · intro hn
      obtain ⟨i, hi⟩ := List.mem_iff_getElem?.mp hn
      have hmem : i ∈ List.range nodes.keys.length := List.mem_range.mpr (List.getElem?_eq_some_iff.mp hi).1
      obtain ⟨comp, hcomp, hic⟩ := List.mem_flatten.mp ((h.mem_iff i).mpr hmem)
      exact ⟨_, List.mem_map_of_mem hcomp, mem_named.mpr ⟨i, hic, hi⟩⟩
  nonempty := by
    intro names hnames
    obtain ⟨comp, hcomp, rfl⟩ := List.mem_map.mp hnames
    obtain ⟨i, hi⟩ := List.exists_mem_of_ne_nil comp (h.nonempty comp hcomp)
    have hlt := List.mem_range.mp ((h.mem_iff i).mp (List.mem_flatten.mpr ⟨comp, hcomp, hi⟩))
    exact List.ne_nil_of_mem (mem_named.mpr ⟨i, hi, List.getElem?_eq_getElem hlt⟩)
  classes x hx y hy := by
    obtain ⟨i, hi⟩ := List.mem_iff_getElem?.mp hx
    obtain ⟨j, hj⟩ := List.mem_iff_getElem?.mp hy
    have hmem : i ∈ List.range nodes.keys.length := List.mem_range.mpr (List.getElem?_eq_some_iff.mp hi).1
    rw [← reach_iff hi hj, ← reach_iff hj hi, ← h.same_iff hmem]
    constructor
    · rintro ⟨names, hnames, hxn, hyn⟩
      obtain ⟨comp, hcomp, rfl⟩ := List.mem_map.mp hnames
      obtain ⟨i', hi', hget⟩ := mem_named.mp hxn
      obtain ⟨j', hj', hget'⟩ := mem_named.mp hyn
      rw [index_unique hi hget, index_unique hj hget']
      exact ⟨comp, hcomp, hi', hj'⟩
    · rintro ⟨comp, hcomp, hic, hjc⟩
      exact ⟨_, List.mem_map_of_mem hcomp, mem_named.mpr ⟨i, hic, hi⟩, mem_named.mpr ⟨j, hjc, hj⟩⟩
  sorted := by
    intro names hnames
    obtain ⟨comp, hcomp, rfl⟩ := List.mem_map.mp hnames
    have hnodup : (named cmp nodes comp).Nodup := by
      refine (perm_sort_by _).nodup_iff.mpr (List.Nodup.filterMap (fun i j x hi hj => index_unique hi hj) ?_)
      exact (List.nodup_flatten.mp h.nodup).1 comp hcomp
    have hle : (named cmp nodes comp).Pairwise fun a b => (cmp a b).isLE := pairwise_sort_by _
    refine hle.imp₂ (fun {a b} hle hne => ?_) hnodup
    cases hcmp : cmp a b with
    | lt => rfl
    | eq => exact absurd (LawfulEqCmp.eq_of_compare hcmp) hne
    | gt => simp [hcmp] at hle
  emitted_before := by
    intro before names after hsplit x hx y hleads hy
    obtain ⟨ibefore, itail, rfl, rfl, htail⟩ := List.map_eq_append_iff.mp hsplit
    obtain ⟨comp, iafter, rfl, rfl, rfl⟩ := List.map_eq_cons_iff.mp htail
    obtain ⟨i, hi, hget⟩ := mem_named.mp hx
    obtain ⟨j, hj⟩ := List.mem_iff_getElem?.mp hleads.2.1
    obtain hbefore | hsame := h.ordered ibefore comp iafter rfl i hi j (mem_adj_iff.mpr ⟨x, y, hget, hj, hleads⟩)
    · obtain ⟨emitted, hemitted, hje⟩ := List.mem_flatten.mp hbefore
      exact ⟨named cmp nodes emitted, List.mem_map_of_mem hemitted, mem_named.mpr ⟨j, hje, hj⟩⟩
    · exact absurd (mem_named.mpr ⟨j, hsame, hj⟩) hy

end names

/-- Tarjan's algorithm ends on every graph, with the classes of mutual reachability of its
nodes, each sorted, and each emitted after those that an edge leads to. -/
theorem tarjan_sccs_correct {N : Type} {cmp : N → N → Ordering} [TransCmp cmp] [LawfulEqCmp cmp] (nodes : KeySet cmp)
    (succ : N → Option (KeySet cmp)) :
    ∃ sccs, (∃ rounds, ∀ fuel ≥ rounds, tarjan_sccs cmp fuel nodes succ = some sccs) ∧
      SccsInOrder cmp nodes succ sccs := by
  have hadj : ∀ v, ∀ w ∈ adj cmp nodes succ v, w ∈ List.range nodes.keys.length := by
    intro v w hw
    obtain ⟨_, _, _, hget, _⟩ := mem_adj_iff.mp hw
    exact List.mem_range.mpr (List.getElem?_eq_some_iff.mp hget).1
  refine ⟨_, ⟨tarjan.fuel (adj cmp nodes succ) (List.range nodes.keys.length), fun fuel hfuel => ?_⟩,
    named_in_order (searches_condense unsorted hadj)⟩
  rw [tarjan_sccs, searches_eq hadj hfuel (fun _ hv => hv) inv_start rfl]
  rfl

/-- `0` and `1` call each other, `1` calls `2`, and `7` is no node. -/
def call_cycle : Nat → Option (KeySet (compare : Nat → Nat → Ordering))
  | 0 => some ⟨[1, 7], by decide⟩
  | 1 => some ⟨[0, 2], by decide⟩
  | _ => none

theorem tarjan_sccs_correct_call_cycle :
    ∃ sccs, (∃ rounds, ∀ fuel ≥ rounds, tarjan_sccs compare fuel ⟨[0, 1, 2], by decide⟩ call_cycle = some sccs) ∧
      SccsInOrder compare ⟨[0, 1, 2], by decide⟩ call_cycle sccs :=
  tarjan_sccs_correct _ _

end cgx.resolve
