import Cgx.Query.Closure
import Cgx.Query.Rows

open cgx.core walks sorting Std

namespace cgx.query

open PathWalker

namespace impacted

/-- How a chain goes on from a node: over the call it makes, or from a symbol to a
lambda it encloses. -/
inductive Link where
  | call (edge : EdgeRecord)
  | lift
deriving DecidableEq

/-- A link leads from `x` to `y`. -/
def Joins (view : GraphView) (walker : PathWalker) : Link → NodeId → NodeId → Prop
  | .call edge, x, y =>
    edge ∈ view.edges ∧ walker.filter.admits edge = true ∧ view.over_cap walker.filter edge = false ∧
      edge.src = x ∧ edge.dst = y
  | .lift, x, y =>
    (view.node y).kind = .Lambda ∧ lambda_owner_fqn (view.node y).fqn = some (view.node x).fqn

/-- The links lead along the chain. -/
def Joined (view : GraphView) (walker : PathWalker) : List NodeId → List Link → Prop
  | [_], [] => True
  | x :: y :: chain, link :: links => Joins view walker link x y ∧ Joined view walker (y :: chain) links
  | _, _ => False

/-- The exceptional flag after walking a chain from its end, the changed symbol, to its
start. A lift crosses no edge. -/
def flag_over : List Link → Bool
  | [] => false
  | .call edge :: links => advance_exceptional (flag_over links) edge
  | .lift :: links => flag_over links

def Link.confidence : Link → Option Confidence
  | .call edge => some edge.confidence
  | .lift => none

variable {view : GraphView} {walker : PathWalker} {changed : List NodeId}

namespace Marks

/-- The chain recorded behind a node, its links, and the flag a row of the node is shown
with: that of the discovery closest to the node. -/
inductive Traces (m : Marks) : NodeId → List NodeId → List Link → Bool → Prop
  | root {n : NodeId} : m.via_of n = none → m.lift_from n = none → Traces m n [n] [] false
  | lift {n x : NodeId} {chain : List NodeId} {links : List Link} {shown : Bool} :
    m.via_of n = none → m.lift_from n = some x → Traces m x chain links shown →
    Traces m n (n :: chain) (.lift :: links) shown
  | walk {n : NodeId} {d : Discovered} {chain : List NodeId} {links : List Link} {shown : Bool} :
    m.lift_from n = none → m.via_of n = some d → Traces m d.via.dst chain links shown →
    Traces m n (n :: chain) (.call d.via :: links) d.exception_transient

section traces

variable {m m' : Marks} {n : NodeId} {chain : List NodeId} {links : List Link} {shown : Bool}

theorem Traces.unique {chain' : List NodeId} {links' : List Link} {shown' : Bool}
    (h : m.Traces n chain links shown) (h' : m.Traces n chain' links' shown') :
    chain = chain' ∧ links = links' ∧ shown = shown' := by
  induction h generalizing chain' links' shown' with
  | root hvia hlift =>
    cases h' with
    | root => exact ⟨rfl, rfl, rfl⟩
    | lift _ hlift' => rw [hlift] at hlift'; cases hlift'
    | walk _ hvia' => rw [hvia] at hvia'; cases hvia'
  | lift hvia hlift _ ih =>
    cases h' with
    | root _ hlift' => rw [hlift] at hlift'; cases hlift'
    | lift _ hlift' htail =>
      rw [hlift] at hlift'
      cases hlift'
      obtain ⟨rfl, rfl, rfl⟩ := ih htail
      exact ⟨rfl, rfl, rfl⟩
    | walk _ hvia' => rw [hvia] at hvia'; cases hvia'
  | walk hlift hvia _ ih =>
    cases h' with
    | root hvia' => rw [hvia] at hvia'; cases hvia'
    | lift hvia' => rw [hvia] at hvia'; cases hvia'
    | walk _ hvia' htail =>
      rw [hvia] at hvia'
      cases hvia'
      obtain ⟨rfl, rfl, -⟩ := ih htail
      exact ⟨rfl, rfl, rfl⟩

theorem Traces.length (h : m.Traces n chain links shown) : chain.length = links.length + 1 := by
  induction h with
  | root => rfl
  | lift _ _ _ ih => simp [ih]
  | walk _ _ _ ih => simp [ih]

theorem Traces.head (h : m.Traces n chain links shown) : ∃ rest, chain = n :: rest := by
  cases h with
  | root => exact ⟨_, rfl⟩
  | lift => exact ⟨_, rfl⟩
  | walk => exact ⟨_, rfl⟩

/-- A chain stays where the records of its nodes do. -/
theorem Traces.frame (h : m.Traces n chain links shown)
    (hsame : ∀ c ∈ chain, m'.via_of c = m.via_of c ∧ m'.lift_from c = m.lift_from c) :
    m'.Traces n chain links shown := by
  induction h with
  | root hvia hlift =>
    obtain ⟨hvia', hlift'⟩ := hsame _ List.mem_cons_self
    exact .root (hvia'.trans hvia) (hlift'.trans hlift)
  | lift hvia hlift _ ih =>
    obtain ⟨hvia', hlift'⟩ := hsame _ List.mem_cons_self
    exact .lift (hvia'.trans hvia) (hlift'.trans hlift) (ih fun c hc => hsame c (List.mem_cons_of_mem _ hc))
  | walk hlift hvia _ ih =>
    obtain ⟨hvia', hlift'⟩ := hsame _ List.mem_cons_self
    exact .walk (hlift'.trans hlift) (hvia'.trans hvia) (ih fun c hc => hsame c (List.mem_cons_of_mem _ hc))

/-- The weakest confidence so far and the next link's. -/
def weaken (weakest : Confidence) : Link → Confidence
  | .call edge => weakest.weakest edge.confidence
  | .lift => weakest

/-- The loop of the witness follows the recorded chain. -/
theorem Traces.trace_eq (h : m.Traces n chain links shown) {fuel : Nat} (hfuel : links.length ≤ fuel)
    (before : List NodeId) (weakest : Confidence) (lifted : Bool) :
    m.trace fuel n before weakest lifted =
      (before ++ chain.tail, links.foldl weaken weakest, lifted || decide (.lift ∈ links)) := by
  induction h generalizing fuel before weakest lifted with
  | root hvia hlift => cases fuel <;> simp [trace, hvia, hlift]
  | lift hvia hlift htail ih =>
    cases fuel with
    | zero => simp at hfuel
    | succ fuel =>
      obtain ⟨rest, rfl⟩ := htail.head
      rw [trace, hlift]
      simp only []
      rw [ih (Nat.le_of_succ_le_succ hfuel)]
      simp [weaken]
  | walk hlift hvia htail ih =>
    cases fuel with
    | zero => simp at hfuel
    | succ fuel =>
      obtain ⟨rest, hrest⟩ := htail.head
      rw [trace, hlift, hvia]
      simp only []
      rw [ih (Nat.le_of_succ_le_succ hfuel)]
      simp [weaken, hrest]

/-- The row shows the flag of the discovery closest to its node. -/
theorem Traces.discovery_eq (h : m.Traces n chain links shown) {fuel : Nat} (hfuel : links.length < fuel) :
    ((m.discovery fuel n).map Discovered.exception_transient).getD false = shown := by
  induction h generalizing fuel with
  | root hvia hlift => cases fuel <;> simp [discovery, hvia, hlift]
  | lift hvia hlift _ ih =>
    cases fuel with
    | zero => simp at hfuel
    | succ fuel =>
      rw [discovery, hvia, hlift]
      exact ih (Nat.lt_of_succ_lt_succ hfuel)
  | walk hlift hvia _ _ =>
    cases fuel with
    | zero => simp at hfuel
    | succ fuel =>
      rw [discovery, hvia]
      rfl

end traces

/-- Behind each marked node a chain of marked nodes is recorded, none of them twice,
that leads along admitted edges and lifts to a changed symbol. -/
structure Stitched (view : GraphView) (walker : PathWalker) (changed : List NodeId) (m : Marks) : Prop where
  unmarked : ∀ n ∉ m.reached, m.via_of n = none ∧ m.lift_from n = none
  traced : ∀ n ∈ m.reached, ∃ chain links shown, m.Traces n chain links shown ∧ chain.Nodup ∧
    (∀ c ∈ chain, c ∈ m.reached) ∧ Joined view walker chain links ∧
    ∃ root ∈ seeds view changed, chain.getLast? = some root

/-- `m'` is `m` with the node `n` marked. -/
structure MarksNext (m : Marks) (n : NodeId) (m' : Marks) : Prop where
  fresh : n ∉ m.reached
  reached : m'.reached = n :: m.reached
  via_of : ∀ c, c ≠ n → m'.via_of c = m.via_of c
  lift_from : ∀ c, c ≠ n → m'.lift_from c = m.lift_from c

section marks_next

variable {m m' : Marks} {n : NodeId}

/-- Marking another node leaves the recorded chains alone. -/
theorem MarksNext.traces (h : MarksNext m n m') {p : NodeId} {chain : List NodeId} {links : List Link}
    {shown : Bool} (htrace : m.Traces p chain links shown) (hmarked : ∀ c ∈ chain, c ∈ m.reached) :
    m'.Traces p chain links shown := by
  refine htrace.frame fun c hc => ?_
  have hne : c ≠ n := by
    rintro rfl
    exact h.fresh (hmarked c hc)
  exact ⟨h.via_of c hne, h.lift_from c hne⟩

/-- The new node's chain goes through a marked node. -/
theorem Stitched.mark (hm : Stitched view walker changed m) (h : MarksNext m n m') {p : NodeId} {link : Link}
    (hp : p ∈ m.reached) (hjoins : Joins view walker link n p)
    (hnew : ∀ chain links shown, m'.Traces p chain links shown →
      ∃ shown', m'.Traces n (n :: chain) (link :: links) shown') :
    Stitched view walker changed m' := by
  have hold : ∀ c ∈ m.reached, c ∈ m'.reached := fun c hc => h.reached ▸ List.mem_cons_of_mem _ hc
  refine ⟨fun c hc => ?_, fun c hc => ?_⟩
  · rw [h.reached, List.mem_cons, not_or] at hc
    rw [h.via_of c hc.1, h.lift_from c hc.1]
    exact hm.unmarked c hc.2
  · rw [h.reached] at hc
    obtain rfl | hc := List.mem_cons.mp hc
    · obtain ⟨chain, links, shown, htrace, hnodup, hmarked, hjoined, root, hroot, hlast⟩ := hm.traced p hp
      obtain ⟨shown', htrace'⟩ := hnew chain links shown (h.traces htrace hmarked)
      obtain ⟨rest, hhead⟩ := htrace.head
      refine ⟨c :: chain, link :: links, shown', htrace', ?_, ?_, ?_, root, hroot, ?_⟩
      · exact List.nodup_cons.mpr ⟨fun hmem => h.fresh (hmarked c hmem), hnodup⟩
      · intro c' hc'
        obtain rfl | hc' := List.mem_cons.mp hc'
        · exact h.reached ▸ List.mem_cons_self
        · exact hold c' (hmarked c' hc')
      · subst hhead
        exact ⟨hjoins, hjoined⟩
      · subst hhead
        rw [List.getLast?_cons_cons]
        exact hlast
    · obtain ⟨chain, links, shown, htrace, hnodup, hmarked, hrest⟩ := hm.traced c hc
      exact ⟨chain, links, shown, h.traces htrace hmarked, hnodup, fun c' hc' => hold c' (hmarked c' hc'), hrest⟩

end marks_next

end Marks

/-! ## The records of one walk -/

/-- The flag a root's walk carries to a node. -/
def carries (view : GraphView) (walker : PathWalker) (r n : NodeId) : Bool :=
  (((walker.bfs view r .Backward).find? fun d => d.node = n).map Discovered.exception_transient).getD false

theorem bfs_nodup (r : NodeId) : ((walker.bfs view r .Backward).map Discovered.node).Nodup := by
  have hperm : ((walker.bfs view r .Backward).map Discovered.node).Perm
      ((walker.hops_search view r .Backward).map Found.node) := by
    rw [bfs_eq_map]
    refine ((perm_sort_by _).map _).trans (List.Perm.of_eq ?_)
    rw [List.map_map]
    rfl
  exact hperm.nodup_iff.mpr (hops_search_nodup r)

theorem carries_of_mem {r : NodeId} {d : Discovered} (hd : d ∈ walker.bfs view r .Backward) :
    carries view walker r d.node = d.exception_transient := by
  have hsome : ((walker.bfs view r .Backward).find? fun d' => d'.node = d.node).isSome = true :=
    List.find?_isSome.mpr ⟨d, hd, decide_eq_true rfl⟩
  obtain ⟨d', hd'⟩ := Option.isSome_iff_exists.mp hsome
  have hnode : d'.node = d.node := of_decide_eq_true (List.find?_some hd' :)
  have hsame : d' = d := List.inj_on_of_nodup_map (bfs_nodup r) (List.mem_of_find?_eq_some hd') hd hnode
  rw [carries, hd', hsame]
  rfl

theorem carries_root (r : NodeId) : carries view walker r r = false := by
  have hnone : (walker.bfs view r .Backward).find? (fun d => d.node = r) = none := by
    rw [List.find?_eq_none]
    intro d hd
    simpa using (bfs_sound hd).2.2.1
  rw [carries, hnone]
  rfl

/-- A record of a walk follows from the root or from a record of less depth, over an
admitted edge, with the flag carried on over it. -/
theorem bfs_prev {r : NodeId} {d : Discovered} (hd : d ∈ walker.bfs view r .Backward) :
    Joins view walker (.call d.via) d.node d.via.dst ∧
      d.exception_transient = advance_exceptional (carries view walker r d.via.dst) d.via ∧
      (d.via.dst = r ∨ ∃ d' ∈ walker.bfs view r .Backward, d'.node = d.via.dst ∧ d'.depth < d.depth) := by
  have hmem : ∀ {d : Discovered}, d ∈ walker.bfs view r .Backward ↔
      ∃ f ∈ walker.frontier_search view r .Backward advance_exceptional false,
        (⟨f.node, f.depth, f.via, f.carry⟩ : Discovered) = d := by
    intro d
    rw [bfs, mem_sort_by, List.mem_map]
  obtain ⟨f, hf, rfl⟩ := hmem.mp hd
  obtain ⟨e, hentry, hprev, hdepth, hrow, hcarry⟩ := search_prev hf
  obtain ⟨hedge, horigin, hpeer, -, hadmits, hcap⟩ := GraphView.mem_neighbors.mp (mem_nbrs.mp hrow).1
  have hdst : f.via.dst = f.prev := horigin
  have hsrc : f.node = f.via.src := hpeer
  refine ⟨⟨hedge, hadmits, hcap, hsrc.symm, rfl⟩, ?_⟩
  simp only [hdst]
  obtain hstart | ⟨g, hg, rfl⟩ := hentry
  · rw [List.mem_singleton.mp hstart] at hprev hcarry
    rw [← hprev, carries_root]
    exact ⟨hcarry, .inl rfl⟩
  · have hd' := hmem.mpr ⟨g, hg, rfl⟩
    have hnode : g.node = f.prev := hprev
    refine ⟨?_, .inr ⟨_, hd', hnode, ?_⟩⟩
    · rw [← hnode, carries_of_mem hd']
      exact hcarry
    · rw [hdepth]
      exact Nat.lt_succ_self _

/-- Each record follows from a known node or from one recorded before it. -/
def Fed (view : GraphView) (walker : PathWalker) (r : NodeId) : List NodeId → List Discovered → Prop
  | _, [] => True
  | known, d :: ds => d ∈ walker.bfs view r .Backward ∧ d.via.dst ∈ known ∧ Fed view walker r (d.node :: known) ds

theorem Fed.mono {r : NodeId} {ds : List Discovered} {known known' : List NodeId} (h : Fed view walker r known ds)
    (hsub : ∀ n ∈ known, n ∈ known') : Fed view walker r known' ds := by
  induction ds generalizing known known' with
  | nil => trivial
  | cons d ds ih =>
    obtain ⟨hd, hdst, hrest⟩ := h
    refine ⟨hd, hsub _ hdst, ih hrest fun n hn => ?_⟩
    obtain rfl | hn := List.mem_cons.mp hn
    · exact List.mem_cons_self
    · exact List.mem_cons_of_mem _ (hsub n hn)

instance : TransCmp discovered_cmp :=
  inferInstanceAs (TransCmp (compareLex (compareOn Discovered.depth) (compareOn fun d => d.node.raw)))

theorem depth_le_of_isLE {a b : Discovered} (h : (discovered_cmp a b).isLE) : a.depth ≤ b.depth := by
  by_contra hlt
  have hgt : compare a.depth b.depth = .gt := Nat.compare_eq_gt.mpr (Nat.lt_of_not_le hlt)
  simp [discovered_cmp, compareLex, compareOn, hgt] at h

/-- The walk's records stand in an order in which each follows from the root or from
earlier ones. -/
theorem fed_bfs (r : NodeId) : Fed view walker r [r] (walker.bfs view r .Backward) := by
  have hsorted : (walker.bfs view r .Backward).Pairwise fun a b => a.depth ≤ b.depth :=
    (pairwise_sort_by _).imp depth_le_of_isLE
  have hsuffix : ∀ ds before, walker.bfs view r .Backward = before ++ ds →
      Fed view walker r ((before.map Discovered.node).reverse ++ [r]) ds := by
    intro ds
    induction ds with
    | nil => exact fun _ _ => trivial
    | cons d ds ih =>
      intro before hsplit
      have hd : d ∈ walker.bfs view r .Backward := by simp [hsplit]
      refine ⟨hd, ?_, ?_⟩
      · obtain hroot | ⟨d', hd', hnode, hless⟩ := (bfs_prev hd).2.2
        · simp [hroot]
        · -- a record of less depth stands before `d`
          rw [hsplit] at hd' hsorted
          obtain hbefore | hafter := List.mem_append.mp hd'
          · rw [← hnode]
            exact List.mem_append_left _ (List.mem_reverse.mpr (List.mem_map_of_mem hbefore))
          · obtain rfl | hafter := List.mem_cons.mp hafter
            · omega
            · have hle := (List.pairwise_cons.mp (List.pairwise_append.mp hsorted).2.1).1 d' hafter
              omega
      · have hrest := ih (before ++ [d]) (by simp [hsplit])
        simpa using hrest
  exact hsuffix _ [] rfl

end impacted

end cgx.query
