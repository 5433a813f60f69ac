import Cgx.Lib.Result
import Cgx.Store.Shard

open cgx.core sorting buckets results Std

namespace cgx.store

/-! ### Candidate groups -/

/-- Every group of `edges`, read behind the groups `seen`, is new or was seen with the
same source. -/
def GroupsNumbered : List NodeId → List EdgeRecord → Prop
  | _, [] => True
  | seen, e :: rest =>
    (∀ gr, e.candidate_group = some gr →
      gr.toNat ≤ seen.length ∧ (push_group seen e)[gr.toNat]? = some e.src) ∧
    GroupsNumbered (push_group seen e) rest

theorem push_group_grows (seen : List NodeId) (e : EdgeRecord) : seen <+: push_group seen e := by
  rw [push_group]
  split
  · split
    · exact List.prefix_append ..
    · exact List.prefix_refl _
  · exact List.prefix_refl _

theorem foldl_push_group_grows (edges : List EdgeRecord) (seen : List NodeId) :
    seen <+: edges.foldl push_group seen := by
  induction edges generalizing seen with
  | nil => exact List.prefix_refl _
  | cons e rest ih => exact (push_group_grows seen e).trans (ih _)

/-- The source noted for a group is the source of each of its edges. -/
theorem GroupsNumbered.source {edges : List EdgeRecord} {seen : List NodeId}
    (h : GroupsNumbered seen edges) {e : EdgeRecord} (he : e ∈ edges) {gr : UInt32}
    (hgr : e.candidate_group = some gr) :
    (edges.foldl push_group seen)[gr.toNat]? = some e.src := by
  induction edges generalizing seen with
  | nil => cases he
  | cons e' rest ih =>
    obtain ⟨hhead, hrest⟩ := h
    rw [List.foldl_cons]
    cases List.mem_cons.mp he with
    | inl heq =>
      subst heq
      have hat := (hhead gr hgr).2
      have hlt := (List.getElem?_eq_some_iff.mp hat).1
      rw [← hat]
      obtain ⟨later, hlater⟩ := foldl_push_group_grows rest (push_group seen e)
      rw [← hlater, List.getElem?_append_left hlt]
    | inr hmem => exact ih hrest hmem

/-! ### What an accepted graph satisfies -/

/-- The canonical form. -/
structure Canonical (g : LinkedGraph) : Prop where
  node_ids : ∀ (i : Nat) (n : NodeRecord), g.nodes[i]? = some n → n.id.index = i
  nodes_sorted : g.nodes.Pairwise fun a b => (node_cmp a b).isLE
  edge_ids : ∀ (i : Nat) (e : EdgeRecord), g.edges[i]? = some e → e.id.index = i
  edge_ends : ∀ e ∈ g.edges, e.src.index < g.nodes.length ∧ e.dst.index < g.nodes.length
  edges_sorted : g.edges.Pairwise fun a b => (edge_cmp a b).isLE
  groups : GroupsNumbered [] g.edges
  candidate_ends : ∀ c ∈ g.candidates,
    c.candidate_group.toNat < g.group_sources.length ∧ c.dst.index < g.nodes.length
  candidates_sorted : g.candidates.Pairwise fun a b => (candidate_cmp a b).isLE

theorem check_node_ids_ok {nodes : List NodeRecord} {i : Nat} (h : check_node_ids i nodes = .ok ()) :
    ∀ (j : Nat) (n : NodeRecord), nodes[j]? = some n → n.id.index = i + j := by
  induction nodes generalizing i with
  | nil => simp
  | cons n rest ih =>
    rw [check_node_ids] at h
    split at h
    · cases h
    · rename_i hid
      intro j m hm
      cases j with
      | zero =>
        cases hm
        omega
      | succ j =>
        have hj := ih h j m (by simpa using hm)
        omega

theorem check_node_order_ok {nodes : List NodeRecord} (h : check_node_order nodes = .ok ()) :
    is_sorted node_cmp nodes = true := by
  induction nodes with
  | nil => rfl
  | cons a rest ih =>
    cases rest with
    | nil => rfl
    | cons b rest =>
      rw [check_node_order] at h
      split at h
      · cases h
      · rename_i hgt
        have hrest := ih h
        simp only [is_sorted, List.tail_cons, List.zip_cons_cons, List.all_cons] at hrest ⊢
        rw [hrest, Bool.and_true]
        exact Ordering.isLE_iff_ne_gt.mpr hgt

theorem push_group_of_some {seen : List NodeId} {e : EdgeRecord} {gr : UInt32}
    (h : e.candidate_group = some gr) :
    push_group seen e = if gr.toNat = seen.length then seen ++ [e.src] else seen := by
  rw [push_group, h]

theorem check_group_ok {seen seen' : List NodeId} {e : EdgeRecord} (h : check_group seen e = .ok seen') :
    seen' = push_group seen e ∧ ∀ gr, e.candidate_group = some gr →
      gr.toNat ≤ seen.length ∧ (push_group seen e)[gr.toNat]? = some e.src := by
  rw [check_group] at h
  split at h
  · rename_i hgr
    cases h
    exact ⟨by rw [push_group, hgr], by simp [hgr]⟩
  · rename_i gr hgr
    rw [push_group_of_some hgr]
    have hgr' : ∀ {gr'}, e.candidate_group = some gr' → gr' = gr := by
      intro gr' h'
      exact Option.some.inj (h'.symm.trans hgr)
    split at h
    · rename_i hlt
      split at h
      · rename_i hsrc
        cases h
        rw [if_neg (by omega)]
        refine ⟨rfl, ?_⟩
        intro gr' h'
        rw [hgr' h']
        exact ⟨by omega, hsrc⟩
      · cases h
    · split at h
      · rename_i heq
        cases h
        rw [if_pos heq]
        refine ⟨rfl, ?_⟩
        intro gr' h'
        rw [hgr' h']
        exact ⟨by omega, by simp [heq]⟩
      · cases h

/-- What `check_edges` establishes of the edges behind `prev`. -/
structure EdgesChecked (n i : Nat) (seen : List NodeId) (edges : List EdgeRecord) : Prop where
  ids : ∀ (j : Nat) (e : EdgeRecord), edges[j]? = some e → e.id.index = i + j
  ends : ∀ e ∈ edges, e.src.index < n ∧ e.dst.index < n
  groups : GroupsNumbered seen edges

theorem check_edges_ok {n i : Nat} {prev : Option EdgeRecord} {seen final : List NodeId}
    {edges : List EdgeRecord} (h : check_edges n i prev seen edges = .ok final) :
    EdgesChecked n i seen edges ∧ final = edges.foldl push_group seen ∧
      is_sorted edge_cmp (prev.toList ++ edges) = true := by
  induction edges generalizing i prev seen with
  | nil =>
    cases h
    refine ⟨⟨by simp, by simp, trivial⟩, rfl, ?_⟩
    cases prev <;> rfl
  | cons e rest ih =>
    rw [check_edges] at h
    split at h
    · cases h
    · rename_i hid
      split at h
      · cases h
      · rename_i hends
        split at h
        · cases h
        · rename_i hprev
          split at h
          · cases h
          · rename_i seen' hgroup
            obtain ⟨hseen, hgroups⟩ := check_group_ok hgroup
            subst hseen
            obtain ⟨hrest, hfinal, hsorted⟩ := ih h
            refine ⟨⟨?_, ?_, hgroups, hrest.groups⟩, hfinal, ?_⟩
            · intro j m hm
              cases j with
              | zero =>
                cases hm
                omega
              | succ j =>
                have hj := hrest.ids j m (by simpa using hm)
                omega
            · intro m hm
              cases List.mem_cons.mp hm with
              | inl heq =>
                subst heq
                omega
              | inr hmem => exact hrest.ends m hmem
            · cases prev with
              | none => exact hsorted
              | some p =>
                simp only [Option.toList_some, List.singleton_append] at hsorted ⊢
                simp only [is_sorted, List.tail_cons, List.zip_cons_cons, List.all_cons] at hsorted ⊢
                rw [hsorted, Bool.and_true]
                exact Ordering.isLE_iff_ne_gt.mpr (by simpa using hprev)

theorem check_candidates_ok {n groups : Nat} {prev : Option Candidate} {candidates : List Candidate}
    (h : check_candidates n groups prev candidates = .ok ()) :
    (∀ c ∈ candidates, c.candidate_group.toNat < groups ∧ c.dst.index < n) ∧
      is_sorted candidate_cmp (prev.toList ++ candidates) = true := by
  induction candidates generalizing prev with
  | nil =>
    refine ⟨by simp, ?_⟩
    cases prev <;> rfl
  | cons c rest ih =>
    rw [check_candidates] at h
    split at h
    · cases h
    · rename_i hgroup
      split at h
      · cases h
      · rename_i hdst
        split at h
        · cases h
        · rename_i hprev
          obtain ⟨hrest, hsorted⟩ := ih h
          refine ⟨?_, ?_⟩
          · intro d hd
            cases List.mem_cons.mp hd with
            | inl heq =>
              subst heq
              omega
            | inr hmem => exact hrest d hmem
          · cases prev with
            | none => exact hsorted
            | some p =>
              simp only [Option.toList_some, List.singleton_append] at hsorted ⊢
              simp only [is_sorted, List.tail_cons, List.zip_cons_cons, List.all_cons] at hsorted ⊢
              rw [hsorted, Bool.and_true]
              exact Ordering.isLE_iff_ne_gt.mpr (by simpa using hprev)

/-- An accepted graph is canonical. -/
theorem canonical_of_check {g : LinkedGraph} (h : check_canonical g = .ok ()) : Canonical g := by
  obtain ⟨_, hids, h⟩ := bind_ok_iff.mp h
  obtain ⟨_, horder, h⟩ := bind_ok_iff.mp h
  obtain ⟨group_src, hedges, hcandidates⟩ := bind_ok_iff.mp h
  obtain ⟨hchecked, hsources, hsorted⟩ := check_edges_ok hedges
  obtain ⟨hends, hrows⟩ := check_candidates_ok hcandidates
  subst hsources
  refine ⟨?_, is_sorted_iff.mp (check_node_order_ok horder), ?_, hchecked.ends,
    is_sorted_iff.mp hsorted, hchecked.groups, hends, is_sorted_iff.mp hrows⟩
  · intro i n hn
    simpa using check_node_ids_ok hids i n hn
  · intro i e he
    simpa using hchecked.ids i e he

/-! ### What makes a graph accepted -/

theorem check_node_ids_of {nodes : List NodeRecord} {i : Nat}
    (h : ∀ (j : Nat) (n : NodeRecord), nodes[j]? = some n → n.id.index = i + j) :
    check_node_ids i nodes = .ok () := by
  induction nodes generalizing i with
  | nil => rfl
  | cons n rest ih =>
    have hhead : n.id.index = i := h 0 n rfl
    rw [check_node_ids, if_neg (by simpa using hhead)]
    apply ih
    intro j m hm
    have hj := h (j + 1) m (by simpa using hm)
    omega

theorem check_node_order_of {nodes : List NodeRecord} (h : nodes.Pairwise fun a b => (node_cmp a b).isLE) :
    check_node_order nodes = .ok () := by
  induction nodes with
  | nil => rfl
  | cons a rest ih =>
    cases rest with
    | nil => rfl
    | cons b rest =>
      obtain ⟨ha, hrest⟩ := List.pairwise_cons.mp h
      rw [check_node_order, if_neg (Ordering.isLE_iff_ne_gt.mp (ha b List.mem_cons_self))]
      exact ih hrest

theorem check_group_of {seen : List NodeId} {e : EdgeRecord}
    (h : ∀ gr, e.candidate_group = some gr →
      gr.toNat ≤ seen.length ∧ (push_group seen e)[gr.toNat]? = some e.src) :
    check_group seen e = .ok (push_group seen e) := by
  rw [check_group]
  split
  · rename_i hgr
    rw [push_group, hgr]
  · rename_i gr hgr
    obtain ⟨hle, hat⟩ := h gr hgr
    rw [push_group_of_some hgr] at hat ⊢
    split
    · rename_i hlt
      rw [if_neg (by omega)] at hat
      rw [if_pos hat, if_neg (by omega)]
    · rename_i hge
      rw [if_pos (by omega), if_pos (by omega)]

theorem check_edges_of {n i : Nat} {prev : Option EdgeRecord} {seen : List NodeId} {edges : List EdgeRecord}
    (h : EdgesChecked n i seen edges) (hprev : ∀ p ∈ prev, ∀ e ∈ edges, (edge_cmp p e).isLE)
    (hsorted : edges.Pairwise fun a b => (edge_cmp a b).isLE) :
    check_edges n i prev seen edges = .ok (edges.foldl push_group seen) := by
  induction edges generalizing i prev seen with
  | nil => rfl
  | cons e rest ih =>
    obtain ⟨he, hrest⟩ := List.pairwise_cons.mp hsorted
    have hid : e.id.index = i := h.ids 0 e rfl
    have hends := h.ends e List.mem_cons_self
    have horder : ¬ (prev.any fun p => edge_cmp p e = .gt) = true := by
      simp only [Option.any_eq_true, decide_eq_true_eq, not_exists, not_and]
      intro p hp
      exact Ordering.isLE_iff_ne_gt.mp (hprev p hp e List.mem_cons_self)
    rw [check_edges, if_neg (by simpa using hid), if_neg (by omega), if_neg horder,
      check_group_of h.groups.1]
    apply ih
    · refine ⟨?_, ?_, h.groups.2⟩
      · intro j m hm
        have hj := h.ids (j + 1) m (by simpa using hm)
        omega
      · intro m hm
        exact h.ends m (List.mem_cons_of_mem _ hm)
    · intro p hp m hm
      cases hp
      exact he m hm
    · exact hrest

theorem check_candidates_of {n groups : Nat} {prev : Option Candidate} {candidates : List Candidate}
    (h : ∀ c ∈ candidates, c.candidate_group.toNat < groups ∧ c.dst.index < n)
    (hprev : ∀ p ∈ prev, ∀ c ∈ candidates, (candidate_cmp p c).isLE)
    (hsorted : candidates.Pairwise fun a b => (candidate_cmp a b).isLE) :
    check_candidates n groups prev candidates = .ok () := by
  induction candidates generalizing prev with
  | nil => rfl
  | cons c rest ih =>
    obtain ⟨hc, hrest⟩ := List.pairwise_cons.mp hsorted
    have hends := h c List.mem_cons_self
    have horder : ¬ (prev.any fun p => candidate_cmp p c = .gt) = true := by
      simp only [Option.any_eq_true, decide_eq_true_eq, not_exists, not_and]
      intro p hp
      exact Ordering.isLE_iff_ne_gt.mp (hprev p hp c List.mem_cons_self)
    rw [check_candidates, if_neg (by omega), if_neg (by omega), if_neg horder]
    apply ih
    · intro d hd
      exact h d (List.mem_cons_of_mem _ hd)
    · intro p hp d hd
      cases hp
      exact hc d hd
    · exact hrest

/-- A canonical graph is accepted. -/
theorem check_canonical_of {g : LinkedGraph} (h : Canonical g) : check_canonical g = .ok () := by
  have hedges : check_edges g.nodes.length 0 none [] g.edges = .ok g.group_sources := by
    apply check_edges_of ⟨?_, h.edge_ends, h.groups⟩ (by simp) h.edges_sorted
    intro j e he
    rw [h.edge_ids j e he, Nat.zero_add]
  have hids : check_node_ids 0 g.nodes = .ok () := by
    apply check_node_ids_of
    intro j n hn
    rw [h.node_ids j n hn, Nat.zero_add]
  apply bind_ok_iff.mpr
  refine ⟨(), hids, bind_ok_iff.mpr ⟨(), check_node_order_of h.nodes_sorted, bind_ok_iff.mpr
    ⟨g.group_sources, hedges, ?_⟩⟩⟩
  exact check_candidates_of h.candidate_ends (by simp) h.candidates_sorted

/-- Edges that agree on all that canonical form looks at. -/
structure SameForm (e e' : EdgeRecord) : Prop where
  id : e'.id = e.id
  src : e'.src = e.src
  dst : e'.dst = e.dst
  kind : e'.kind = e.kind
  stmt_index : e'.stmt_index = e.stmt_index
  candidate_group : e'.candidate_group = e.candidate_group

theorem SameForm.edge_cmp {a a' b b' : EdgeRecord} (ha : SameForm a a') (hb : SameForm b b') :
    cgx.core.edge_cmp a' b' = cgx.core.edge_cmp a b := by
  simp only [cgx.core.edge_cmp, compareLex, compareOn, ha.src, ha.dst, ha.kind, ha.stmt_index,
    ha.candidate_group, hb.src, hb.dst, hb.kind, hb.stmt_index, hb.candidate_group]

theorem SameForm.check_group {e e' : EdgeRecord} (h : SameForm e e') (seen : List NodeId) :
    cgx.store.check_group seen e' = cgx.store.check_group seen e := by
  simp only [cgx.store.check_group, h.candidate_group, h.src]

/-- The check does not look at anything else of an edge. -/
theorem check_edges_congr {α : Type} {n i : Nat} {prev : Option α} {seen : List NodeId} {l : List α}
    {f f' : α → EdgeRecord} (hprev : ∀ p ∈ prev, SameForm (f p) (f' p))
    (h : ∀ a ∈ l, SameForm (f a) (f' a)) :
    check_edges n i (prev.map f') seen (l.map f') = check_edges n i (prev.map f) seen (l.map f) := by
  induction l generalizing i prev seen with
  | nil => rfl
  | cons a rest ih =>
    have ha := h a List.mem_cons_self
    have horder : ((prev.map f').any fun p => edge_cmp p (f' a) = .gt) =
        (prev.map f).any fun p => edge_cmp p (f a) = .gt := by
      cases prev with
      | none => rfl
      | some p => simp only [Option.map_some, Option.any_some, (hprev p rfl).edge_cmp ha]
    rw [List.map_cons, List.map_cons, check_edges, check_edges, ha.id, ha.src, ha.dst, horder, ha.check_group]
    have hrest : ∀ seen, check_edges n (i + 1) (some (f' a)) seen (rest.map f') =
        check_edges n (i + 1) (some (f a)) seen (rest.map f) := by
      intro seen
      change check_edges n (i + 1) ((some a).map f') seen (rest.map f') =
        check_edges n (i + 1) ((some a).map f) seen (rest.map f)
      apply ih
      · intro p hp
        cases hp
        exact ha
      · intro b hb
        exact h b (List.mem_cons_of_mem _ hb)
    simp only [hrest]

/-- Dense ids bound the number of nodes. -/
theorem Canonical.nodes_length {g : LinkedGraph} (h : Canonical g) : g.nodes.length ≤ 2 ^ 32 := by
  by_contra hlt
  have hat := List.getElem?_eq_getElem (show 2 ^ 32 < g.nodes.length by omega)
  have hid := h.node_ids _ _ hat
  have hbound := (g.nodes[2 ^ 32]).id.index_lt
  omega

/-- Dense ids bound the number of edges. -/
theorem Canonical.edges_length {g : LinkedGraph} (h : Canonical g) : g.edges.length ≤ 2 ^ 32 := by
  by_contra hlt
  have hat := List.getElem?_eq_getElem (show 2 ^ 32 < g.edges.length by omega)
  have hid := h.edge_ids _ _ hat
  have hbound : (g.edges[2 ^ 32]).id.index < 2 ^ 32 := UInt32.toNat_lt _
  omega

end cgx.store
