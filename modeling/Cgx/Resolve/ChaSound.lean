import Cgx.Core.Edge
import Cgx.Resolve.Sites

open cgx.core sorting Relation

namespace cgx.resolve

/-! ### Splitting names -/

theorem toList_member_fqn (parent method : String) :
    (member_fqn parent method).toList = parent.toList ++ ':' :: ':' :: method.toList := by
  simp [member_fqn]

theorem split_fqn_eq_some {fqn parent method : String} (h : split_fqn fqn = some (parent, method)) :
    fqn = member_fqn parent method := by
  obtain ⟨parts, hparts, heq⟩ := Option.map_eq_some_iff.mp h
  cases heq
  apply String.toList_injective
  rw [toList_member_fqn, (rsplit_once_eq_some hparts).1, String.toList_ofList, String.toList_ofList]

/-- A last segment is the last segment of every member name it ends. -/
theorem split_member_fqn {fqn parent method : String} (h : split_fqn fqn = some (parent, method))
    (other : String) : split_fqn (member_fqn other method) = some (other, method) := by
  obtain ⟨parts, hparts, heq⟩ := Option.map_eq_some_iff.mp h
  cases heq
  obtain ⟨_, hnone, hhead⟩ := rsplit_once_eq_some hparts
  rw [split_fqn, toList_member_fqn, String.toList_ofList, rsplit_once_append hnone hhead,
    Option.map_some, String.ofList_toList]

/-! ### The hierarchy of a graph -/

variable {g : ResolvedGraph} {method : String}

/-- `ty` states that it implements `tr`. -/
def Implements (g : ResolvedGraph) (ty tr : String) : Prop :=
  (ty, tr) ∈ fqn_edges g .Implements

/-- `sub` states that it inherits `sup`. -/
def Inherits (g : ResolvedGraph) (sub sup : String) : Prop :=
  (sub, sup) ∈ fqn_edges g .Inherits

/-- One step up the hierarchy, by an edge of either kind. -/
def Above (g : ResolvedGraph) (a b : String) : Prop :=
  Implements g a b ∨ Inherits g a b

/-- A method or function of that name is a member of `fqn`. -/
def Declares (g : ResolvedGraph) (fqn method : String) : Prop :=
  ∃ n ∈ g.nodes, is_method_kind n.node.kind = true ∧ split_fqn n.node.fqn = some (fqn, method)

/-- A member with a body. -/
def HasBody (g : ResolvedGraph) (fqn method : String) : Prop :=
  ∃ n ∈ g.nodes, is_method_kind n.node.kind = true ∧ n.node.is_abstract = false ∧
    split_fqn n.node.fqn = some (fqn, method)

/-- The last node of a name. -/
def last_of (g : ResolvedGraph) (fqn : String) : Option NodeId :=
  (g.nodes.reverse.find? fun n => n.node.fqn = fqn).map fun n => n.node.id

section

variable (hsegment : ∃ fqn parent, split_fqn fqn = some (parent, method))

include hsegment

theorem split_member (parent : String) : split_fqn (member_fqn parent method) = some (parent, method) := by
  obtain ⟨fqn, other, hsplit⟩ := hsegment
  exact split_member_fqn hsplit parent

theorem member_of_split {fqn parent : String} :
    split_fqn fqn = some (parent, method) ↔ fqn = member_fqn parent method := by
  constructor
  · exact split_fqn_eq_some
  · intro heq
    rw [heq]
    exact split_member hsegment parent

theorem callable_fqns_iff (ty : String) :
    (Lattice.build g).callable_fqns (member_fqn ty method) = true ↔ Declares g ty method := by
  simp only [Lattice.build, Declares, List.any_eq_true, List.mem_filter, decide_eq_true_eq, and_assoc]
  apply exists_congr
  intro n
  rw [member_of_split hsegment]

theorem has_default_body_iff {tr : String}
    (htrait : (fqn_edges g .Implements).any (fun pair => pair.2 = tr) = true ∨
      (fqn_edges g .Inherits).any (fun pair => pair.1 = tr || pair.2 = tr) = true) :
    (Lattice.build g).has_default_body (member_fqn tr method) = true ↔ HasBody g tr method := by
  simp only [Lattice.build, HasBody, List.any_eq_true, List.mem_filter, decide_eq_true_eq, and_assoc,
    Bool.and_eq_true, Bool.not_eq_true', split_member hsegment tr, Option.map_some, Option.any_some]
  apply exists_congr
  intro n
  rw [member_of_split hsegment]
  constructor
  · rintro ⟨hn, hkind, hfqn, hbody, _⟩
    exact ⟨hn, hkind, hbody, hfqn⟩
  · rintro ⟨hn, hkind, hbody, hfqn⟩
    refine ⟨hn, hkind, hfqn, hbody, ?_⟩
    rw [Bool.or_eq_true]
    exact htrait

end

/-! ### The candidates of a method -/

/-- What CHA finds for a method: from some type with an edge straight to a trait from which
`Inherits` edges lead to a declaring trait, the type's own member, or else the declaring
trait's body. Of several nodes of one name the last one counts. -/
def Scoped (g : ResolvedGraph) (method : String) (id : NodeId) : Prop :=
  ∃ ty tr declaring, Implements g ty tr ∧ ReflTransGen (Inherits g) tr declaring ∧
    Declares g declaring method ∧
      (Declares g ty method ∧ last_of g (member_fqn ty method) = some id ∨
        ¬ Declares g ty method ∧ HasBody g declaring method ∧
          last_of g (member_fqn declaring method) = some id)

theorem mem_above {pairs : List (String × String)} {a b : String} : b ∈ above pairs a ↔ (a, b) ∈ pairs := by
  simp only [above, List.mem_map, List.mem_filter, decide_eq_true_eq]
  constructor
  · rintro ⟨pair, ⟨hpair, hfst⟩, hsnd⟩
    rw [← hfst, ← hsnd]
    exact hpair
  · intro h
    exact ⟨_, ⟨h, rfl⟩, rfl⟩

theorem mem_subtraits {sub sup : String} :
    sub ∈ (Lattice.build g).subtraits sup ↔ TransGen (Inherits g) sub sup := by
  have hall : ∀ x ∈ (fqn_edges g .Inherits).map Prod.snd, ∀ y ∈ above (fqn_edges g .Inherits) x,
      y ∈ (fqn_edges g .Inherits).map Prod.snd :=
    fun x _ y hy => List.mem_map.mpr ⟨_, mem_above.mp hy, rfl⟩
  have hnext : closure.Next (above (fqn_edges g .Inherits)) = Inherits g := by
    funext a b
    exact propext mem_above
  simp only [Lattice.build, transitive_subtraits, List.mem_filter, List.mem_dedup, decide_eq_true_eq]
  rw [closure.mem_closure_of (fun x hx => List.mem_map.mpr ⟨_, mem_above.mp hx, rfl⟩) hall, hnext]
  constructor
  · rintro ⟨_, mid, hmid, hreach⟩
    exact .head' (mem_above.mp hmid) hreach
  · intro h
    obtain ⟨mid, hmid, hreach⟩ := TransGen.head'_iff.mp h
    exact ⟨List.mem_map.mpr ⟨_, hmid, rfl⟩, mid, mem_above.mpr hmid, hreach⟩

theorem mem_implementors {ty tr : String} :
    ty ∈ (Lattice.build g).implementors tr ↔ Implements g ty tr := by
  simp only [Lattice.build, List.mem_dedup, List.mem_map, List.mem_filter, decide_eq_true_eq, Implements]
  constructor
  · rintro ⟨pair, ⟨hpair, hsnd⟩, hfst⟩
    rw [← hfst, ← hsnd]
    exact hpair
  · intro h
    exact ⟨_, ⟨h, rfl⟩, rfl⟩

theorem mem_types_of {ty declaring : String} :
    ty ∈ (Lattice.build g).types_of declaring ↔
      ∃ tr, Implements g ty tr ∧ ReflTransGen (Inherits g) tr declaring := by
  rw [Lattice.types_of, List.mem_append, mem_implementors, List.mem_flatMap]
  constructor
  · intro h
    cases h with
    | inl hdirect => exact ⟨declaring, hdirect, .refl⟩
    | inr hsub =>
      obtain ⟨sub, hsub, hty⟩ := hsub
      exact ⟨sub, mem_implementors.mp hty, (mem_subtraits.mp hsub).to_reflTransGen⟩
  · rintro ⟨tr, hty, hreach⟩
    cases reflTransGen_iff_eq_or_transGen.mp hreach with
    | inl heq => exact .inl (heq ▸ hty)
    | inr htrans => exact .inr ⟨tr, mem_subtraits.mpr htrans, mem_implementors.mpr hty⟩

/-- A trait that an implementor reaches is a trait of the lattice. -/
theorem is_trait_of_reached {ty tr declaring : String} (hty : Implements g ty tr)
    (hreach : ReflTransGen (Inherits g) tr declaring) :
    (fqn_edges g .Implements).any (fun pair => pair.2 = declaring) = true ∨
      (fqn_edges g .Inherits).any (fun pair => pair.1 = declaring || pair.2 = declaring) = true := by
  cases hreach with
  | refl => exact .inl (List.any_eq_true.mpr ⟨_, hty, by simp⟩)
  | tail _ hlast => exact .inr (List.any_eq_true.mpr ⟨_, hlast, by simp⟩)

theorem mem_trait_methods {declaring : String} :
    declaring ∈ (Lattice.build g).trait_methods_by_name method ↔
      Declares g declaring method ∧
        ((fqn_edges g .Implements).any (fun pair => pair.2 = declaring) = true ∨
          (fqn_edges g .Inherits).any (fun pair => pair.1 = declaring || pair.2 = declaring) = true) := by
  simp only [Lattice.build, List.mem_dedup, List.mem_filterMap, List.mem_filter, Declares,
    Option.bind_eq_some_iff, Bool.or_eq_true]
  constructor
  · rintro ⟨n, ⟨hn, hkind⟩, parts, hparts, hif⟩
    split at hif
    · rename_i h
      cases hif
      obtain ⟨htrait, rfl⟩ := h
      exact ⟨⟨n, hn, hkind, hparts⟩, htrait⟩
    · cases hif
  · rintro ⟨⟨n, hn, hkind, hparts⟩, htrait⟩
    exact ⟨n, ⟨hn, hkind⟩, _, hparts, by rw [if_pos ⟨htrait, rfl⟩]⟩

theorem mem_trait_scoped_candidates {id : NodeId} :
    id ∈ (Lattice.build g).trait_scoped_candidates method ↔ Scoped g method id := by
  rw [Lattice.trait_scoped_candidates, List.mem_flatMap]
  have hbody : ∀ {ty tr declaring : String}, Implements g ty tr → ReflTransGen (Inherits g) tr declaring →
      Declares g declaring method →
        ((Lattice.build g).body_for declaring method ty = some id ↔
          (Declares g ty method ∧ last_of g (member_fqn ty method) = some id ∨
            ¬ Declares g ty method ∧ HasBody g declaring method ∧
              last_of g (member_fqn declaring method) = some id)) := by
    intro ty tr declaring hty hreach hdeclares
    have hsegment : ∃ fqn parent, split_fqn fqn = some (parent, method) := by
      obtain ⟨n, _, _, hsplit⟩ := hdeclares
      exact ⟨_, _, hsplit⟩
    rw [Lattice.body_for, ← callable_fqns_iff hsegment (g := g) ty,
      ← has_default_body_iff hsegment (is_trait_of_reached hty hreach)]
    by_cases hown : (Lattice.build g).callable_fqns (member_fqn ty method) = true
    · rw [if_pos hown]
      simp only [hown, true_and, not_true_eq_false, false_and, or_false]
      rfl
    · rw [if_neg hown]
      simp only [hown, Bool.false_eq_true, false_and, false_or, not_false_eq_true, true_and]
      by_cases hdefault : (Lattice.build g).has_default_body (member_fqn declaring method) = true
      · rw [if_pos hdefault]
        simp only [hdefault, true_and]
        rfl
      · rw [if_neg hdefault]
        simp [hdefault]
  constructor
  · rintro ⟨declaring, hdeclaring, hmem⟩
    obtain ⟨ty, hty, hfound⟩ := List.mem_filterMap.mp hmem
    obtain ⟨tr, himpl, hreach⟩ := mem_types_of.mp hty
    have hdeclares := (mem_trait_methods.mp hdeclaring).1
    exact ⟨ty, tr, declaring, himpl, hreach, hdeclares, (hbody himpl hreach hdeclares).mp hfound⟩
  · rintro ⟨ty, tr, declaring, himpl, hreach, hdeclares, hfound⟩
    refine ⟨declaring, mem_trait_methods.mpr ⟨hdeclares, is_trait_of_reached himpl hreach⟩, ?_⟩
    exact List.mem_filterMap.mpr ⟨ty, mem_types_of.mpr ⟨tr, himpl, hreach⟩,
      (hbody himpl hreach hdeclares).mpr hfound⟩

/-! ### Soundness of the replacement -/

/-- From `ty` up to a type or trait that declares the method, by steps over types that do
not. -/
inductive Nearest (g : ResolvedGraph) (method : String) : String → String → Prop
  | direct {ty declaring : String} : Above g ty declaring → Declares g declaring method →
      Nearest g method ty declaring
  | through {ty next declaring : String} : Above g ty next → ¬ Declares g next method →
      Nearest g method next declaring → Nearest g method ty declaring

/-- What a call to the method at the site may run: a candidate of the site that is a member
of a type below a declaring one, or the body that a type without the member inherits. -/
def MayRun (g : ResolvedGraph) (key : SiteKey) (method : String) (n : NodeWithProvenance) : Prop :=
  n ∈ g.nodes ∧ is_method_kind n.node.kind = true ∧
    ((n.node.id ∈ targets NAME_METHOD_RULE g key ∧ ∃ ty declaring,
        split_fqn n.node.fqn = some (ty, method) ∧ TransGen (Above g) ty declaring ∧
          Declares g declaring method) ∨
      ∃ ty declaring, ¬ Declares g ty method ∧ Nearest g method ty declaring ∧
        split_fqn n.node.fqn = some (declaring, method) ∧ n.node.is_abstract = false)

/-- The replacement of a site whose first edge names a method that a trait declares. -/
theorem rescope_of_scoped {key : SiteKey} {template : EdgeWithProvenance}
    (hsite : (site_edges NAME_METHOD_RULE g key).head? = some template)
    (hmethod : short_name_of g.nodes template.edge.dst = some method) (hreplaced : ∃ id, Scoped g method id) :
    ∃ dsts, rescope (Lattice.build g) g key = some ⟨key, template, dsts, none⟩ ∧
      ∀ id, id ∈ dsts ↔ Scoped g method id := by
  have hmem : ∀ {id : NodeId}, id ∈ canonicalize_candidate_dsts
      ((Lattice.build g).trait_scoped_candidates method) ↔ Scoped g method id := by
    intro id
    rw [canonicalize_candidate_dsts, mem_sort_by, List.mem_dedup, mem_trait_scoped_candidates]
  refine ⟨_, ?_, fun id => hmem⟩
  rw [rescope, hsite, Option.bind_eq_bind, Option.bind_some, hmethod, Option.bind_eq_bind, Option.bind_some]
  split
  · rename_i hnil
    obtain ⟨id, hid⟩ := hreplaced
    have hnone := hmem.mpr hid
    rw [hnil] at hnone
    cases hnone
  · rfl

/-- The destinations of a replacement are what the method of its first edge finds. -/
theorem scoped_of_rescope {key : SiteKey} {r : Replacement} (h : rescope (Lattice.build g) g key = some r) :
    ∃ method, short_name_of g.nodes r.proto.edge.dst = some method ∧ ∀ id, id ∈ r.dsts ↔ Scoped g method id := by
  obtain ⟨_, _, method, hmethod, hdsts, _⟩ := rescope_eq_some h
  refine ⟨method, hmethod, fun id => ?_⟩
  rw [hdsts, canonicalize_candidate_dsts, mem_sort_by, List.mem_dedup, mem_trait_scoped_candidates]

/-- A replacement copies the first edge of its site, and has what the method of that edge
finds as its destinations. -/
theorem replacement_spec {r : Replacement} (h : r ∈ cha_replacements g) :
    (site_edges NAME_METHOD_RULE g r.key).head? = some r.proto ∧
      ∃ method, short_name_of g.nodes r.proto.edge.dst = some method ∧
        (∃ id, Scoped g method id) ∧ ∀ id, id ∈ r.dsts ↔ Scoped g method id := by
  have hfields := exists_cha_replacement (g := g)
    (p := fun key proto dsts => key = r.key ∧ proto = r.proto ∧ dsts = r.dsts)
  obtain ⟨key, r', hscope, hkey, hproto, hdsts⟩ := hfields.mp ⟨r, h, rfl, rfl, rfl⟩
  obtain ⟨hat, hhead, _, _, _, hne⟩ := rescope_eq_some hscope
  obtain ⟨method, hmethod, hmem⟩ := scoped_of_rescope hscope
  rw [← hat, hkey, hproto] at hhead
  rw [hproto] at hmethod
  rw [hdsts] at hne hmem
  obtain ⟨id, hid⟩ := List.exists_mem_of_ne_nil _ hne
  exact ⟨hhead, method, hmethod, ⟨id, (hmem id).mp hid⟩, hmem⟩

/-- The targets after CHA of a site that it replaces. -/
theorem mem_targets_of_replaced {key : SiteKey} {template : EdgeWithProvenance}
    (hsite : (site_edges NAME_METHOD_RULE g key).head? = some template)
    (hmethod : short_name_of g.nodes template.edge.dst = some method) (hreplaced : ∃ id, Scoped g method id)
    {id : NodeId} :
    id ∈ targets CHA_RULE (run_cha g).1 key ↔ id ∈ targets CHA_RULE g key ∨ Scoped g method id := by
  obtain ⟨dsts, hscope, hmem⟩ := rescope_of_scoped hsite hmethod hreplaced
  rw [mem_targets_run_cha hscope, hmem]

/-- A site that CHA replaces keeps everything a call there may run exactly when all of it
lies one `Implements` edge, and then only `Inherits` edges, below a declaring trait. -/
theorem cha_keeps_iff {key : SiteKey} {template : EdgeWithProvenance}
    (hsite : (site_edges NAME_METHOD_RULE g key).head? = some template)
    (hmethod : short_name_of g.nodes template.edge.dst = some method)
    (hreplaced : ∃ id, Scoped g method id) :
    (∀ n, MayRun g key method n → n.node.id ∈ targets CHA_RULE (run_cha g).1 key) ↔
      ∀ n, MayRun g key method n → Scoped g method n.node.id ∨ n.node.id ∈ targets CHA_RULE g key := by
  apply forall₂_congr
  intro n _
  rw [mem_targets_of_replaced hsite hmethod hreplaced, or_comm]

namespace sample

/-- A node of a Java file. -/
def java_node (id : UInt32) (kind : SymbolKind) (fqn : String) (is_abstract : Bool) : NodeWithProvenance where
  node := { function_node id fqn with kind := kind, file := "A.java", lang := "java", is_abstract := is_abstract }
  provenance := ⟨⟨"A.java", id + 1, none⟩, "def", .ScopeGraph, ""⟩

/-- A call of the method at line 9 to one of its same-named candidates. -/
def name_method_edge (dst : UInt32) (group : Option UInt32) : EdgeWithProvenance where
  edge :=
    { (structural_edge ⟨0⟩ ⟨dst⟩ .CallsVirtual NAME_METHOD_RULE ⟨"A.java", 9, none⟩).edge with
      confidence := .Possible
      site_id := some ⟨9⟩
      stmt_index := some 0
      candidate_group := group }
  provenance := ⟨⟨"A.java", 9, none⟩, NAME_METHOD_RULE, .ScopeGraph, ""⟩

def java_edge (src dst : UInt32) (kind : EdgeKind) : EdgeWithProvenance :=
  structural_edge ⟨src⟩ ⟨dst⟩ kind "impl-relation" ⟨"A.java", 1, none⟩

/-- `class Circle extends Base`, `class Base implements Shape`; both override `area`. -/
def circle_nodes : List NodeWithProvenance :=
  [java_node 0 .Function "main" false, java_node 1 .Type "Shape" true, java_node 2 .Method "Shape::area" true,
    java_node 3 .Type "Base" false, java_node 4 .Method "Base::area" false, java_node 5 .Type "Circle" false,
    java_node 6 .Method "Circle::area" false]

def circle_graph : ResolvedGraph where
  nodes := circle_nodes
  edges := [name_method_edge 2 (some 0), name_method_edge 4 (some 0), name_method_edge 6 (some 0),
    java_edge 3 1 .Implements, java_edge 5 3 .Inherits]
  candidates := [⟨0, ⟨2⟩, 0⟩, ⟨0, ⟨4⟩, 1⟩, ⟨0, ⟨6⟩, 2⟩]
  unresolved := []

def site : SiteKey := (⟨0⟩, ⟨9⟩)

/-- An override below a class that implements the interface is lost. -/
theorem override_in_subclass_is_lost :
    MayRun circle_graph site "area" (java_node 6 .Method "Circle::area" false) ∧
      targets CHA_RULE (run_cha circle_graph).1 site = [⟨4⟩] := by
  refine ⟨⟨by decide, rfl, .inl ⟨by decide, "Circle", "Base", by decide, ?_, ?_⟩⟩, by decide⟩
  · exact .single (.inr (by rw [Inherits]; decide))
  · exact ⟨java_node 4 .Method "Base::area" false, by decide, rfl, by decide⟩

theorem cha_keeps_iff_circle :
    (∀ n, MayRun circle_graph site "area" n →
      n.node.id ∈ targets CHA_RULE (run_cha circle_graph).1 site) ↔
      ∀ n, MayRun circle_graph site "area" n →
        Scoped circle_graph "area" n.node.id ∨ n.node.id ∈ targets CHA_RULE circle_graph site := by
  have hscoped : Scoped circle_graph "area" ⟨4⟩ := mem_trait_scoped_candidates.mp (by decide)
  have hsite : (site_edges NAME_METHOD_RULE circle_graph site).head? =
      some (name_method_edge 2 (some 0)) := by decide
  exact cha_keeps_iff hsite (by decide) ⟨_, hscoped⟩

end sample

end cgx.resolve
