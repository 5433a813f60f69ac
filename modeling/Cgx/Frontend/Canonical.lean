import Mathlib.Data.List.Destutter
import Cgx.Frontend.Facts
import Cgx.Lib.SortBy

open cgx.core derived sorting Std

namespace cgx.frontend.facts

/-- Equality of type facts, the one their order decides. -/
instance : DecidableEq TypeFact := fun a b =>
  decidable_of_iff (derived.cmp a b = .eq) ⟨LawfulEqCmp.eq_of_compare, fun h => h ▸ ReflCmp.compare_self⟩

/-- Drop the elements equal to the one kept before them. -/
def dedup {α : Type} [DecidableEq α] (l : List α) : List α :=
  l.destutter (· ≠ ·)

/-- Sort and deduplicate. -/
def sort_dedup {α : Type} [Spelled α] [DecidableEq α] (l : List α) : List α :=
  dedup (sort_by derived.cmp l)

/-- A reference with its markers sorted and deduplicated. -/
def normal_ref (r : RawRef) : RawRef :=
  { r with cut_markers := sort_dedup r.cut_markers }

def normal_flow (d : DataFlowFact) : DataFlowFact :=
  { d with cut_markers := sort_dedup d.cut_markers }

/-- Sort every fact vector, then put the marker lists inside references and dataflow
facts in order. Scope ids are not reordered. -/
def FileFacts.canonicalize (x : FileFacts) : FileFacts :=
  { x with
    defs := sort_by derived.cmp x.defs
    refs := sort_then_normalize derived.cmp normal_ref x.refs
    impl_relations := sort_by derived.cmp x.impl_relations
    imports := sort_by derived.cmp x.imports
    exports := sort_by derived.cmp x.exports
    entrypoint_hints := sort_by derived.cmp x.entrypoint_hints
    cut_hints := sort_by derived.cmp x.cut_hints
    effects := sort_by derived.cmp x.effects
    data_flows := sort_then_normalize derived.cmp normal_flow x.data_flows
    type_facts := sort_dedup x.type_facts }

/-- The same reference, its markers listed in another order. -/
def SameButMarkers (r s : RawRef) : Prop :=
  ∃ markers, markers.Perm r.cut_markers ∧ s = { r with cut_markers := markers }

def SameFlowButMarkers (d e : DataFlowFact) : Prop :=
  ∃ markers, markers.Perm d.cut_markers ∧ e = { d with cut_markers := markers }

def IsSorted {α : Type} [Spelled α] (l : List α) : Prop :=
  l.Pairwise fun a b => (derived.cmp a b).isLE

/-- Every fact vector is in order. -/
structure FactsSorted (x : FileFacts) : Prop where
  defs : IsSorted x.defs
  refs : IsSorted x.refs
  impl_relations : IsSorted x.impl_relations
  imports : IsSorted x.imports
  exports : IsSorted x.exports
  entrypoint_hints : IsSorted x.entrypoint_hints
  cut_hints : IsSorted x.cut_hints
  effects : IsSorted x.effects
  data_flows : IsSorted x.data_flows
  type_facts : IsSorted x.type_facts

/-- The same facts in another order: the entries of the vectors permuted, and the markers
inside references and dataflow facts. -/
structure Rearranged (x y : FileFacts) : Prop where
  defs : x.defs.Perm y.defs
  refs : Rearranges SameButMarkers x.refs y.refs
  impl_relations : x.impl_relations.Perm y.impl_relations
  imports : x.imports.Perm y.imports
  exports : x.exports.Perm y.exports
  scopes : x.scopes = y.scopes
  entrypoint_hints : x.entrypoint_hints.Perm y.entrypoint_hints
  cut_hints : x.cut_hints.Perm y.cut_hints
  effects : x.effects.Perm y.effects
  data_flows : Rearranges SameFlowButMarkers x.data_flows y.data_flows
  module : x.module = y.module
  type_facts : x.type_facts.Perm y.type_facts

/-- Canonical facts are a normal form of `x`. -/
structure HasNormalForm (x : FileFacts) : Prop where
  idempotent : x.canonicalize.canonicalize = x.canonicalize
  sorted : FactsSorted x.canonicalize
  invariant : ∀ y, Rearranged x y → y.canonicalize = x.canonicalize

/-- No order of the marker lists puts two references, or two dataflow facts, the other way
round than their normal forms. -/
structure MarkersKeepOrder (x : FileFacts) : Prop where
  refs : KeepsOrder derived.cmp normal_ref SameButMarkers x.refs
  data_flows : KeepsOrder derived.cmp normal_flow SameFlowButMarkers x.data_flows

section sort_dedup

variable {α : Type} [Spelled α] [DecidableEq α] {l l' : List α}

theorem is_sorted_sort_dedup : IsSorted (sort_dedup l) :=
  List.Pairwise.sublist (List.destutter_sublist _ _) (pairwise_sort_by l)

theorem sort_dedup_perm (h : l'.Perm l) : sort_dedup l' = sort_dedup l := by
  rw [sort_dedup, sort_by_perm h, sort_dedup]

theorem sort_dedup_idem : sort_dedup (sort_dedup l) = sort_dedup l := by
  rw [sort_dedup, sort_by_eq_self is_sorted_sort_dedup, sort_dedup]
  exact List.destutter_idem _ _

end sort_dedup

theorem normalizes_ref : Normalizes normal_ref SameButMarkers where
  refl r := ⟨r.cut_markers, .refl _, rfl⟩
  same r s h := by
    obtain ⟨markers, hperm, rfl⟩ := h
    rw [normal_ref, normal_ref, sort_dedup_perm hperm]
  idem r := by
    rw [normal_ref, normal_ref, sort_dedup_idem]

theorem normalizes_flow : Normalizes normal_flow SameFlowButMarkers where
  refl d := ⟨d.cut_markers, .refl _, rfl⟩
  same d e h := by
    obtain ⟨markers, hperm, rfl⟩ := h
    rw [normal_flow, normal_flow, sort_dedup_perm hperm]
  idem d := by
    rw [normal_flow, normal_flow, sort_dedup_idem]

/-- A sorted vector of distinct orders stays as it is when sorted again. -/
theorem sort_by_idem {α : Type} [Spelled α] (l : List α) :
    sort_by derived.cmp (sort_by derived.cmp l) = sort_by derived.cmp l :=
  sort_by_eq_self (pairwise_sort_by l)

theorem Rearranged.refl (x : FileFacts) : Rearranged x x where
  defs := .refl _
  refs := rearranges_of_perm normalizes_ref.refl (.refl _)
  impl_relations := .refl _
  imports := .refl _
  exports := .refl _
  scopes := rfl
  entrypoint_hints := .refl _
  cut_hints := .refl _
  effects := .refl _
  data_flows := rearranges_of_perm normalizes_flow.refl (.refl _)
  module := rfl
  type_facts := .refl _

/-- Only the two vectors whose entries are normalized after the sort can fail. -/
theorem has_normal_form_of_parts {x : FileFacts}
    (hrefs : IsNormalForm derived.cmp normal_ref SameButMarkers x.refs)
    (hflows : IsNormalForm derived.cmp normal_flow SameFlowButMarkers x.data_flows) : HasNormalForm x where
  idempotent := by
    simp only [FileFacts.canonicalize, sort_by_idem, hrefs.idempotent, hflows.idempotent, sort_dedup_idem]
  sorted := {
    defs := pairwise_sort_by _
    refs := hrefs.sorted
    impl_relations := pairwise_sort_by _
    imports := pairwise_sort_by _
    exports := pairwise_sort_by _
    entrypoint_hints := pairwise_sort_by _
    cut_hints := pairwise_sort_by _
    effects := pairwise_sort_by _
    data_flows := hflows.sorted
    type_facts := is_sorted_sort_dedup }
  invariant y h := by
    simp only [FileFacts.canonicalize, sort_by_perm h.defs.symm, hrefs.invariant _ h.refs,
      sort_by_perm h.impl_relations.symm, sort_by_perm h.imports.symm, sort_by_perm h.exports.symm, h.scopes,
      sort_by_perm h.entrypoint_hints.symm, sort_by_perm h.cut_hints.symm, sort_by_perm h.effects.symm,
      hflows.invariant _ h.data_flows, h.module, sort_dedup_perm h.type_facts.symm]

/-- `canonicalize` gives a normal form exactly when no marker list turns the order of two
facts. -/
theorem canonical_facts_normal_form_iff (x : FileFacts) : HasNormalForm x ↔ MarkersKeepOrder x := by
  constructor
  · intro h
    refine ⟨(is_normal_form_iff normalizes_ref).mp ⟨?_, h.sorted.refs, fun refs hrefs => ?_⟩,
      (is_normal_form_iff normalizes_flow).mp ⟨?_, h.sorted.data_flows, fun flows hflows => ?_⟩⟩
    · exact congrArg FileFacts.refs h.idempotent
    · have hy : Rearranged x { x with refs := refs } := { Rearranged.refl x with refs := hrefs }
      exact congrArg FileFacts.refs (h.invariant _ hy)
    · exact congrArg FileFacts.data_flows h.idempotent
    · have hy : Rearranged x { x with data_flows := flows } := { Rearranged.refl x with data_flows := hflows }
      exact congrArg FileFacts.data_flows (h.invariant _ hy)
  · intro h
    exact has_normal_form_of_parts ((is_normal_form_iff normalizes_ref).mpr h.refs)
      ((is_normal_form_iff normalizes_flow).mpr h.data_flows)

/-- A call of `f` with the given markers. -/
def marked_call (markers : List CutMarker) : RawRef where
  name_path := ["f"]
  scope := .ROOT
  kind := .Call
  edge_condition := .Always
  implicit := none
  span := ⟨"a.rs", 1, none⟩
  stmt_index := 0
  arity := some 0
  cut_markers := markers

/-- Two calls that differ in their markers only. -/
def two_marked_calls : FileFacts :=
  { FileFacts.empty with refs := [marked_call [.Reflective, .ViaDi], marked_call [.Dynamic, .Reflective]] }

/-- The markers decide the order before they are sorted, and against it afterwards. -/
theorem canonicalize_leaves_refs_unsorted :
    ¬ IsSorted two_marked_calls.canonicalize.refs ∧ ¬ HasNormalForm two_marked_calls := by
  have hunsorted : ¬ IsSorted two_marked_calls.canonicalize.refs := by
    unfold IsSorted
    decide +kernel
  exact ⟨hunsorted, fun h => hunsorted h.sorted.refs⟩

end cgx.frontend.facts
