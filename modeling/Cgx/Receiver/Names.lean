import Mathlib.Data.Finset.Prod
import Cgx.Receiver.Reordered

open cgx.frontend.facts cgx.resolve guarded

namespace cgx.receiver.names

namespace ModuleIndex

variable {n : Nat} {idx : ModuleIndex n} {d : Defs}

/-! ### The recursion ends -/

/-- The names that a binding site of a value asks for. -/
def source_names : ValueSource → List String
  | .Var x => [x]
  | .Call callee => callee
  | _ => []

/-- The index asks for no name and no module but these. -/
structure Bounded (idx : ModuleIndex n) (names modules : Finset String) : Prop where
  bound : ∀ f name, ∀ t ∈ (idx.files f).bound name, ∀ x ∈ t.member, x ∈ names
  sources : ∀ key srcs, idx.values.lookup key = some srcs → ∀ src ∈ srcs, ∀ x ∈ source_names src, x ∈ names
  contains : ∀ m, idx.contains_module m = true → m ∈ modules
  exact : ∀ s m, idx.in_repo s = .Exact m → m ∈ modules
  suffix : ∀ s ms, idx.in_repo s = .Suffix ms → ∀ m ∈ ms, m ∈ modules
  values : ∀ key srcs, idx.values.lookup key = some srcs → key.1 ∈ modules

/-- The calls that ask for no other name or module. -/
def Within (names modules : Finset String) : Call → Prop
  | .Target t rest => (∀ x ∈ t.member, x ∈ names) ∧ ∀ x ∈ rest, x ∈ names
  | .Spec _ path => ∀ x ∈ path, x ∈ names
  | .In m path => m ∈ modules ∧ ∀ x ∈ path, x ∈ names
  | .Value _ rest => ∀ x ∈ rest, x ∈ names

/-- Without a new pair, a path gets shorter, and the functions call each other in this order. -/
def rank : Call → Nat
  | .Target _ rest => rest.length + 4
  | .Spec _ path => path.length + 2
  | .In _ path => path.length + 1
  | .Value _ _ => 0

/-- The pairs that can be put in the guard. -/
def pairs (idx : ModuleIndex n) (names modules : Finset String) : Finset Pair :=
  modules ×ˢ names ∪ (idx.values.map fun v => (v.1.1, "=" ++ v.1.2)).toFinset

theorem mem_by_last_of_suffix {s : Spec} {ms : List String} (h : idx.in_repo s = .Suffix ms) {m : String} (hm : m ∈ ms) :
    m ∈ (idx.by_last.lookup (short_name s.path)).getD [] := by
  rw [in_repo] at h
  split at h
  · cases h
  · split at h
    · cases h
    · dsimp only at h
      split at h
      · cases h
      · cases h
        exact (List.mem_filter.mp hm).1

/-- The names and modules of an index and of a first call. -/
theorem exists_bounded (idx : ModuleIndex n) (c : Call) :
    ∃ names modules, idx.Bounded names modules ∧ Within names modules c := by
  let asked : List String := match c with
    | .Target t rest => t.member.toList ++ rest
    | .Spec _ path => path
    | .In _ path => path
    | .Value _ rest => rest
  let opened : List String := match c with
    | .In m _ => [m]
    | _ => []
  let members := (List.finRange n).flatMap fun f => (idx.files f).bindings.flatMap fun b =>
    b.2.flatMap fun t => t.member.toList
  let sources := idx.values.flatMap fun v => v.2.flatMap source_names
  let listed := idx.modules.map Prod.fst ++ idx.by_last.flatMap Prod.snd ++ idx.values.map fun v => v.1.1
  refine ⟨(asked ++ members ++ sources).toFinset, (opened ++ listed).toFinset, ⟨?_, ?_, ?_, ?_, ?_, ?_⟩, ?_⟩
  · intro f name t ht x hx
    rw [FileScope.bound] at ht
    cases hlookup : (idx.files f).bindings.lookup name with
    | none =>
      rw [hlookup] at ht
      exact absurd ht List.not_mem_nil
    | some targets =>
      rw [hlookup] at ht
      have hmember : x ∈ members := List.mem_flatMap.mpr ⟨f, List.mem_finRange f,
        List.mem_flatMap.mpr ⟨(name, targets), mem_of_lookup_eq_some hlookup,
          List.mem_flatMap.mpr ⟨t, ht, Option.mem_toList.mpr hx⟩⟩⟩
      exact List.mem_toFinset.mpr (List.mem_append_left _ (List.mem_append_right _ hmember))
  · intro key srcs hlookup src hsrc x hx
    have hsource : x ∈ sources := List.mem_flatMap.mpr ⟨(key, srcs), mem_of_lookup_eq_some hlookup,
      List.mem_flatMap.mpr ⟨src, hsrc, hx⟩⟩
    exact List.mem_toFinset.mpr (List.mem_append_right _ hsource)
  · intro m hm
    obtain ⟨files, hfiles⟩ := Option.isSome_iff_exists.mp hm
    have hlisted : m ∈ idx.modules.map Prod.fst := List.mem_map.mpr ⟨(m, files), mem_of_lookup_eq_some hfiles, rfl⟩
    exact List.mem_toFinset.mpr (List.mem_append_right _ (List.mem_append_left _ (List.mem_append_left _ hlisted)))
  · intro s m hm
    have hlisted := (mem_modules_of_exact hm).2
    exact List.mem_toFinset.mpr (List.mem_append_right _ (List.mem_append_left _ (List.mem_append_left _ hlisted)))
  · intro s ms hms m hm
    have hmem := mem_by_last_of_suffix hms hm
    cases hlookup : idx.by_last.lookup (short_name s.path) with
    | none =>
      rw [hlookup] at hmem
      exact absurd hmem List.not_mem_nil
    | some all =>
      rw [hlookup] at hmem
      have hlisted : m ∈ idx.by_last.flatMap Prod.snd :=
        List.mem_flatMap.mpr ⟨(_, all), mem_of_lookup_eq_some hlookup, hmem⟩
      exact List.mem_toFinset.mpr (List.mem_append_right _ (List.mem_append_left _ (List.mem_append_right _ hlisted)))
  · intro key srcs hlookup
    have hlisted : key.1 ∈ idx.values.map fun v => v.1.1 :=
      List.mem_map.mpr ⟨(key, srcs), mem_of_lookup_eq_some hlookup, rfl⟩
    exact List.mem_toFinset.mpr (List.mem_append_right _ (List.mem_append_right _ hlisted))
  · have hasked : ∀ x ∈ asked, x ∈ (asked ++ members ++ sources).toFinset := fun x hx =>
      List.mem_toFinset.mpr (List.mem_append_left _ (List.mem_append_left _ hx))
    cases c with
    | Target t rest =>
      exact ⟨fun x hx => hasked x (List.mem_append_left _ (Option.mem_toList.mpr hx)),
        fun x hx => hasked x (List.mem_append_right _ hx)⟩
    | Spec s path => exact hasked
    | In m path => exact ⟨List.mem_toFinset.mpr (List.mem_append_left _ List.mem_cons_self), hasked⟩
    | Value fqn rest => exact hasked

section sinks

variable {names modules : Finset String} (hidx : idx.Bounded names modules)

theorem cons_within {name : String} {rest : List String} (hname : name ∈ names) (hrest : ∀ x ∈ rest, x ∈ names) :
    ∀ x ∈ name :: rest, x ∈ names := by
  intro x hx
  obtain rfl | hx := List.mem_cons.mp hx
  · exact hname
  · exact hrest x hx

theorem sinks_resolve_target {t : Target} {rest : List String} (hok : Within names modules (.Target t rest)) :
    (resolve_target t rest).Sinks (idx.pairs names modules) (Within names modules) rank
      (some (rank (.Target t rest))) (some (rank (.Target t rest))) := by
  obtain ⟨hmember, hrest⟩ := hok
  -- The module of a target has a shorter path than its member.
  have hmodule : ∀ s, (call (.Spec s rest) : Run Resolved).Sinks (idx.pairs names modules) (Within names modules) rank
      (some (rank (.Target t rest))) (some (rank (.Target t rest))) := fun s =>
    .call hrest fun m hm => by
      cases hm
      simp only [rank]
      omega
  have hnamed : ∀ s name, name ∈ t.member → (call (.Spec s (name :: rest)) : Run Resolved).Sinks (idx.pairs names modules)
      (Within names modules) rank (some (rank (.Target t rest))) (some (rank (.Target t rest))) := fun s name hname =>
    .call (cons_within (hmember name hname) hrest) fun m hm => by
      cases hm
      simp only [rank, List.length_cons]
      omega
  cases t with
  | Module s => exact hmodule s
  | Member s name => exact hnamed s name rfl
  | ModuleOrMember s name => exact (hmodule s).bind fun _ => (hnamed s name rfl).bind fun _ => .pure _

include hidx

theorem sinks_resolve_spec {s : Spec} {path : List String} (hok : Within names modules (.Spec s path)) :
    (idx.resolve_spec d s path).Sinks (idx.pairs names modules) (Within names modules) rank
      (some (rank (.Spec s path))) (some (rank (.Spec s path))) := by
  have hin : ∀ m, m ∈ modules → (call (.In m path) : Run Resolved).Sinks (idx.pairs names modules) (Within names modules)
      rank (some (rank (.Spec s path))) (some (rank (.Spec s path))) := fun m hm =>
    .call ⟨hm, hok⟩ fun k hk => by
      cases hk
      simp only [rank]
      omega
  unfold resolve_spec
  split
  case h_1 m hexact => exact hin m (hidx.exact s m hexact)
  case h_2 ms hsuffix =>
    refine (Calls.Sinks.loop (fun m hm => hin m (hidx.suffix s ms hsuffix m hm)) none).bind fun _ => ?_
    exact .pure _
  · exact .pure _
  · exact .pure _

omit hidx in
theorem sinks_def_at {bound : Option Nat} {fqn : String} {rest : List String} (hrest : ∀ x ∈ rest, x ∈ names)
    (hbound : ∀ k, bound = some k → 0 < k) :
    (def_at d (fun fqn rest => call (.Value fqn rest)) fqn rest : Run (Option Resolved)).Sinks (idx.pairs names modules)
      (Within names modules) rank bound bound := by
  unfold def_at
  split
  · split
    · exact .pure _
    · split
      · exact .pure _
      · exact .pure _
  · split
    · exact .pure _
    · have hok : Within names modules (.Value fqn rest) := hrest
      exact (Calls.Sinks.call hok hbound).bind fun _ => .pure _

theorem sinks_resolve_in {m : String} {path : List String} (hok : Within names modules (.In m path)) :
    (idx.resolve_in d m path).Sinks (idx.pairs names modules) (Within names modules) rank
      (some (rank (.In m path))) (some (rank (.In m path))) := by
  obtain ⟨hm, hpath⟩ := hok
  unfold resolve_in
  cases path with
  | nil => exact .pure _
  | cons name rest =>
    have hname : name ∈ names := hpath name List.mem_cons_self
    have hrest : ∀ x ∈ rest, x ∈ names := fun x hx => hpath x (List.mem_cons_of_mem name hx)
    refine (sinks_def_at hrest fun k hk => ?_).bind fun found => ?_
    · cases hk
      exact Nat.succ_pos _
    · cases found with
      | some r => exact .pure r
      | none =>
        dsimp only
        split
        case isTrue hcontains =>
          refine .call ⟨hidx.contains _ hcontains, hrest⟩ fun k hk => ?_
          cases hk
          simp only [rank, List.length_cons]
          omega
        · have hkey : (m, name) ∈ idx.pairs names modules :=
            Finset.mem_union_left _ (Finset.mem_product.mpr ⟨hm, hname⟩)
          refine Calls.Sinks.free ((Calls.Sinks.guard_key hkey _).bind fun _ => ?_)
          refine (Calls.Sinks.loop (fun t ht => ?_) none).bind fun acc => ?_
          · obtain ⟨f, _, hbound⟩ := List.mem_flatMap.mp ht
            have hok : Within names modules (.Target t rest) := ⟨hidx.bound f name t hbound, hrest⟩
            exact .call_free hok
          · cases acc with
            | some r => exact .pure r
            | none =>
              refine (Calls.Sinks.loop (fun g _ => ?_) none).bind fun acc => .pure _
              have hok : Within names modules (.Spec g (name :: rest)) := hpath
              exact .call_free hok

theorem sinks_value_at {fqn : String} {rest : List String} (hok : Within names modules (.Value fqn rest)) :
    (idx.value_at fqn rest).Sinks (idx.pairs names modules) (Within names modules) rank
      (some (rank (.Value fqn rest))) (some (rank (.Value fqn rest))) := by
  unfold value_at
  split
  · exact .pure _
  case h_2 m var _ =>
    dsimp only
    split
    · exact .pure _
    case h_2 srcs hlookup =>
      have hm := hidx.values _ srcs hlookup
      have hkey : (String.ofList m, "=" ++ String.ofList var) ∈ idx.pairs names modules :=
        Finset.mem_union_right _ (List.mem_toFinset.mpr
          (List.mem_map.mpr ⟨(_, srcs), mem_of_lookup_eq_some hlookup, rfl⟩))
      refine Calls.Sinks.free ((Calls.Sinks.guard_key hkey _).bind fun _ => ?_)
      refine (Calls.Sinks.loop (fun src hsrc => ?_) none).bind fun acc => .pure _
      have hnames := hidx.sources _ srcs hlookup src hsrc
      cases src with
      | Var x =>
        have hin : Within names modules (.In (String.ofList m) (x :: rest)) :=
          ⟨hm, cons_within (hnames x List.mem_cons_self) hok⟩
        exact .call_free hin
      | Call callee =>
        unfold resolve_source
        dsimp only
        split
        · have hin : Within names modules (.In (String.ofList m) callee) := ⟨hm, hnames⟩
          exact (Calls.Sinks.call_free hin).bind fun _ => .pure _
        · exact .pure _
      | _ => exact .pure _

theorem descends_body (c : Call) (hok : Within names modules c) :
    (idx.body d c).Descends (idx.pairs names modules) (Within names modules) rank (some (rank c)) := by
  cases c with
  | Target t rest => exact (sinks_resolve_target hok).body
  | Spec s path => exact (sinks_resolve_spec hidx hok).body
  | In m path => exact (sinks_resolve_in hidx hok).body
  | Value fqn rest => exact (sinks_value_at hidx hok).body

end sinks

/-- Every call returns, whoever shares the guard. -/
theorem call_returns (idx : ModuleIndex n) (d : Defs) (scope : Scope) (c : Call) (g : List Pair) :
    ∃ fuel out, evaluate scope (idx.body d) fuel c g = some out := by
  obtain ⟨names, modules, hidx, hc⟩ := idx.exists_bounded c
  exact terminates (descends_body hidx) hc g

end ModuleIndex

end cgx.receiver.names
