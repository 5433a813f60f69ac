import Cgx.Resolve.Recompute

open cgx.core carry Relation

namespace cgx.resolve

section paths

variable {fd fd' : FnDataflow} {t : Summaries} {i : UInt8}

/-- A path that repeats no node, over the derivations and the callees' summaries, from a
return node to a formal of this index. -/
structure DerivationPath (fd : FnDataflow) (t : Summaries) (i : UInt8) (ret : String)
    (path : List (Hop String Payload)) (v : String) : Prop where
  returned : ret ∈ fd.returns
  formal : formal_idx fd v = some i
  simple : SimplePath (back fd t) ret path v

/-- The joined transform and condition along a path. -/
def path_payload (path : List (Hop String Payload)) : Payload :=
  carried Payload.join .start path

/-- The payloads of all derivation paths to the formals of an index. -/
def path_payloads (fd : FnDataflow) (t : Summaries) (i : UInt8) : Set Payload :=
  {p | ∃ ret path v, DerivationPath fd t i ret path v ∧ p = path_payload path}

/-- Every fact is the join over every derivation path. -/
def JoinsEveryPath (fd : FnDataflow) (t : Summaries) : Prop :=
  ∀ sf ∈ compute_summary fd t, IsLUB (path_payloads fd t sf.formal_in_idx) (sf.transform, sf.condition)

/-- The same function with its hops and call sites listed in another order. -/
structure Relisted (fd fd' : FnDataflow) : Prop where
  intra : fd.intra.Perm fd'.intra
  calls : fd.calls.Perm fd'.calls
  returns : fd.returns = fd'.returns
  formal_ins : fd.formal_ins = fd'.formal_ins

/-- All derivation paths between the same two nodes carry the same. -/
def PathsAgree (fd : FnDataflow) (t : Summaries) : Prop :=
  ∀ i ret v path path', DerivationPath fd t i ret path v → DerivationPath fd t i ret path' v →
    path_payload path = path_payload path'

/-- The payload recorded for a formal is the join over one derivation path for each return
node that reaches it. -/
structure OnePathEach (fd : FnDataflow) (t : Summaries) (i : UInt8) (p : Payload)
    (chosen : String → String → List (Hop String Payload)) : Prop where
  paths : ∀ ret ∈ fd.returns, ∀ v, formal_idx fd v = some i → ReflTransGen (carry.Leads (back fd t)) ret v →
    DerivationPath fd t i ret (chosen ret v) v
  joins : IsLUB {q | ∃ ret v, DerivationPath fd t i ret (chosen ret v) v ∧ q = path_payload (chosen ret v)} p

/-- The search visits a node over one path, whose payload it carries. -/
theorem exists_chosen (fd : FnDataflow) (t : Summaries) :
    ∃ chosen : String → String → List (Hop String Payload),
      ∀ ret visit, visit ∈ search (back fd t) Payload.join ret .start →
        SimplePath (back fd t) ret (chosen ret visit.1) visit.1 ∧
          visit.2 = path_payload (chosen ret visit.1) := by
  have hnode : ∀ ret v, ∃ path, ∀ p, (v, p) ∈ search (back fd t) Payload.join ret .start →
      SimplePath (back fd t) ret path v ∧ p = path_payload path := by
    intro ret v
    by_cases hvisited : ∃ p, (v, p) ∈ search (back fd t) Payload.join ret .start
    · obtain ⟨p, hp⟩ := hvisited
      obtain ⟨path, hpath, hcarried⟩ := search_path hp
      refine ⟨path, fun q hq => ⟨hpath, ?_⟩⟩
      -- a node is visited once, so every visit to it carries this payload
      have hsame := List.inj_on_of_nodup_map search_nodup hq hp rfl
      exact (congrArg Prod.snd hsame).trans hcarried
    · exact ⟨[], fun p hp => absurd ⟨p, hp⟩ hvisited⟩
  choose chosen hchosen using hnode
  exact ⟨chosen, fun ret visit hvisit => hchosen ret visit.1 visit.2 hvisit⟩

theorem mem_visits_to {p : Payload} :
    p ∈ ((return_visits fd t).filter fun v => formal_idx fd v.1 = some i).map Prod.snd ↔
      ∃ ret ∈ fd.returns, ∃ v, (v, p) ∈ search (back fd t) Payload.join ret .start ∧
        formal_idx fd v = some i := by
  simp only [return_visits, List.mem_map, List.mem_filter, List.mem_flatMap, decide_eq_true_eq]
  constructor
  · rintro ⟨⟨v, q⟩, ⟨⟨ret, hret, hvisit⟩, hidx⟩, rfl⟩
    exact ⟨ret, hret, v, hvisit, hidx⟩
  · rintro ⟨ret, hret, v, hvisit, hidx⟩
    exact ⟨(v, p), ⟨⟨ret, hret, hvisit⟩, hidx⟩, rfl⟩

/-- A recorded fact joins one derivation path for each return node and formal. -/
theorem recorded_onePathEach {p : Payload} (h : summary_facts fd t i = some p) :
    ∃ chosen, OnePathEach fd t i p chosen := by
  obtain ⟨chosen, hchosen⟩ := exists_chosen fd t
  rw [summary_facts_eq] at h
  have hreached : ∀ {ret v}, ReflTransGen (carry.Leads (back fd t)) ret v →
      ∃ q, (v, q) ∈ search (back fd t) Payload.join ret .start := by
    intro ret v hreach
    have hmem : v ∈ (search (back fd t) Payload.join ret .start).map Prod.fst := mem_search_iff.mpr hreach
    obtain ⟨visit, hvisit, rfl⟩ := List.mem_map.mp hmem
    exact ⟨visit.2, hvisit⟩
  refine ⟨chosen, fun ret hret v hidx hreach => ?_, ?_⟩
  · obtain ⟨q, hq⟩ := hreached hreach
    exact ⟨hret, hidx, (hchosen ret (v, q) hq).1⟩
  · have hset : {q | ∃ ret v, DerivationPath fd t i ret (chosen ret v) v ∧ q = path_payload (chosen ret v)} =
        {q | q ∈ ((return_visits fd t).filter fun v => formal_idx fd v.1 = some i).map Prod.snd} := by
      ext q
      rw [Set.mem_ofPred_eq, Set.mem_ofPred_eq, mem_visits_to]
      constructor
      · rintro ⟨ret, v, hpath, rfl⟩
        obtain ⟨q, hq⟩ := hreached hpath.simple.1.reaches
        rw [← (hchosen ret (v, q) hq).2]
        exact ⟨ret, hpath.returned, v, hq, hpath.formal⟩
      · rintro ⟨ret, hret, v, hq, hidx⟩
        obtain ⟨hsimple, hcarried⟩ := hchosen ret (v, q) hq
        exact ⟨ret, v, ⟨hret, hidx, hsimple⟩, hcarried⟩
    rw [hset]
    exact joined_isLUB h

/-- Where all paths agree, what is recorded is the join over every one of them. -/
theorem recorded_isLUB (hagree : PathsAgree fd t) {p : Payload} (h : summary_facts fd t i = some p) :
    IsLUB (path_payloads fd t i) p := by
  obtain ⟨chosen, hpaths, hjoins⟩ := recorded_onePathEach h
  have hset : path_payloads fd t i =
      {q | ∃ ret v, DerivationPath fd t i ret (chosen ret v) v ∧ q = path_payload (chosen ret v)} := by
    ext q
    constructor
    · rintro ⟨ret, path, v, hpath, rfl⟩
      have hchosen := hpaths ret hpath.returned v hpath.formal hpath.simple.1.reaches
      exact ⟨ret, v, hchosen, hagree i ret v path (chosen ret v) hpath hchosen⟩
    · rintro ⟨ret, v, hpath, rfl⟩
      exact ⟨ret, chosen ret v, v, hpath, rfl⟩
  rw [hset]
  exact hjoins

theorem Relisted.formal_idx (h : Relisted fd fd') : formal_idx fd = formal_idx fd' := by
  funext node
  unfold resolve.formal_idx
  rw [h.formal_ins]

theorem Relisted.mem_back (h : Relisted fd fd') (hop : Hop String Payload) :
    hop ∈ back fd t ↔ hop ∈ back fd' t := by
  simp only [back, List.mem_append, List.mem_map, List.mem_flatMap, h.intra.mem_iff, h.calls.mem_iff]

theorem chain_congr {α δ : Type} {hops hops' : List (Hop α δ)} (h : ∀ hop, hop ∈ hops ↔ hop ∈ hops')
    (path : List (Hop α δ)) (x y : α) : Chain hops x path y ↔ Chain hops' x path y := by
  induction path generalizing x with
  | nil => exact Iff.rfl
  | cons first rest ih => simp only [Chain, h, ih]

/-- The derivation paths do not depend on the listing. -/
theorem Relisted.derivationPath (h : Relisted fd fd') {ret v : String} {path : List (Hop String Payload)} :
    DerivationPath fd t i ret path v ↔ DerivationPath fd' t i ret path v := by
  have hchain := chain_congr (h.mem_back (t := t)) path ret v
  constructor
  · rintro ⟨hret, hidx, hsimple, hnodup⟩
    exact ⟨h.returns ▸ hret, h.formal_idx ▸ hidx, hchain.mp hsimple, hnodup⟩
  · rintro ⟨hret, hidx, hsimple, hnodup⟩
    exact ⟨h.returns ▸ hret, h.formal_idx ▸ hidx, hchain.mpr hsimple, hnodup⟩

theorem Relisted.leads (h : Relisted fd fd') : carry.Leads (back fd t) = carry.Leads (back fd' t) := by
  funext x y
  simp only [carry.Leads, h.mem_back]

theorem Relisted.recorded (h : Relisted fd fd') :
    (summary_facts fd t i).isSome ↔ (summary_facts fd' t i).isSome := by
  rw [recorded_iff, recorded_iff, h.leads, h.formal_idx, h.returns]

/-- Where all paths agree, the summary does not depend on the listing. -/
theorem Relisted.compute_summary_eq (h : Relisted fd fd') (hagree : PathsAgree fd t) :
    compute_summary fd t = compute_summary fd' t := by
  have hagree' : PathsAgree fd' t := fun i ret v path path' hpath hpath' =>
    hagree i ret v path path' (h.derivationPath.mpr hpath) (h.derivationPath.mpr hpath')
  have hfacts : summary_facts fd t = summary_facts fd' t := by
    funext i
    have hpayloads : path_payloads fd t i = path_payloads fd' t i := by
      simp only [path_payloads, h.derivationPath]
    cases hp : summary_facts fd t i with
    | none =>
      have hnone := h.recorded (t := t) (i := i)
      rw [hp] at hnone
      have hempty : summary_facts fd' t i = none := by simpa using hnone
      exact hempty.symm
    | some p =>
      obtain ⟨q, hq⟩ := Option.isSome_iff_exists.mp (h.recorded.mp (Option.isSome_of_eq_some hp))
      have hleft := recorded_isLUB hagree hp
      rw [hpayloads] at hleft
      rw [hq, hleft.unique (recorded_isLUB hagree' hq)]
  unfold compute_summary
  rw [hfacts]

/-- A summary records a formal exactly when a return node derives from it, with the join of
one derivation path for each return node and formal; in what order the hops and calls are
listed does not decide which formals these are. Where the paths between two nodes agree, the
fact is the join over all of them, in whatever order they are listed. -/
theorem summary_joins_one_path_each (fd : FnDataflow) (t : Summaries) :
    (∀ i, (∃ sf ∈ compute_summary fd t, sf.formal_in_idx = i) ↔
      ∃ ret path v, DerivationPath fd t i ret path v) ∧
    (∀ sf ∈ compute_summary fd t, ∃ chosen,
      OnePathEach fd t sf.formal_in_idx (sf.transform, sf.condition) chosen) ∧
    (∀ fd', Relisted fd fd' → ∀ i, (∃ sf ∈ compute_summary fd t, sf.formal_in_idx = i) ↔
      ∃ sf ∈ compute_summary fd' t, sf.formal_in_idx = i) ∧
    (PathsAgree fd t → JoinsEveryPath fd t ∧
      ∀ fd', Relisted fd fd' → compute_summary fd t = compute_summary fd' t) := by
  refine ⟨fun i => ?_, fun sf hsf => recorded_onePathEach (mem_compute_summary.mp hsf).2,
    fun fd' h i => ?_, fun hagree => ⟨fun sf hsf => ?_, fun fd' h => h.compute_summary_eq hagree⟩⟩
  · rw [exists_fact_iff]
    constructor
    · rintro ⟨ret, hret, v, hreach, hidx⟩
      have hmem : v ∈ (search (back fd t) Payload.join ret .start).map Prod.fst := mem_search_iff.mpr hreach
      obtain ⟨visit, hvisit, rfl⟩ := List.mem_map.mp hmem
      obtain ⟨path, hsimple, _⟩ := search_path hvisit
      exact ⟨ret, path, visit.1, hret, hidx, hsimple⟩
    · rintro ⟨ret, path, v, hret, hidx, hsimple⟩
      exact ⟨ret, hret, v, hsimple.1.reaches, hidx⟩
  · rw [exists_fact_iff, exists_fact_iff, h.leads, h.formal_idx, h.returns]
  · exact recorded_isLUB hagree (mem_compute_summary.mp hsf).2

/-- A return value copied from `x`, or projected from it under a condition. -/
def diamond : FnDataflow :=
  ⟨[⟨"f::return#0", "f::a#1", .Copy, .Conditional⟩, ⟨"f::a#1", "f::x#0", .Projection, .Always⟩,
    ⟨"f::return#0", "f::x#0", .Copy, .Always⟩], ["f::return#0"], ["f::x#0"], []⟩

/-- The direct hop listed first. -/
def diamond_relisted : FnDataflow :=
  ⟨[⟨"f::return#0", "f::x#0", .Copy, .Always⟩, ⟨"f::return#0", "f::a#1", .Copy, .Conditional⟩,
    ⟨"f::a#1", "f::x#0", .Projection, .Always⟩], ["f::return#0"], ["f::x#0"], []⟩

theorem first_path_hides_the_guarded_one :
    ¬ JoinsEveryPath diamond (fun _ => none) ∧ Relisted diamond diamond_relisted ∧
      compute_summary diamond (fun _ => none) = [⟨0, .Return, .Copy, .Always⟩] ∧
      compute_summary diamond_relisted (fun _ => none) = [⟨0, .Return, .Projection, .Conditional⟩] := by
  have hdiamond : compute_summary diamond (fun _ => none) = [⟨0, .Return, .Copy, .Always⟩] := by
    decide +kernel
  have hrelisted : compute_summary diamond_relisted (fun _ => none) = [⟨0, .Return, .Projection, .Conditional⟩] := by
    decide +kernel
  refine ⟨fun hjoins => ?_, ⟨by decide, .refl _, rfl, rfl⟩, hdiamond, hrelisted⟩
  have hlub := hjoins ⟨0, .Return, .Copy, .Always⟩ (hdiamond ▸ List.mem_singleton_self _)
  have hguarded : DerivationPath diamond (fun _ => none) 0 "f::return#0"
      [⟨"f::return#0", "f::a#1", (.Copy, .Conditional)⟩, ⟨"f::a#1", "f::x#0", (.Projection, .Always)⟩]
      "f::x#0" :=
    ⟨by decide, by decide, by simp [Chain, back, diamond], by decide⟩
  have hbelow := hlub.1 ⟨_, _, _, hguarded, rfl⟩
  have hjoin := Payload.le_iff.mp hbelow
  revert hjoin
  decide

end paths

end cgx.resolve
