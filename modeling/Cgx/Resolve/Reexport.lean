import Mathlib.Data.List.Dedup
import Cgx.Resolve.Symtab

open cgx.core cgx.frontend

namespace cgx.resolve

/-- The definitions an outcome carries. -/
def ResolveOutcome.hits : ResolveOutcome → List DefEntry
  | .Unique hit => [hit]
  | .Ambiguous hits => hits
  | .None => []

theorem hits_of_hits (hits : List DefEntry) : (ResolveOutcome.of_hits hits).hits = hits := by
  match hits with
  | [] => rfl
  | [_] => rfl
  | _ :: _ :: _ => rfl

theorem of_hits_eq_none {hits : List DefEntry} : ResolveOutcome.of_hits hits = .None ↔ hits = [] := by
  constructor
  · intro h
    rw [← hits_of_hits hits, h]
    rfl
  · rintro rfl
    rfl

namespace SymbolTable

/-- The FQNs of the modules that have members. -/
def modules (t : SymbolTable) : List String :=
  (t.entries.filterMap fun d => module_prefix d.fqn).dedup

/-- The modules a specifier stands for, in the order in which they are tried. -/
def addressed (t : SymbolTable) (spec : String) : List String :=
  (candidate_module_prefixes spec).flatMap fun p =>
    t.modules.filter fun m => short_name m = short_name p

/-- A place on a re-export chain is a module specifier and the name looked for in it. -/
def hop_key (hop : String × String) : String × String :=
  (last_segment hop.1, hop.2)

/-- The re-export chain from a place, as long as it goes. -/
def chain (t : SymbolTable) (start : String × String) : Nat → Option (String × String)
  | 0 => some start
  | n + 1 => (t.chain start n).bind fun hop => t.reexport (hop_key hop)

/-- None of the modules addressed has a member of the name. -/
def Barren (t : SymbolTable) (hop : String × String) : Prop :=
  ∀ m ∈ t.addressed hop.1, t.members_of m hop.2 = []

/-- No place on the chain before the `n`-th has a member. -/
def BarrenBefore (t : SymbolTable) (start : String × String) (n : Nat) : Prop :=
  ∀ i < n, ∀ hop, t.chain start i = some hop → t.Barren hop

/-- The chain ends, and no place on it has a member. -/
def Ends (t : SymbolTable) (start : String × String) : Prop :=
  ∃ n, t.chain start n = none ∧ t.BarrenBefore start n

/-- The chain comes back to a place, and none up to there has a member. -/
def Cycles (t : SymbolTable) (start : String × String) : Prop :=
  ∃ i n hop hop', i < n ∧ t.chain start i = some hop ∧ t.chain start n = some hop' ∧ hop_key hop = hop_key hop' ∧
    t.BarrenBefore start (n + 1)

/-- `m` is the first module on the chain that has a member of the name looked for there,
which is `name`. -/
structure FirstModule (t : SymbolTable) (start : String × String) (m name : String) : Prop where
  member : t.members_of m name ≠ []
  first : ∃ n spec before after, t.chain start n = some (spec, name) ∧ t.BarrenBefore start n ∧
    t.addressed spec = before ++ m :: after ∧ ∀ m' ∈ before, t.members_of m' name = []

/-- Every module has a last segment of its own. -/
def SegmentsDistinct (t : SymbolTable) : Prop :=
  ∀ m ∈ t.modules, ∀ m' ∈ t.modules, short_name m = short_name m' → m = m'

/-- The rounds that the loop of `resolve_member` makes from a place until it returns. -/
inductive Chase (t : SymbolTable) : List (String × String) → String × String → ResolveOutcome → Prop where
  | found {visited hop outcome} (hdirect : t.resolve_member_direct hop.1 hop.2 = outcome) (hfound : outcome ≠ .None) :
      Chase t visited hop outcome
  | cyclic {visited hop} (hdirect : t.resolve_member_direct hop.1 hop.2 = .None) (hvisited : hop_key hop ∈ visited) :
      Chase t visited hop .None
  | ended {visited hop} (hdirect : t.resolve_member_direct hop.1 hop.2 = .None) (hvisited : hop_key hop ∉ visited)
      (hnext : t.reexport (hop_key hop) = none) : Chase t visited hop .None
  | hop {visited hop next outcome} (hdirect : t.resolve_member_direct hop.1 hop.2 = .None)
      (hvisited : hop_key hop ∉ visited) (hnext : t.reexport (hop_key hop) = some next)
      (hrest : Chase t (hop_key hop :: visited) next outcome) : Chase t visited hop outcome

variable {t : SymbolTable}

/-! ### One hop -/

theorem mem_modules {m : String} : m ∈ t.modules ↔ ∃ d ∈ t.entries, module_prefix d.fqn = some m := by
  rw [modules, List.mem_dedup, List.mem_filterMap]

theorem mem_members_of {m name : String} {d : DefEntry} :
    d ∈ t.members_of m name ↔ d ∈ t.entries ∧ module_prefix d.fqn = some m ∧ short_name d.fqn = name := by
  rw [members_of, List.mem_filter, decide_eq_true_eq]

theorem mem_members_by_suffix {last name : String} {d : DefEntry} :
    d ∈ t.members_by_suffix last name ↔ ∃ m ∈ t.modules, short_name m = last ∧ d ∈ t.members_of m name := by
  rw [members_by_suffix, List.mem_filter, decide_eq_true_eq, Option.map_eq_some_iff]
  constructor
  · rintro ⟨hd, ⟨m, hm, hlast⟩, hname⟩
    exact ⟨m, mem_modules.mpr ⟨d, hd, hm⟩, hlast, mem_members_of.mpr ⟨hd, hm, hname⟩⟩
  · rintro ⟨m, _, hlast, hmember⟩
    obtain ⟨hd, hm, hname⟩ := mem_members_of.mp hmember
    exact ⟨hd, ⟨m, hm, hlast⟩, hname⟩

theorem members_by_suffix_eq_nil {last name : String} :
    t.members_by_suffix last name = [] ↔ ∀ m ∈ t.modules, short_name m = last → t.members_of m name = [] := by
  simp only [List.eq_nil_iff_forall_not_mem, mem_members_by_suffix]
  constructor
  · exact fun h m hm hlast d hd => h d ⟨m, hm, hlast, hd⟩
  · rintro h d ⟨m, hm, hlast, hd⟩
    exact h m hm hlast d hd

/-- What is no module has no members. -/
theorem members_of_eq_nil {m : String} (hm : m ∉ t.modules) (name : String) : t.members_of m name = [] := by
  rw [List.eq_nil_iff_forall_not_mem]
  intro d hd
  obtain ⟨hd, hprefix, _⟩ := mem_members_of.mp hd
  exact hm (mem_modules.mpr ⟨d, hd, hprefix⟩)

theorem resolve_in_prefixes_eq_none {name : String} {prefixes : List String} :
    t.resolve_in_prefixes name prefixes = .None ↔
      ∀ p ∈ prefixes, t.members_by_suffix (short_name p) name = [] := by
  induction prefixes with
  | nil => simp [resolve_in_prefixes]
  | cons p rest ih =>
    rw [List.forall_mem_cons, ← ih, resolve_in_prefixes]
    by_cases hsuffix : t.members_by_suffix (short_name p) name = []
    · -- A module of that FQN would have members under its last segment too.
      have hdirect : t.members_of p name = [] := by
        by_cases hp : p ∈ t.modules
        · exact members_by_suffix_eq_nil.mp hsuffix p hp rfl
        · exact members_of_eq_nil hp name
      rw [hdirect, hsuffix]
      exact (and_iff_right rfl).symm
    · refine iff_of_false ?_ fun h => hsuffix h.1
      have hfound : ResolveOutcome.of_hits (t.members_by_suffix (short_name p) name) ≠ .None :=
        mt of_hits_eq_none.mp hsuffix
      split
      · split
        · exact absurd (by assumption) hfound
        · assumption
      · assumption

/-- A hop finds nothing when no module addressed has a member of the name. -/
theorem resolve_member_direct_eq_none {spec name : String} :
    t.resolve_member_direct spec name = .None ↔ t.Barren (spec, name) := by
  rw [resolve_member_direct, resolve_in_prefixes_eq_none]
  simp only [members_by_suffix_eq_nil, Barren, addressed, List.mem_flatMap, List.mem_filter, decide_eq_true_eq]
  constructor
  · rintro h m ⟨p, hp, hm, hlast⟩
    exact h p hp m hm hlast
  · exact fun h p hp m hm hlast => h m ⟨p, hp, hm, hlast⟩

theorem hits_resolve_in_prefixes {name : String} {prefixes : List String} {d : DefEntry}
    (hd : d ∈ (t.resolve_in_prefixes name prefixes).hits) :
    ∃ p ∈ prefixes, d ∈ t.members_by_suffix (short_name p) name := by
  induction prefixes with
  | nil => cases hd
  | cons p rest ih =>
    rw [resolve_in_prefixes] at hd
    by_cases hdirect : t.members_of p name = []
    · by_cases hsuffix : t.members_by_suffix (short_name p) name = []
      · rw [hdirect, hsuffix] at hd
        obtain ⟨q, hq, hmem⟩ := ih hd
        exact ⟨q, List.mem_cons_of_mem p hq, hmem⟩
      · rw [hdirect] at hd
        have hfound := mt of_hits_eq_none.mp hsuffix
        refine ⟨p, List.mem_cons_self, ?_⟩
        rw [← hits_of_hits (t.members_by_suffix _ _)]
        revert hd
        cases h : ResolveOutcome.of_hits (t.members_by_suffix (short_name p) name) with
        | None => exact absurd h hfound
        | Unique hit => exact id
        | Ambiguous hits => exact id
    · have hfound := mt of_hits_eq_none.mp hdirect
      have hmem : d ∈ t.members_of p name := by
        rw [← hits_of_hits (t.members_of p name)]
        revert hd
        cases h : ResolveOutcome.of_hits (t.members_of p name) with
        | None => exact absurd h hfound
        | Unique hit => exact id
        | Ambiguous hits => exact id
      obtain ⟨hentry, hprefix, _⟩ := mem_members_of.mp hmem
      exact ⟨p, List.mem_cons_self, mem_members_by_suffix.mpr ⟨p, mem_modules.mpr ⟨d, hentry, hprefix⟩, rfl, hmem⟩⟩

/-- What a hop finds are members of a module addressed. -/
theorem hits_resolve_member_direct {spec name : String} {d : DefEntry}
    (hd : d ∈ (t.resolve_member_direct spec name).hits) :
    ∃ m ∈ t.addressed spec, d ∈ t.members_of m name := by
  obtain ⟨p, hp, hsuffix⟩ := hits_resolve_in_prefixes hd
  obtain ⟨m, hm, hlast, hmember⟩ := mem_members_by_suffix.mp hsuffix
  refine ⟨m, List.mem_flatMap.mpr ⟨p, hp, ?_⟩, hmember⟩
  exact List.mem_filter.mpr ⟨hm, decide_eq_true hlast⟩

/-- Modules with distinct last segments: at most one of them has that of `p`. -/
theorem SegmentsDistinct.filter_eq (hdistinct : t.SegmentsDistinct) (p : String) :
    (t.modules.filter fun m => short_name m = short_name p) = [] ∨
      ∃ m, (t.modules.filter fun m => short_name m = short_name p) = [m] := by
  have hnodup : (t.modules.filter fun m => short_name m = short_name p).Nodup :=
    (List.nodup_dedup _).filter _
  have hsame : ∀ m ∈ t.modules.filter (fun m => short_name m = short_name p),
      ∀ m' ∈ t.modules.filter (fun m => short_name m = short_name p), m = m' := by
    intro m hm m' hm'
    rw [List.mem_filter, decide_eq_true_eq] at hm hm'
    exact hdistinct m hm.1 m' hm'.1 (hm.2.trans hm'.2.symm)
  generalize (t.modules.filter fun m => short_name m = short_name p) = ms at hnodup hsame
  match ms with
  | [] => exact .inl rfl
  | [m] => exact .inr ⟨m, rfl⟩
  | m :: m' :: rest =>
    have heq := hsame m List.mem_cons_self m' (List.mem_cons_of_mem m List.mem_cons_self)
    exact absurd (heq ▸ List.mem_cons_self) (List.nodup_cons.mp hnodup).1

/-- The lookups under a module prefix see the one module with its last segment. -/
theorem SegmentsDistinct.members_eq (hdistinct : t.SegmentsDistinct) {p m : String} (hm : m ∈ t.modules)
    (hlast : short_name m = short_name p) (name : String) :
    t.members_by_suffix (short_name p) name = t.members_of m name ∧
      (t.members_of p name = [] ∨ t.members_of p name = t.members_of m name) := by
  constructor
  · refine List.filter_congr fun d hd => decide_eq_decide.mpr (and_congr_left fun _ => ?_)
    rw [Option.map_eq_some_iff]
    constructor
    · rintro ⟨m', hm', hlast'⟩
      rw [hm', hdistinct m' (mem_modules.mpr ⟨d, hd, hm'⟩) m hm (hlast'.trans hlast.symm)]
    · exact fun hm' => ⟨m, hm', hlast⟩
  · by_cases hp : p ∈ t.modules
    · exact .inr (by rw [hdistinct p hp m hm hlast.symm])
    · exact .inl (members_of_eq_nil hp name)

/-- With distinct last segments a hop finds the members of the first module addressed that
has any. -/
theorem SegmentsDistinct.resolve_in_prefixes (hdistinct : t.SegmentsDistinct) {prefixes before after : List String}
    {m name : String}
    (haddressed : (prefixes.flatMap fun p => t.modules.filter fun m => short_name m = short_name p) =
      before ++ m :: after)
    (hbefore : ∀ m' ∈ before, t.members_of m' name = []) (hmember : t.members_of m name ≠ []) :
    t.resolve_in_prefixes name prefixes = .of_hits (t.members_of m name) := by
  induction prefixes generalizing before with
  | nil => simp at haddressed
  | cons p rest ih =>
    rw [SymbolTable.resolve_in_prefixes]
    obtain hnone | ⟨m₀, hone⟩ := hdistinct.filter_eq p
    · -- No module has the last segment of `p`.
      have hsuffix : t.members_by_suffix (short_name p) name = [] := by
        refine members_by_suffix_eq_nil.mpr fun m' hm' hlast => ?_
        have hmem : m' ∈ t.modules.filter fun m => short_name m = short_name p :=
          List.mem_filter.mpr ⟨hm', decide_eq_true hlast⟩
        rw [hnone] at hmem
        cases hmem
      have hp : t.members_of p name = [] := by
        refine members_of_eq_nil (fun hp => ?_) name
        have hmem : p ∈ t.modules.filter fun m => short_name m = short_name p :=
          List.mem_filter.mpr ⟨hp, decide_eq_true rfl⟩
        rw [hnone] at hmem
        cases hmem
      rw [List.flatMap_cons, hnone, List.nil_append] at haddressed
      rw [hp, hsuffix]
      exact ih haddressed hbefore
    · have hm₀ : m₀ ∈ t.modules.filter fun m => short_name m = short_name p := hone ▸ List.mem_cons_self
      rw [List.mem_filter, decide_eq_true_eq] at hm₀
      obtain ⟨hsuffix, hp⟩ := hdistinct.members_eq hm₀.1 hm₀.2 name
      rw [List.flatMap_cons, hone, List.singleton_append] at haddressed
      rw [hsuffix]
      cases before with
      | nil =>
        obtain ⟨rfl, rfl⟩ := List.cons.inj haddressed
        have hfound := mt of_hits_eq_none.mp hmember
        obtain hp | hp := hp
        · rw [hp, of_hits_eq_none.mpr rfl]
          dsimp only
          split
          · exact absurd (by assumption) hfound
          · rfl
        · rw [hp]
          split
          · exact absurd (by assumption) hfound
          · rfl
      | cons m' before =>
        obtain ⟨rfl, htail⟩ := List.cons.inj haddressed
        have hempty := hbefore m₀ List.mem_cons_self
        have hp : t.members_of p name = [] := hp.elim id fun h => h.trans hempty
        rw [hp, hempty]
        exact ih htail fun m' hm' => hbefore m' (List.mem_cons_of_mem m₀ hm')

/-! ### The loop ends -/

theorem exists_row_of_reexport {key next : String × String} (h : t.reexport key = some next) :
    key ∈ t.reexports.map Prod.fst := by
  obtain ⟨row, hrow, _⟩ := Option.map_eq_some_iff.mp h
  have hkey := List.find?_some hrow
  have hmem := List.mem_reverse.mp (List.mem_of_find?_eq_some hrow)
  exact List.mem_map.mpr ⟨row, hmem, of_decide_eq_true hkey⟩

/-- Each key is visited once, and only keys of re-exports are, so the fuel does not run out. -/
theorem chase_resolve_member_from {fuel : Nat} {visited : List (String × String)} {spec name : String}
    (hnodup : visited.Nodup) (hkeys : ∀ key ∈ visited, key ∈ t.reexports.map Prod.fst)
    (hfuel : t.reexports.length + 2 ≤ fuel + visited.length) :
    Chase t visited (spec, name) (t.resolve_member_from fuel visited spec name) := by
  induction fuel generalizing visited spec name with
  | zero =>
    have hle := (List.subperm_of_subset hnodup hkeys).length_le
    rw [List.length_map] at hle
    omega
  | succ fuel ih =>
    rw [resolve_member_from]
    cases hdirect : t.resolve_member_direct spec name with
    | Unique hit => exact .found hdirect ResolveOutcome.noConfusion
    | Ambiguous hits => exact .found hdirect ResolveOutcome.noConfusion
    | None =>
      dsimp only
      by_cases hvisited : (last_segment spec, name) ∈ visited
      · rw [if_pos hvisited]
        exact .cyclic hdirect hvisited
      · rw [if_neg hvisited]
        cases hnext : t.reexport (last_segment spec, name) with
        | none => exact .ended hdirect hvisited hnext
        | some next =>
          refine .hop hdirect hvisited hnext (ih (List.nodup_cons.mpr ⟨hvisited, hnodup⟩) ?_ ?_)
          · exact List.forall_mem_cons.mpr ⟨exists_row_of_reexport hnext, hkeys⟩
          · rw [List.length_cons]
            omega

theorem chase_resolve_member (spec name : String) : Chase t [] (spec, name) (t.resolve_member spec name) := by
  refine chase_resolve_member_from List.nodup_nil (fun _ h => nomatch h) ?_
  rw [List.length_nil, Nat.add_zero]

/-! ### What the loop returns -/

theorem BarrenBefore.succ {start hop : String × String} {n : Nat} (h : t.BarrenBefore start n)
    (hhop : t.chain start n = some hop) (hbarren : t.Barren hop) : t.BarrenBefore start (n + 1) := by
  intro i hi g hg
  obtain hlt | rfl := Nat.lt_succ_iff_lt_or_eq.mp hi
  · exact h i hlt g hg
  · rw [hhop] at hg
    exact Option.some.inj hg ▸ hbarren

/-- A round at the `n`-th place, when the places before it had nothing and are those
visited. -/
theorem Chase.spec {visited : List (String × String)} {hop : String × String} {outcome : ResolveOutcome}
    (h : Chase t visited hop outcome) {start : String × String} {n : Nat} (hhop : t.chain start n = some hop)
    (hbefore : t.BarrenBefore start n)
    (hvisited : ∀ key ∈ visited, ∃ i < n, ∃ g, t.chain start i = some g ∧ hop_key g = key) :
    outcome = .None ∧ (t.Ends start ∨ t.Cycles start) ∨
      ∃ k g, t.chain start k = some g ∧ t.BarrenBefore start k ∧ ¬ t.Barren g ∧
        outcome = t.resolve_member_direct g.1 g.2 := by
  induction h generalizing n with
  | found hdirect hfound =>
    refine .inr ⟨n, _, hhop, hbefore, fun hbarren => hfound ?_, hdirect.symm⟩
    rw [← hdirect]
    exact resolve_member_direct_eq_none.mpr hbarren
  | cyclic hdirect hseen =>
    obtain ⟨i, hi, g, hg, hkey⟩ := hvisited _ hseen
    have hbarren := resolve_member_direct_eq_none.mp hdirect
    exact .inl ⟨rfl, .inr ⟨i, n, g, _, hi, hg, hhop, hkey, hbefore.succ hhop hbarren⟩⟩
  | ended hdirect hseen hnext =>
    have hbarren := resolve_member_direct_eq_none.mp hdirect
    refine .inl ⟨rfl, .inl ⟨n + 1, ?_, hbefore.succ hhop hbarren⟩⟩
    rw [chain, hhop]
    exact hnext
  | hop hdirect hseen hnext hrest ih =>
    have hbarren := resolve_member_direct_eq_none.mp hdirect
    refine ih (n := n + 1) ?_ (hbefore.succ hhop hbarren) ?_
    · rw [chain, hhop]
      exact hnext
    · refine List.forall_mem_cons.mpr ⟨⟨n, Nat.lt_succ_self n, _, hhop, rfl⟩, fun key hkey => ?_⟩
      obtain ⟨i, hi, hplace⟩ := hvisited key hkey
      exact ⟨i, Nat.lt_succ_of_lt hi, hplace⟩

theorem chain_none_of_le {start : String × String} {i n : Nat} (h : t.chain start i = none) (hle : i ≤ n) :
    t.chain start n = none := by
  induction hle with
  | refl => exact h
  | step _ ih => rw [chain, ih, Option.bind_none]

/-- Places with one key go on alike. -/
theorem chain_add_of_key {start hop hop' : String × String} {i n : Nat} (hi : t.chain start i = some hop)
    (hn : t.chain start n = some hop') (hkey : hop_key hop = hop_key hop') (k : Nat) :
    t.chain start (i + k + 1) = t.chain start (n + k + 1) := by
  induction k with
  | zero => rw [Nat.add_zero, Nat.add_zero, chain, chain, hi, hn, Option.bind_some, Option.bind_some, hkey]
  | succ k ih =>
    rw [← Nat.add_assoc, ← Nat.add_assoc, chain, ih]
    rfl

/-- On a chain that comes back without a member there is none. -/
theorem Cycles.barren {start : String × String} (h : t.Cycles start) {k : Nat} {g : String × String}
    (hg : t.chain start k = some g) : t.Barren g := by
  obtain ⟨i, n, hop, hop', hlt, hi, hn, hkey, hbefore⟩ := h
  induction k using Nat.strongRecOn with
  | ind k ih =>
    obtain hk | hk := Nat.lt_or_ge k (n + 1)
    · exact hbefore k hk g hg
    · -- Past `n` the place is the one as far past `i`.
      have hsame := chain_add_of_key hi hn hkey (k - (n + 1))
      rw [show n + (k - (n + 1)) + 1 = k by omega, hg] at hsame
      exact ih _ (by omega) hsame

theorem Ends.barren {start : String × String} (h : t.Ends start) {k : Nat} {g : String × String}
    (hg : t.chain start k = some g) : t.Barren g := by
  obtain ⟨n, hn, hbefore⟩ := h
  obtain hk | hk := Nat.lt_or_ge k n
  · exact hbefore k hk g hg
  · rw [chain_none_of_le hn hk] at hg
    cases hg

/-- The lookup answers at the first place of the chain where a module addressed has a
member, and with nothing when there is none. -/
theorem resolve_member_spec (spec name : String) :
    t.resolve_member spec name = .None ∧ (t.Ends (spec, name) ∨ t.Cycles (spec, name)) ∨
      ∃ n hop, t.chain (spec, name) n = some hop ∧ t.BarrenBefore (spec, name) n ∧ ¬ t.Barren hop ∧
        t.resolve_member spec name = t.resolve_member_direct hop.1 hop.2 :=
  (chase_resolve_member spec name).spec (n := 0) rfl (fun _ h => absurd h (Nat.not_lt_zero _)) (fun _ h => nomatch h)

/-- The rounds leave no choice. -/
theorem Chase.unique {visited : List (String × String)} {hop : String × String} {outcome outcome' : ResolveOutcome}
    (h : Chase t visited hop outcome) (h' : Chase t visited hop outcome') : outcome = outcome' := by
  induction h with
  | found hdirect hfound =>
    cases h' with
    | found hdirect' _ => exact hdirect.symm.trans hdirect'
    | cyclic hdirect' _ => exact absurd (hdirect.symm.trans hdirect') hfound
    | ended hdirect' _ _ => exact absurd (hdirect.symm.trans hdirect') hfound
    | hop hdirect' _ _ _ => exact absurd (hdirect.symm.trans hdirect') hfound
  | cyclic hdirect hseen =>
    cases h' with
    | found hdirect' hfound' => exact absurd (hdirect'.symm.trans hdirect) hfound'
    | cyclic _ _ => rfl
    | ended _ _ _ => rfl
    | hop _ hseen' _ _ => exact absurd hseen hseen'
  | ended hdirect hseen hnext =>
    cases h' with
    | found hdirect' hfound' => exact absurd (hdirect'.symm.trans hdirect) hfound'
    | cyclic _ _ => rfl
    | ended _ _ _ => rfl
    | hop _ _ hnext' _ => exact absurd (hnext.symm.trans hnext') (by simp)
  | hop hdirect hseen hnext _ ih =>
    cases h' with
    | found hdirect' hfound' => exact absurd (hdirect'.symm.trans hdirect) hfound'
    | cyclic _ hseen' => exact absurd hseen' hseen
    | ended _ _ hnext' => exact absurd (hnext.symm.trans hnext') (by simp)
    | hop _ _ hnext' hrest' =>
      obtain rfl := Option.some.inj (hnext.symm.trans hnext')
      exact ih hrest'

/-- The first place with a member is reached before the chain ends or comes back. -/
theorem FirstModule.not_none {start : String × String} {m name : String} (h : t.FirstModule start m name) :
    ¬ (t.Ends start ∨ t.Cycles start) := by
  obtain ⟨n, spec, before, after, hhop, _, haddressed, _⟩ := h.first
  intro hnone
  have hbarren : t.Barren (spec, name) := hnone.elim (fun hends => hends.barren hhop) fun hcycles => hcycles.barren hhop
  have hm : m ∈ t.addressed spec := haddressed ▸ List.mem_append_right before List.mem_cons_self
  exact h.member (hbarren m hm)

/-- There is one first place with a member. -/
theorem first_unique {start hop hop' : String × String} {n n' : Nat} (hhop : t.chain start n = some hop)
    (hbefore : t.BarrenBefore start n) (hbarren : ¬ t.Barren hop) (hhop' : t.chain start n' = some hop')
    (hbefore' : t.BarrenBefore start n') (hbarren' : ¬ t.Barren hop') : hop = hop' := by
  obtain hlt | rfl | hgt := Nat.lt_trichotomy n n'
  · exact absurd (hbefore' n hlt hop hhop) hbarren
  · exact Option.some.inj (hhop.symm.trans hhop')
  · exact absurd (hbefore n' hgt hop' hhop') hbarren'

/-- The lookup of a member ends. With a last segment for each module it returns the members
of the first module on the re-export chain that has any. It returns nothing just when the
chain ends or comes back without a member, and only members of modules that a specifier on
the chain addresses. -/
theorem resolve_member_follows_reexports (t : SymbolTable) (spec name : String) :
    Chase t [] (spec, name) (t.resolve_member spec name) ∧
      (∀ outcome, Chase t [] (spec, name) outcome → outcome = t.resolve_member spec name) ∧
      (t.SegmentsDistinct → ∀ m name', t.FirstModule (spec, name) m name' →
        t.resolve_member spec name = .of_hits (t.members_of m name')) ∧
      (t.resolve_member spec name = .None ↔ t.Ends (spec, name) ∨ t.Cycles (spec, name)) ∧
      ∀ d ∈ (t.resolve_member spec name).hits, ∃ n hop, t.chain (spec, name) n = some hop ∧
        ∃ m ∈ t.addressed hop.1, d ∈ t.members_of m hop.2 := by
  have hchase := chase_resolve_member (t := t) spec name
  refine ⟨hchase, fun _ h => h.unique hchase, ?_, ?_, ?_⟩
  · intro hdistinct m name' hfirst
    obtain ⟨_, hnone⟩ | ⟨n, hop, hhop, hbefore, hbarren, heq⟩ := resolve_member_spec (t := t) spec name
    · exact absurd hnone hfirst.not_none
    · obtain ⟨n', spec', before, after, hhop', hbefore', haddressed, hearlier⟩ := hfirst.first
      have hbarren' : ¬ t.Barren (spec', name') := fun h =>
        hfirst.member (h m (haddressed ▸ List.mem_append_right before List.mem_cons_self))
      obtain rfl := first_unique hhop hbefore hbarren hhop' hbefore' hbarren'
      rw [heq]
      exact hdistinct.resolve_in_prefixes haddressed hearlier hfirst.member
  · obtain ⟨hnone, hend⟩ | ⟨n, hop, hhop, _, hbarren, heq⟩ := resolve_member_spec (t := t) spec name
    · exact iff_of_true hnone hend
    · refine iff_of_false (fun hnone => hbarren ?_) fun hend => hbarren ?_
      · exact resolve_member_direct_eq_none.mp (heq.symm.trans hnone)
      · exact hend.elim (fun hends => hends.barren hhop) fun hcycles => hcycles.barren hhop
  · intro d hd
    obtain ⟨hnone, _⟩ | ⟨n, hop, hhop, _, _, heq⟩ := resolve_member_spec (t := t) spec name
    · rw [hnone] at hd
      cases hd
    · rw [heq] at hd
      exact ⟨n, hop, hhop, hits_resolve_member_direct hd⟩

/-- The file of `a::m` has `pub use c::x`, and `b::m` has an `x` of its own. -/
def shared_segment : SymbolTable where
  entries := [⟨⟨0⟩, "a::m::y", .Function, some 0, "rust", "a/m.rs"⟩, ⟨⟨1⟩, "b::m::x", .Function, some 0, "rust", "b/m.rs"⟩,
    ⟨⟨2⟩, "c::x", .Function, some 0, "rust", "c.rs"⟩]
  reexports := record_reexports "m" { FileFacts.empty with imports := [⟨"c", [⟨"x", none⟩], false, true, default⟩] }

/-- The lookup of `x` in `a::m` answers with the `x` of `b::m`, although the chain goes from
`a::m` to `c` and both are modules of the table. -/
theorem shared_segment_leaves_the_chain :
    (∃ d, shared_segment.resolve_member "a::m" "x" = .Unique d ∧ module_prefix d.fqn = some "b::m") ∧
      "a::m" ∈ shared_segment.modules ∧ "c" ∈ shared_segment.modules ∧
      ∀ n hop, shared_segment.chain ("a::m", "x") n = some hop → hop = ("a::m", "x") ∨ hop = ("c", "x") := by
  refine ⟨⟨⟨⟨1⟩, "b::m::x", .Function, some 0, "rust", "b/m.rs"⟩, by decide +kernel, by decide +kernel⟩,
    by decide +kernel, by decide +kernel, fun n hop hhop => ?_⟩
  match n with
  | 0 => exact .inl (Option.some.inj hhop).symm
  | 1 =>
    have hone : shared_segment.chain ("a::m", "x") 1 = some ("c", "x") := by decide +kernel
    exact .inr (Option.some.inj (hhop.symm.trans hone))
  | n + 2 =>
    have hend : shared_segment.chain ("a::m", "x") 2 = none := by decide +kernel
    rw [chain_none_of_le hend (Nat.le_add_left 2 n)] at hhop
    cases hhop

end SymbolTable

end cgx.resolve
