import Mathlib.Data.List.Pairwise
import Cgx.Resolve.Renumber

open cgx.core cgx.frontend sorting

namespace cgx.resolve

theorem entry_of_upsert {κ ν : Type} [DecidableEq κ] (k k' : κ) (f : Option ν → ν)
    (rows : List (κ × ν)) :
    entry_of k (upsert k' f rows) = if k' = k then some (f (entry_of k rows)) else entry_of k rows := by
  induction rows with
  | nil => by_cases h : k' = k <;> simp [upsert, entry_of, h]
  | cons row rest ih =>
    obtain ⟨k₀, v⟩ := row
    rw [upsert]
    by_cases h₀ : k₀ = k'
    · subst h₀
      rw [if_pos rfl]
      by_cases h : k₀ = k <;> simp [entry_of, h]
    · rw [if_neg h₀]
      by_cases h : k₀ = k
      · subst h
        simp [entry_of, Ne.symm h₀]
      · have hskip : ∀ rows' : List (κ × ν), entry_of k ((k₀, v) :: rows') = entry_of k rows' := by
          intro rows'
          simp [entry_of, h]
        rw [hskip, hskip, ih]

/-- Replacing a value adds no second row of a key. -/
theorem keys_upsert {κ ν : Type} [DecidableEq κ] (k : κ) (f : Option ν → ν) (rows : List (κ × ν)) :
    (upsert k f rows).map Prod.fst =
      if k ∈ rows.map Prod.fst then rows.map Prod.fst else rows.map Prod.fst ++ [k] := by
  induction rows with
  | nil => rfl
  | cons row rest ih =>
    obtain ⟨k₀, v⟩ := row
    rw [upsert]
    by_cases h₀ : k₀ = k
    · simp [h₀]
    · rw [if_neg h₀, List.map_cons, ih]
      by_cases h : k ∈ rest.map Prod.fst
      · rw [if_pos h, if_pos (by simp [h]), List.map_cons]
      · rw [if_neg h, if_neg (by simpa [Ne.symm h₀] using h), List.map_cons, List.cons_append]

theorem nodup_keys_upsert {κ ν : Type} [DecidableEq κ] {k : κ} {f : Option ν → ν}
    {rows : List (κ × ν)} (h : (rows.map Prod.fst).Nodup) : ((upsert k f rows).map Prod.fst).Nodup := by
  rw [keys_upsert]
  split
  · exact h
  · rename_i hnew
    exact List.Nodup.append h (List.nodup_singleton k) (by simpa using hnew)

/-- With one row a key, an entry is a row. -/
theorem entry_of_mem {κ ν : Type} [DecidableEq κ] {rows : List (κ × ν)}
    (h : (rows.map Prod.fst).Nodup) {k : κ} {v : ν} (hmem : (k, v) ∈ rows) :
    entry_of k rows = some v := by
  induction rows with
  | nil => cases hmem
  | cons row rest ih =>
    obtain ⟨hnew, hrest⟩ := List.nodup_cons.mp h
    cases List.mem_cons.mp hmem with
    | inl heq =>
      subst heq
      simp [entry_of]
    | inr hlater =>
      have hne : row.1 ≠ k := fun heq => hnew (heq ▸ List.mem_map_of_mem hlater)
      have hskip : entry_of k (row :: rest) = entry_of k rest := by simp [entry_of, hne]
      rw [hskip]
      exact ih hrest hlater

theorem key_of_mem_upsert {κ ν : Type} [DecidableEq κ] {k : κ} {f : Option ν → ν}
    {rows : List (κ × ν)} {row : κ × ν} (h : row ∈ upsert k f rows) :
    row.1 = k ∨ row.1 ∈ rows.map Prod.fst := by
  have hkey : row.1 ∈ (upsert k f rows).map Prod.fst := List.mem_map_of_mem h
  rw [keys_upsert] at hkey
  split at hkey
  · exact .inr hkey
  · simpa [or_comm] using hkey

/-- Renaming the keys keeps the entry of a key that no other is renamed to. -/
theorem entry_of_map {κ ν : Type} [DecidableEq κ] {g : κ → κ} {k : κ} {rows : List (κ × ν)}
    (hinj : ∀ row ∈ rows, g row.1 = g k → row.1 = k) :
    entry_of (g k) (rows.map fun row => (g row.1, row.2)) = entry_of k rows := by
  induction rows with
  | nil => rfl
  | cons row rest ih =>
    have hrest := ih fun r hr => hinj r (List.mem_cons_of_mem row hr)
    by_cases h : row.1 = k
    · subst h
      simp [entry_of]
    · have hg : g row.1 ≠ g k := fun heq => h (hinj row List.mem_cons_self heq)
      simpa [entry_of, h, hg] using hrest

theorem entry_of_eq_none {κ ν : Type} [DecidableEq κ] {k : κ} {rows : List (κ × ν)}
    (h : ∀ row ∈ rows, row.1 ≠ k) : entry_of k rows = none := by
  rw [entry_of, List.find?_eq_none.mpr fun row hrow => by simpa using h row hrow]
  rfl

/-! ### What the ledger notes of one reference -/

def Resolution.is_typed : Resolution → Bool
  | .Typed .. => true
  | _ => false

/-- Bound to typed targets, or proven to call out of the repository. -/
def Resolution.is_narrowed : Resolution → Bool
  | .Typed .. | .External => true
  | _ => false

/-- The nodes that narrowing keeps. -/
def Resolution.kept : Resolution → List NodeId
  | .Typed hits _ _ => hits.map DefEntry.node_id
  | _ => []

/-- What the ledger counts a narrowed site under. -/
def Site.tally_key (site : Site) : String × String :=
  (site.file.lang, site.raw.name_path.getLast?.getD "")

namespace Ledger

def note (site : Site) (r : Resolution) (l : Ledger) : Ledger :=
  match r with
  | .Typed hits _ _ => l.typed site hits
  | .External => l.external site
  | _ => l

def counts_of (l : List (NodeId × NarrowingCounts)) (id : NodeId) : NarrowingCounts :=
  (entry_of id l).getD no_counts

def narrowed_under (l : Ledger) (key : String × String) : UInt32 :=
  (entry_of key l.narrowed).getD 0

def kept_of (l : Ledger) (id : NodeId) : UInt32 :=
  (entry_of id l.kept).getD 0

/-- One for a site that `p` holds of. -/
def tick (p : Bool) : UInt32 :=
  if p then 1 else 0

variable (site : Site) (r : Resolution) (l : Ledger)

theorem note_typed_out (id : NodeId) :
    (counts_of (l.note site r).counts id).typed_out =
      (counts_of l.counts id).typed_out + tick (r.is_typed && decide (site.caller_id = id)) := by
  cases r with
  | Typed hits rule virtual_dispatch =>
    simp only [note, typed, note_narrowed, counts_of, entry_of_upsert, Resolution.is_typed, Bool.true_and]
    by_cases h : site.caller_id = id <;> simp [h, tick]
  | _ => simp [note, external, note_narrowed, Resolution.is_typed, tick]

theorem note_away (id : NodeId) :
    (counts_of (l.note site r).counts id).typed_away_in = (counts_of l.counts id).typed_away_in := by
  cases r with
  | Typed hits rule virtual_dispatch =>
    simp only [note, typed, note_narrowed, counts_of, entry_of_upsert]
    by_cases h : site.caller_id = id <;> simp [h]
  | _ => rfl

theorem note_narrowed_under (key : String × String) :
    (l.note site r).narrowed_under key =
      l.narrowed_under key + tick (r.is_narrowed && decide (site.tally_key = key)) := by
  have hstep : ((entry_of key (upsert site.tally_key increment l.narrowed)).getD 0) =
      (entry_of key l.narrowed).getD 0 + tick (decide (site.tally_key = key)) := by
    rw [entry_of_upsert]
    by_cases h : site.tally_key = key <;> simp [h, tick, increment]
  cases r with
  | Typed hits rule virtual_dispatch =>
    rw [Resolution.is_narrowed, Bool.true_and]
    exact hstep
  | External =>
    rw [Resolution.is_narrowed, Bool.true_and]
    exact hstep
  | _ => simp [note, Resolution.is_narrowed, tick]

/-- Every kept node is counted once. -/
theorem foldl_increment {ids : List NodeId} (hnodup : ids.Nodup) (kept : List (NodeId × UInt32))
    (id : NodeId) :
    (entry_of id (ids.foldl (fun kept id => upsert id increment kept) kept)).getD 0 =
      (entry_of id kept).getD 0 + tick (decide (id ∈ ids)) := by
  induction ids generalizing kept with
  | nil => simp [tick]
  | cons a rest ih =>
    obtain ⟨hnew, hrest⟩ := List.nodup_cons.mp hnodup
    rw [List.foldl_cons, ih hrest, entry_of_upsert]
    by_cases h : a = id
    · subst h
      simp [hnew, tick, increment]
    · simp [h, Ne.symm h]

theorem note_kept_of (id : NodeId) :
    (l.note site r).kept_of id = l.kept_of id + tick (decide (id ∈ r.kept)) := by
  cases r with
  | Typed hits rule virtual_dispatch =>
    have hsame : decide (id ∈ (hits.map DefEntry.node_id).dedup) =
        decide (id ∈ hits.map DefEntry.node_id) :=
      decide_eq_decide.mpr List.mem_dedup
    rw [Resolution.kept, ← hsame]
    exact foldl_increment (List.nodup_dedup _) l.kept id
  | _ => simp [note, external, note_narrowed, kept_of, Resolution.kept, tick]

theorem note_nodup (h : (l.narrowed.map Prod.fst).Nodup) :
    ((l.note site r).narrowed.map Prod.fst).Nodup := by
  cases r with
  | Typed hits rule virtual_dispatch => exact nodup_keys_upsert h
  | External => exact nodup_keys_upsert h
  | _ => exact h

theorem note_keys {row : NodeId × NarrowingCounts} (h : row ∈ (l.note site r).counts) :
    row.1 = site.caller_id ∨ row.1 ∈ l.counts.map Prod.fst := by
  cases r with
  | Typed hits rule virtual_dispatch => exact key_of_mem_upsert h
  | _ => exact .inr (List.mem_map_of_mem h)

end Ledger

/-! ### What it counts over a run -/

/-- The ledger after the references of a list of sites. -/
def ledger_after (answer : Site → Resolution) (sites : List Site) (l : Ledger) : Ledger :=
  sites.foldl (fun l site => l.note site (answer site)) l

theorem apply_resolution_ledger (site : Site) (r : Resolution) (s : LinkState) :
    (apply_resolution site r s).ledger = s.ledger.note site r := by
  cases r <;> rfl

theorem link_refs_ledger (env : LinkEnv) (inputs : List FileInput) (opts : LinkOpts) :
    (link_refs env inputs opts).ledger =
      ledger_after (resolved env inputs opts) (link_sites (build_nodes inputs) inputs) .new := by
  have hfold : ∀ (sites : List Site) (s : LinkState),
      (sites.foldl (resolve_ref (symbol_table inputs) opts (receivers env inputs opts)) s).ledger =
        ledger_after (resolved env inputs opts) sites s.ledger := by
    intro sites
    induction sites with
    | nil => intro s; rfl
    | cons site rest ih =>
      intro s
      rw [List.foldl_cons, ih, resolve_ref, apply_resolution_ledger]
      rfl
  exact hfold _ .new

/-- A count that every site raises by one or leaves alone is the number of sites that
raise it. -/
theorem count_ledger_after (answer : Site → Resolution) (measure : Ledger → UInt32)
    (raises : Site → Bool)
    (hstep : ∀ site l, measure (l.note site (answer site)) = measure l + Ledger.tick (raises site))
    (sites : List Site) (l : Ledger) :
    measure (ledger_after answer sites l) = measure l + UInt32.ofNat (sites.countP raises) := by
  induction sites generalizing l with
  | nil => simp [ledger_after]
  | cons site rest ih =>
    have hrun : ledger_after answer (site :: rest) l =
        ledger_after answer rest (l.note site (answer site)) := rfl
    rw [hrun, ih, hstep, List.countP_cons]
    by_cases h : raises site = true
    · rw [if_pos h, h, UInt32.ofNat_add, Ledger.tick, if_pos rfl, UInt32.add_assoc, UInt32.add_comm 1]
      rfl
    · rw [if_neg h, Bool.eq_false_iff.mpr h, Ledger.tick]
      simp

/-- The ledger counts for callers only. -/
theorem keys_ledger_after {answer : Site → Resolution} {sites : List Site} {l : Ledger}
    {row : NodeId × NarrowingCounts} (h : row ∈ (ledger_after answer sites l).counts) :
    (∃ site ∈ sites, row.1 = site.caller_id) ∨ row.1 ∈ l.counts.map Prod.fst := by
  induction sites generalizing l with
  | nil => exact .inr (List.mem_map_of_mem h)
  | cons site rest ih =>
    cases ih h with
    | inl hlater =>
      obtain ⟨s, hs, heq⟩ := hlater
      exact .inl ⟨s, List.mem_cons_of_mem site hs, heq⟩
    | inr hkey =>
      obtain ⟨row', hrow', heq⟩ := List.mem_map.mp hkey
      rw [← heq]
      cases Ledger.note_keys site (answer site) l hrow' with
      | inl hcaller => exact .inl ⟨site, List.mem_cons_self, hcaller⟩
      | inr hold => exact .inr hold

/-- Every narrowed name has one row. -/
theorem nodup_ledger_after {answer : Site → Resolution} (sites : List Site) {l : Ledger}
    (h : (l.narrowed.map Prod.fst).Nodup) :
    ((ledger_after answer sites l).narrowed.map Prod.fst).Nodup := by
  induction sites generalizing l with
  | nil => exact h
  | cons site rest ih => exact ih (Ledger.note_nodup site (answer site) l h)

/-! ### The backward counts -/

namespace Ledger

/-- The narrowed sites that did not keep a definition. -/
def missed (narrowed kept : UInt32) : UInt32 :=
  if kept < narrowed then narrowed - kept else 0

/-- Charge one method with the narrowed sites of its name. -/
def charge (l : Ledger) (counts : List (NodeId × NarrowingCounts)) (charged : DefEntry × UInt32) :
    List (NodeId × NarrowingCounts) :=
  if l.kept_of charged.1.node_id < charged.2 then
    upsert charged.1.node_id (fun c =>
      let c := c.getD no_counts
      { c with typed_away_in := c.typed_away_in + (charged.2 - l.kept_of charged.1.node_id) }) counts
  else counts

/-- The methods that are charged, with the narrowed sites of their name. -/
def charges (table : SymbolTable) (l : Ledger) : List (DefEntry × UInt32) :=
  l.narrowed.flatMap fun row =>
    (method_candidates table row.1.2 row.1.1).map fun d => (d, row.2)

theorem finish_eq (table : SymbolTable) (l : Ledger) :
    l.finish table = (l.charges table).foldl l.charge l.counts := by
  rw [finish, charges, List.foldl_flatMap]
  congr 1
  funext counts row
  rw [List.foldl_map]
  rfl

variable (l : Ledger) (counts : List (NodeId × NarrowingCounts)) (id : NodeId)

theorem charge_typed_out (charged : DefEntry × UInt32) :
    (counts_of (l.charge counts charged) id).typed_out = (counts_of counts id).typed_out := by
  rw [charge]
  split
  · rw [counts_of, entry_of_upsert]
    split
    · rename_i h
      subst h
      rfl
    · rfl
  · rfl

theorem finish_typed_out (table : SymbolTable) :
    (counts_of (l.finish table) id).typed_out = (counts_of l.counts id).typed_out := by
  rw [finish_eq]
  generalize l.charges table = charged
  generalize l.counts = counts
  induction charged generalizing counts with
  | nil => rfl
  | cons pair rest ih => rw [List.foldl_cons, ih, charge_typed_out]

theorem charge_away (charged : DefEntry × UInt32) :
    (counts_of (l.charge counts charged) id).typed_away_in =
      (counts_of counts id).typed_away_in +
        if charged.1.node_id = id then missed charged.2 (l.kept_of id) else 0 := by
  rw [charge]
  by_cases hid : charged.1.node_id = id
  · subst hid
    rw [if_pos rfl, missed]
    split
    · rw [counts_of, entry_of_upsert, if_pos rfl]
      rfl
    · rw [UInt32.add_zero]
  · rw [if_neg hid, UInt32.add_zero]
    split
    · rw [counts_of, entry_of_upsert, if_neg hid]
      rfl
    · rfl

variable {l counts id}

theorem charge_all_of_not_mem {charged : List (DefEntry × UInt32)}
    (h : ∀ pair ∈ charged, pair.1.node_id ≠ id) :
    (counts_of (charged.foldl l.charge counts) id).typed_away_in =
      (counts_of counts id).typed_away_in := by
  induction charged generalizing counts with
  | nil => rfl
  | cons pair rest ih =>
    rw [List.foldl_cons, ih fun p hp => h p (List.mem_cons_of_mem pair hp), charge_away,
      if_neg (h pair List.mem_cons_self), UInt32.add_zero]

/-- A method is charged once. -/
theorem charge_all_of_mem {charged : List (DefEntry × UInt32)}
    (hdistinct : charged.Pairwise fun a b => a.1.node_id ≠ b.1.node_id) {d : DefEntry} {n : UInt32}
    (hmem : (d, n) ∈ charged) :
    (counts_of (charged.foldl l.charge counts) d.node_id).typed_away_in =
      (counts_of counts d.node_id).typed_away_in + missed n (l.kept_of d.node_id) := by
  induction charged generalizing counts with
  | nil => cases hmem
  | cons pair rest ih =>
    obtain ⟨hhead, hrest⟩ := List.pairwise_cons.mp hdistinct
    rw [List.foldl_cons]
    cases List.mem_cons.mp hmem with
    | inl heq =>
      subst heq
      rw [charge_all_of_not_mem fun p hp => (hhead p hp).symm, charge_away, if_pos rfl]
    | inr hlater =>
      rw [ih hrest hlater, charge_away, if_neg (hhead _ hlater), UInt32.add_zero]

/-- The backward counts are for methods of the table. -/
theorem finish_keys {table : SymbolTable} {row : NodeId × NarrowingCounts}
    (h : row ∈ l.finish table) :
    (∃ d ∈ table.entries, row.1 = d.node_id) ∨ row.1 ∈ l.counts.map Prod.fst := by
  have hcharged : ∀ pair ∈ l.charges table, pair.1 ∈ table.entries := by
    intro pair hpair
    obtain ⟨row, -, hmem⟩ := List.mem_flatMap.mp hpair
    obtain ⟨d, hd, rfl⟩ := List.mem_map.mp hmem
    exact List.mem_of_mem_filter (List.mem_of_mem_filter (List.mem_of_mem_filter hd))
  rw [finish_eq] at h
  generalize hcharges : l.charges table = charged at h hcharged
  generalize l.counts = counts at h ⊢
  clear hcharges
  induction charged generalizing counts with
  | nil => exact .inr (List.mem_map_of_mem h)
  | cons pair rest ih =>
    cases ih (fun p hp => hcharged p (List.mem_cons_of_mem pair hp)) _ h with
    | inl hlater => exact .inl hlater
    | inr hkey =>
      obtain ⟨row', hrow', heq⟩ := List.mem_map.mp hkey
      rw [← heq]
      rw [charge] at hrow'
      split at hrow'
      · cases key_of_mem_upsert hrow' with
        | inl hnew => exact .inl ⟨pair.1, hcharged pair List.mem_cons_self, hnew⟩
        | inr hold => exact .inr hold
      · exact .inr (List.mem_map_of_mem hrow')

end Ledger

/-! ### The symbol table's entries -/

/-- The language and the method name a site must have to reach the entry by name. -/
def DefEntry.tally_key (d : DefEntry) : String × String :=
  (d.lang, short_name d.fqn)

theorem mem_method_candidates_iff {table : SymbolTable} {name lang : String} {d : DefEntry} :
    d ∈ method_candidates table name lang ↔
      d ∈ table.entries ∧ is_method_kind d.kind = true ∧ d.tally_key = (lang, name) := by
  have hkind : (d.kind = .Method ∨ d.kind = .Function) ↔ is_method_kind d.kind = true := by
    cases d.kind <;> decide
  simp only [method_candidates, SymbolTable.defs_by_short, List.mem_filter, decide_eq_true_iff, hkind,
    DefEntry.tally_key, Prod.mk.injEq]
  constructor
  · rintro ⟨⟨⟨hd, hname⟩, hmethod⟩, hlang⟩
    exact ⟨hd, hmethod, hlang, hname⟩
  · rintro ⟨hd, hmethod, hlang, hname⟩
    exact ⟨⟨⟨hd, hname⟩, hmethod⟩, hlang⟩

/-- The entries have pairwise distinct nodes. -/
def SymbolTable.Distinct (table : SymbolTable) : Prop :=
  table.entries.Pairwise fun a b => a.node_id ≠ b.node_id

theorem symbol_table_distinct {inputs : List FileInput} (h : (build_nodes inputs).length ≤ 2 ^ 32) :
    (symbol_table inputs).Distinct := by
  have hentries : (symbol_table inputs).entries =
      (build_nodes inputs).map fun n => SymbolTable.entry n.node := by
    rw [symbol_table, SymbolTable.build, List.map_map]
    rfl
  rw [SymbolTable.Distinct, hentries, List.pairwise_map]
  rw [build_nodes, assign_ids, List.length_mapIdx] at h
  rw [build_nodes, assign_ids]
  apply List.pairwise_iff_getElem.mpr
  intro i j hi hj hij heq
  rw [List.length_mapIdx] at hi hj
  simp only [List.getElem_mapIdx, SymbolTable.entry] at heq
  have hindex := congrArg NodeId.index heq
  rw [NodeId.index_ofIndex (by omega), NodeId.index_ofIndex (by omega)] at hindex
  omega

theorem SymbolTable.Distinct.inj {table : SymbolTable} (h : table.Distinct) {a b : DefEntry}
    (ha : a ∈ table.entries) (hb : b ∈ table.entries) (heq : a.node_id = b.node_id) : a = b := by
  by_contra hne
  have : Std.Symm fun a b : DefEntry => a.node_id ≠ b.node_id := ⟨fun _ _ hab => hab.symm⟩
  exact List.Pairwise.forall h ha hb hne heq

theorem SymbolTable.Distinct.charges {table : SymbolTable} (h : table.Distinct) {l : Ledger}
    (hkeys : (l.narrowed.map Prod.fst).Nodup) :
    (l.charges table).Pairwise fun a b => a.1.node_id ≠ b.1.node_id := by
  rw [Ledger.charges, List.pairwise_flatMap]
  refine ⟨fun row _ => List.pairwise_map.mpr ?_, ?_⟩
  · exact h.sublist (List.filter_sublist.trans (List.filter_sublist.trans List.filter_sublist))
  · apply (List.pairwise_map.mp hkeys).imp
    intro row row' hne a ha b hb heq
    obtain ⟨d, hd, rfl⟩ := List.mem_map.mp ha
    obtain ⟨d', hd', rfl⟩ := List.mem_map.mp hb
    obtain ⟨hmem, -, hkey⟩ := mem_method_candidates_iff.mp hd
    obtain ⟨hmem', -, hkey'⟩ := mem_method_candidates_iff.mp hd'
    obtain rfl := h.inj hmem hmem' heq
    rw [hkey] at hkey'
    exact hne (by simpa using hkey')

/-- A method is charged with the narrowed sites of its name that did not keep it. -/
theorem finish_away {table : SymbolTable} (h : table.Distinct) {l : Ledger}
    (hkeys : (l.narrowed.map Prod.fst).Nodup) {d : DefEntry} (hd : d ∈ table.entries)
    (hkind : is_method_kind d.kind = true) :
    (Ledger.counts_of (l.finish table) d.node_id).typed_away_in =
      (Ledger.counts_of l.counts d.node_id).typed_away_in +
        Ledger.missed (l.narrowed_under d.tally_key) (l.kept_of d.node_id) := by
  rw [Ledger.finish_eq]
  by_cases hrow : d.tally_key ∈ l.narrowed.map Prod.fst
  · obtain ⟨⟨key, n⟩, hmem, hkey⟩ := List.mem_map.mp hrow
    have hcharged : (d, n) ∈ l.charges table := by
      refine List.mem_flatMap.mpr ⟨(key, n), hmem, List.mem_map.mpr ⟨d, ?_, rfl⟩⟩
      exact mem_method_candidates_iff.mpr ⟨hd, hkind, hkey.symm⟩
    rw [Ledger.charge_all_of_mem (h.charges hkeys) hcharged, Ledger.narrowed_under, ← hkey,
      entry_of_mem hkeys hmem]
    rfl
  · have hnone : l.narrowed_under d.tally_key = 0 := by
      rw [Ledger.narrowed_under, entry_of_eq_none]
      · rfl
      · intro row hmem heq
        exact hrow (heq ▸ List.mem_map_of_mem hmem)
    have hmissed : Ledger.missed 0 (l.kept_of d.node_id) = 0 := by
      rw [Ledger.missed, if_neg (UInt32.not_lt.mpr UInt32.zero_le)]
    rw [hnone, hmissed, UInt32.add_zero]
    apply Ledger.charge_all_of_not_mem
    intro pair hpair heq
    obtain ⟨row, hmem, hpair⟩ := List.mem_flatMap.mp hpair
    obtain ⟨d', hd', rfl⟩ := List.mem_map.mp hpair
    obtain ⟨hentry, -, hkey⟩ := mem_method_candidates_iff.mp hd'
    rw [h.inj hentry hd heq] at hkey
    exact hrow (hkey ▸ List.mem_map_of_mem hmem)

/-- The elements of `p`, split by a narrower `q`. -/
theorem countP_split {α : Type} {p q : α → Bool} {l : List α} (h : ∀ x ∈ l, q x = true → p x = true) :
    l.countP p = l.countP q + l.countP fun x => p x && !q x := by
  induction l with
  | nil => rfl
  | cons x rest ih =>
    have hx := h x List.mem_cons_self
    rw [List.countP_cons, List.countP_cons, List.countP_cons,
      ih fun y hy => h y (List.mem_cons_of_mem x hy)]
    cases hq : q x <;> cases hp : p x <;> simp_all <;> omega

theorem missed_ofNat {n k : Nat} (hle : k ≤ n) (hn : n < 2 ^ 32) :
    (Ledger.missed (UInt32.ofNat n) (UInt32.ofNat k)).toNat = n - k := by
  have hk : (UInt32.ofNat k).toNat = k := UInt32.toNat_ofNat_of_lt' (Nat.lt_of_le_of_lt hle hn)
  have hn' : (UInt32.ofNat n).toNat = n := UInt32.toNat_ofNat_of_lt' hn
  rw [Ledger.missed]
  split
  · rename_i hlt
    rw [UInt32.toNat_sub_of_le _ _ (UInt32.le_of_lt hlt), hn', hk]
  · rename_i hge
    rw [UInt32.lt_iff_toNat_lt, hn', hk] at hge
    rw [UInt32.toNat_zero]
    omega

end cgx.resolve
