import Cgx.Cql.Lower

open cgx.core cgx.query

namespace cgx.cql

/-- A single pattern solution: the value of each bound variable. -/
structure Binding where
  vars : List (String × Value)
deriving Inhabited

namespace Binding

/-- The binding of no variables. -/
def empty : Binding :=
  ⟨[]⟩

def get (b : Binding) (name : String) : Option Value :=
  b.vars.lookup name

/-- Bind a variable, replacing the value it has. -/
def insert (b : Binding) (name : String) (value : Value) : Binding :=
  ⟨(name, value) :: b.vars.filter fun entry => entry.1 ≠ name⟩

@[simp] theorem get_insert_self (b : Binding) (name : String) (value : Value) :
    (b.insert name value).get name = some value := by
  simp [get, insert]

theorem get_insert_ne (b : Binding) {name other : String} (value : Value) (h : other ≠ name) :
    (b.insert name value).get other = b.get other := by
  simp only [get, insert, List.lookup_cons, beq_eq_false_iff_ne.mpr h]
  induction b.vars with
  | nil => rfl
  | cons entry rest ih =>
    by_cases hentry : entry.1 = name
    · have hskip : (other == entry.1) = false := by
        rw [hentry]
        exact beq_eq_false_iff_ne.mpr h
      rw [List.filter_cons_of_neg (by simpa using hentry), ih, List.lookup_cons, hskip]
    · rw [List.filter_cons_of_pos (by simpa using hentry), List.lookup_cons, List.lookup_cons, ih]

/-- The node a variable is bound to. -/
def node (b : Binding) (name : String) : Option NodeId :=
  match b.get name with
  | some (.Node id) => some id
  | _ => none

end Binding

/-- Bind an optional node variable. -/
def bind_node (b : Binding) (var : Option String) (id : NodeId) : Binding :=
  match var with
  | some name => b.insert name (.Node id)
  | none => b

/-- Bind an optional variable to an optional value. -/
def bind_optional (b : Binding) (var : Option String) (value : Option Value) : Binding :=
  match var, value with
  | some name, some value => b.insert name value
  | _, _ => b

theorem get_bind_node {b : Binding} {var : Option String} {id : NodeId} {v : String} (h : v ∉ var) :
    (bind_node b var id).get v = b.get v := by
  cases var with
  | none => rfl
  | some name => exact Binding.get_insert_ne b _ fun heq => h (by rw [heq]; rfl)

theorem get_bind_node_self {b : Binding} {var : Option String} {id : NodeId} {v : String} (h : v ∈ var) :
    (bind_node b var id).get v = some (.Node id) := by
  rw [Option.mem_def.mp h, bind_node, Binding.get_insert_self]

theorem get_bind_optional {b : Binding} {var : Option String} {value : Option Value} {v : String}
    (h : v ∈ var → value = none) : (bind_optional b var value).get v = b.get v := by
  cases var with
  | none => rfl
  | some name =>
    cases value with
    | none => rfl
    | some value => exact Binding.get_insert_ne b _ fun heq => by simp [heq] at h

/-- Read a node field as a value. -/
def node_field_value (node : NodeRecord) : NodeField → Value
  | .Fqn => .Str node.fqn
  | .File => .Str node.file
  | .Line => .Int node.line_start.toNat
  | .Kind => .Str (symbol_kind_token node.kind)

/-- The constraints written on one end of a pattern: properties and admitted kinds. -/
abbrev NodeConstraints := List NodeProp × Option (List SymbolKind)

/-- Whether a node satisfies one property constraint. A name is matched by its
pattern, any other field by equality. -/
def prop_holds (node : NodeRecord) (p : NodeProp) : Bool :=
  if p.field = .Fqn then
    match p.value with
    | .Str s => (name_pattern s).matches_node node
    | _ => false
  else values_equal (node_field_value node p.field) p.value

def kinds_hold (node : NodeRecord) (kinds : Option (List SymbolKind)) : Bool :=
  match kinds with
  | some kinds => kinds.contains node.kind
  | none => true

/-- Whether an id names a node that satisfies the constraints. -/
def node_matches (view : GraphView) (constraints : NodeConstraints) (id : NodeId) : Bool :=
  match view.try_node id with
  | none => false
  | some node => kinds_hold node constraints.2 && constraints.1.all (prop_holds node)

theorem node_matches_iff {view : GraphView} {constraints : NodeConstraints} {id : NodeId} :
    node_matches view constraints id = true ↔ id.index < view.node_count ∧
      kinds_hold (view.node id) constraints.2 = true ∧
        ∀ p ∈ constraints.1, prop_holds (view.node id) p = true := by
  simp only [node_matches, GraphView.try_node, GraphView.node, GraphView.node_count]
  by_cases hrange : id.index < view.nodes.length
  · rw [List.getElem?_eq_getElem hrange, getElem!_pos view.nodes id.index hrange]
    simp [hrange]
  · rw [List.getElem?_eq_none (Nat.le_of_not_lt hrange)]
    simp [hrange]

/-- The name a node-id set is resolved by: the first name, if it is a string. -/
def name_key (constraints : NodeConstraints) : Option SymbolPattern :=
  (name_prop constraints.1).bind fun p => symbol_pattern_from p.value

/-- The constraints an anchor set keeps: its name alone, else its kinds. -/
def kept_by_anchor (constraints : NodeConstraints) : NodeConstraints :=
  match name_key constraints with
  | some _ => ((name_prop constraints.1).toList, none)
  | none => ([], constraints.2)

/-- The constraints an anchor set drops. -/
def dropped_by_anchor (constraints : NodeConstraints) : NodeConstraints :=
  match name_key constraints with
  | some _ => (constraints.1.eraseP fun p => p.field = .Fqn, constraints.2)
  | none => (constraints.1, none)

/-- The constraints a goal set keeps: its name alone, else all of them. -/
def kept_by_goals (constraints : NodeConstraints) : NodeConstraints :=
  match name_key constraints with
  | some _ => ((name_prop constraints.1).toList, none)
  | none => constraints

/-- The constraints a goal set drops. -/
def dropped_by_goals (constraints : NodeConstraints) : NodeConstraints :=
  match name_key constraints with
  | some _ => (constraints.1.eraseP fun p => p.field = .Fqn, constraints.2)
  | none => ([], none)

section split

variable {view : GraphView} {constraints : NodeConstraints} {id : NodeId}

private theorem mem_name_split {p : NodeProp} :
    p ∈ constraints.1 ↔ p ∈ (name_prop constraints.1).toList ∨
      p ∈ constraints.1.eraseP fun p => p.field = .Fqn := by
  rw [name_prop]
  induction constraints.1 with
  | nil => simp
  | cons head rest ih =>
    by_cases hhead : head.field = .Fqn
    · rw [List.find?_cons_of_pos (by simpa using hhead), List.eraseP_cons_of_pos (by simpa using hhead)]
      simp
    · rw [List.find?_cons_of_neg (by simpa using hhead), List.eraseP_cons_of_neg (by simpa using hhead),
        List.mem_cons, List.mem_cons, ih]
      exact or_left_comm

private theorem node_matches_name_split :
    node_matches view constraints id = true ↔
      node_matches view ((name_prop constraints.1).toList, none) id = true ∧
        node_matches view (constraints.1.eraseP fun p => p.field = .Fqn, constraints.2) id = true := by
  simp only [node_matches_iff, kinds_hold, mem_name_split]
  constructor
  · rintro ⟨hrange, hkinds, hprops⟩
    exact ⟨⟨hrange, trivial, fun p hp => hprops p (.inl hp)⟩, hrange, hkinds, fun p hp => hprops p (.inr hp)⟩
  · rintro ⟨⟨hrange, _, hname⟩, _, hkinds, hrest⟩
    refine ⟨hrange, hkinds, fun p hp => ?_⟩
    obtain hp | hp := hp
    · exact hname p hp
    · exact hrest p hp

/-- What an anchor set keeps and what it drops make up the written constraints. -/
theorem node_matches_anchor_split :
    node_matches view constraints id = true ↔
      node_matches view (kept_by_anchor constraints) id = true ∧
        node_matches view (dropped_by_anchor constraints) id = true := by
  simp only [kept_by_anchor, dropped_by_anchor]
  split
  · exact node_matches_name_split
  · simp only [node_matches_iff, kinds_hold]
    constructor
    · rintro ⟨hrange, hkinds, hprops⟩
      exact ⟨⟨hrange, hkinds, by simp⟩, hrange, trivial, hprops⟩
    · rintro ⟨⟨hrange, hkinds, _⟩, _, _, hprops⟩
      exact ⟨hrange, hkinds, hprops⟩

theorem node_matches_goals_split :
    node_matches view constraints id = true ↔
      node_matches view (kept_by_goals constraints) id = true ∧
        node_matches view (dropped_by_goals constraints) id = true := by
  simp only [kept_by_goals, dropped_by_goals]
  split
  · exact node_matches_name_split
  · constructor
    · intro h
      refine ⟨h, node_matches_iff.mpr ⟨(node_matches_iff.mp h).1, rfl, by simp⟩⟩
    · exact fun h => h.1

/-- Resolving the name key finds the nodes its property admits. -/
theorem mem_resolve_name_key {pat : SymbolPattern} (hkey : name_key constraints = some pat) :
    id ∈ view.resolve_symbol pat ↔
      node_matches view ((name_prop constraints.1).toList, none) id = true := by
  rw [name_key] at hkey
  obtain ⟨p, hp, hpat⟩ := Option.bind_eq_some_iff.mp hkey
  have hfield : p.field = .Fqn := by simpa using List.find?_some hp
  have hholds : prop_holds (view.node id) p = pat.matches_node (view.node id) := by
    simp only [prop_holds, hfield, if_true]
    cases hvalue : p.value <;> simp_all [symbol_pattern_from]
  rw [GraphView.mem_resolve_symbol, node_matches_iff, hp]
  simp [kinds_hold, hholds]

end split

end cgx.cql
