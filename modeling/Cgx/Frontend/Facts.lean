import Cgx.Lib.Derived
import Cgx.Resolve.Facts

open cgx.core derived

/-! The fact vectors of a file with all their fields, and the order Rust derives for each
kind of fact. `cgx.frontend.FileFacts` holds the part of them the linker reads. -/

namespace cgx.frontend.facts

structure ImportFact where
  specifier : String
  names : List ImportedName
  glob : Bool
  re_export : Bool
  scope : ScopeId
  span : Span
deriving DecidableEq

/-- An export; `source` is the specifier of a re-export. -/
structure ExportFact where
  name : String
  alias_name : Option String
  source : Option String
  span : Span
deriving DecidableEq

/-- A hint that some call edges are structurally invisible at a site. -/
structure CutHint where
  marker : CutMarker
  span : Span
  macro_origin : Option String
deriving DecidableEq

inductive ParamKind where
  | Receiver
  | Positional
  | KeywordOnly
  | VarArgs
  | VarKeywords
deriving DecidableEq

inductive LiteralKind where
  | Str
  | Bytes
  | Num
  | Bool
  | List
  | Dict
  | Set
  | Tuple
deriving DecidableEq

/-- A normalized type expression. -/
inductive TypeExpr where
  | Named (path : List String) (indirect : Bool)
  | Generic (head : List String) (args : List TypeExpr) (indirect : Bool)
  | Union (members : List TypeExpr)
  | Unknown

/-- Where a bound value comes from, as far as one file can see. -/
inductive ValueSource where
  | Var (name : String)
  | New (ty : TypeExpr)
  | Call (path : List String)
  | Declared (ty : TypeExpr)
  | Enter (src : ValueSource)
  | Element (src : ValueSource)
  | Literal (kind : LiteralKind)
  | Null
  | Opaque

inductive AnonRoot where
  | Literal (kind : LiteralKind)
  | Super
  | Call (path : List String)
  | Subscript
  | Other
deriving DecidableEq

inductive BaseExpr where
  | Type (ty : TypeExpr)
  | Call (path : List String)
  | Unknown

structure CallArg where
  keyword : Option String
  value : ValueSource

/-- A receiver-typing fact. -/
inductive TypeFact where
  | Param (func name : String) (index : Option UInt8) (kind : ParamKind) (ty : Option TypeExpr)
  | Bind (func var : String) (src : ValueSource)
  | FieldBind (func field : String) (src : ValueSource)
  | ClassBases (owner : String) (bases : List BaseExpr)
  | AnonReceiver (func : String) (line col : UInt32) (method : String) (depth : UInt8) (root : AnonRoot)
  | CallArgs (func : String) (line col : UInt32) (callee : List String) (args : List CallArg)
  | Return (func : String) (ty : TypeExpr)
  | FieldType (owner field : String) (ty : TypeExpr)
  | AttrStore (func : String) (base : ValueSource) (field : String) (src : ValueSource)

/-- Everything extracted from one file. -/
structure FileFacts where
  defs : List SymbolDef
  refs : List RawRef
  impl_relations : List ImplRelation
  imports : List ImportFact
  exports : List ExportFact
  scopes : ScopeTree
  entrypoint_hints : List EntrypointHint
  cut_hints : List CutHint
  effects : List EffectFact
  data_flows : List DataFlowFact
  module : Option String
  type_facts : List TypeFact

def FileFacts.empty : FileFacts :=
  ⟨[], [], [], [], [], .new, [], [], [], [], none, []⟩

/-! ### The derived orders -/

instance : Spelled SymbolKind := .of_index SymbolKind.ctorIdx SymbolKind.ofNat SymbolKind.ofNat_ctorIdx
instance : Spelled Visibility := .of_index Visibility.ctorIdx Visibility.ofNat Visibility.ofNat_ctorIdx
instance : Spelled EntrypointKind := .of_index EntrypointKind.ctorIdx EntrypointKind.ofNat EntrypointKind.ofNat_ctorIdx
instance : Spelled CutMarker := .of_index CutMarker.ctorIdx CutMarker.ofNat CutMarker.ofNat_ctorIdx
instance : Spelled EdgeCondition := .of_index EdgeCondition.ctorIdx EdgeCondition.ofNat EdgeCondition.ofNat_ctorIdx
instance : Spelled ImplicitKind := .of_index ImplicitKind.ctorIdx ImplicitKind.ofNat ImplicitKind.ofNat_ctorIdx
instance : Spelled Transform := .of_index Transform.ctorIdx Transform.ofNat Transform.ofNat_ctorIdx
instance : Spelled RefKind := .of_index RefKind.ctorIdx RefKind.ofNat RefKind.ofNat_ctorIdx
instance : Spelled RelationKind := .of_index RelationKind.ctorIdx RelationKind.ofNat RelationKind.ofNat_ctorIdx
instance : Spelled ParamKind := .of_index ParamKind.ctorIdx ParamKind.ofNat ParamKind.ofNat_ctorIdx
instance : Spelled LiteralKind := .of_index LiteralKind.ctorIdx LiteralKind.ofNat LiteralKind.ofNat_ctorIdx

instance : Spelled ScopeId where
  term s := term s.raw
  term_inj a b h := by cases a; cases b; simpa using h

instance : Spelled EffectSet where
  term e := term e.bits
  term_inj a b h := by cases a; cases b; simpa using h

instance : Spelled Span where
  term s := .seq [term s.file, term s.line, term s.col]
  term_inj a b h := by cases a; cases b; simpa using h

instance : Spelled Param where
  term p := .seq [term p.name, term p.type_text, term p.has_default, term p.variadic]
  term_inj a b h := by cases a; cases b; simpa using h

instance : Spelled Signature where
  term s := .seq [term s.params, term s.return_type_text, term s.type_params, term s.receiver]
  term_inj a b h := by cases a; cases b; simpa using h

instance : Spelled SymbolDef where
  term d := .seq [term d.fqn, term d.kind, term d.visibility, term d.scope, term d.span, term d.line_end,
    term d.is_abstract, term d.signature]
  term_inj a b h := by cases a; cases b; simpa using h

instance : Spelled RawRef where
  term r := .seq [term r.name_path, term r.scope, term r.kind, term r.edge_condition, term r.implicit, term r.span,
    term r.stmt_index, term r.arity, term r.cut_markers]
  term_inj a b h := by cases a; cases b; simpa using h

instance : Spelled ImplRelation where
  term r := .seq [term r.kind, term r.subject, term r.object, term r.span]
  term_inj a b h := by cases a; cases b; simpa using h

instance : Spelled ImportedName where
  term n := .seq [term n.name, term n.alias_name]
  term_inj a b h := by cases a; cases b; simpa using h

instance : Spelled ImportFact where
  term i := .seq [term i.specifier, term i.names, term i.glob, term i.re_export, term i.scope, term i.span]
  term_inj a b h := by cases a; cases b; simpa using h

instance : Spelled ExportFact where
  term e := .seq [term e.name, term e.alias_name, term e.source, term e.span]
  term_inj a b h := by cases a; cases b; simpa using h

instance : Spelled EntrypointHint where
  term e := .seq [term e.fqn, term e.kind]
  term_inj a b h := by cases a; cases b; simpa using h

instance : Spelled CutHint where
  term c := .seq [term c.marker, term c.span, term c.macro_origin]
  term_inj a b h := by cases a; cases b; simpa using h

instance : Spelled EffectFact where
  term e := .seq [term e.fqn, term e.effects]
  term_inj a b h := by cases a; cases b; simpa using h

instance : Spelled DataFlowFact where
  term d := .seq [term d.derived, term d.source, term d.derived_version, term d.scope, term d.transform,
    term d.edge_condition, term d.cut_markers, term d.callee_fqn, term d.args, term d.span]
  term_inj a b h := by cases a; cases b; simpa using h

mutual

def TypeExpr.spell : TypeExpr → Term
  | .Named path indirect => .seq [.num 0, term path, term indirect]
  | .Generic head args indirect => .seq [.num 1, term head, .seq (TypeExpr.spell_all args), term indirect]
  | .Union members => .seq [.num 2, .seq (TypeExpr.spell_all members)]
  | .Unknown => .seq [.num 3]

def TypeExpr.spell_all : List TypeExpr → List Term
  | [] => []
  | t :: rest => t.spell :: TypeExpr.spell_all rest

end

mutual

theorem TypeExpr.spell_inj : ∀ a b : TypeExpr, a.spell = b.spell → a = b
  | .Named path indirect, b, h => by
    cases b with
    | Named path' indirect' => simpa [TypeExpr.spell] using h
    | Generic head args indirect' => simp [TypeExpr.spell] at h
    | Union members => simp [TypeExpr.spell] at h
    | Unknown => simp [TypeExpr.spell] at h
  | .Generic head args indirect, b, h => by
    cases b with
    | Named path indirect' => simp [TypeExpr.spell] at h
    | Generic head' args' indirect' =>
      simp only [TypeExpr.spell, Term.seq.injEq, List.cons.injEq, term_eq_iff, and_true, true_and] at h
      obtain ⟨hhead, hargs, hindirect⟩ := h
      rw [hhead, hindirect, TypeExpr.spell_all_inj args args' hargs]
    | Union members => simp [TypeExpr.spell] at h
    | Unknown => simp [TypeExpr.spell] at h
  | .Union members, b, h => by
    cases b with
    | Named path indirect' => simp [TypeExpr.spell] at h
    | Generic head args indirect' => simp [TypeExpr.spell] at h
    | Union members' =>
      simp only [TypeExpr.spell, Term.seq.injEq, List.cons.injEq, and_true, true_and] at h
      rw [TypeExpr.spell_all_inj members members' h]
    | Unknown => simp [TypeExpr.spell] at h
  | .Unknown, b, h => by
    cases b with
    | Named path indirect' => simp [TypeExpr.spell] at h
    | Generic head args indirect' => simp [TypeExpr.spell] at h
    | Union members => simp [TypeExpr.spell] at h
    | Unknown => rfl

theorem TypeExpr.spell_all_inj : ∀ l r : List TypeExpr, TypeExpr.spell_all l = TypeExpr.spell_all r → l = r
  | [], r, h => by
    cases r with
    | nil => rfl
    | cons b r => simp [TypeExpr.spell_all] at h
  | a :: l, r, h => by
    cases r with
    | nil => simp [TypeExpr.spell_all] at h
    | cons b r =>
      simp only [TypeExpr.spell_all, List.cons.injEq] at h
      rw [TypeExpr.spell_inj a b h.1, TypeExpr.spell_all_inj l r h.2]

end

instance : Spelled TypeExpr := ⟨TypeExpr.spell, TypeExpr.spell_inj⟩

def ValueSource.spell : ValueSource → Term
  | .Var name => .seq [.num 0, term name]
  | .New ty => .seq [.num 1, term ty]
  | .Call path => .seq [.num 2, term path]
  | .Declared ty => .seq [.num 3, term ty]
  | .Enter src => .seq [.num 4, src.spell]
  | .Element src => .seq [.num 5, src.spell]
  | .Literal kind => .seq [.num 6, term kind]
  | .Null => .seq [.num 7]
  | .Opaque => .seq [.num 8]

theorem ValueSource.spell_inj (a b : ValueSource) (h : a.spell = b.spell) : a = b := by
  induction a generalizing b with
  | Enter src ih =>
    cases b <;> simp [ValueSource.spell] at h
    rw [ih _ h]
  | Element src ih =>
    cases b <;> simp [ValueSource.spell] at h
    rw [ih _ h]
  | Var | New | Call | Declared | Literal | Null | Opaque => cases b <;> simp_all [ValueSource.spell]

instance : Spelled ValueSource := ⟨ValueSource.spell, ValueSource.spell_inj⟩

instance : Spelled AnonRoot where
  term
    | .Literal kind => .seq [.num 0, term kind]
    | .Super => .seq [.num 1]
    | .Call path => .seq [.num 2, term path]
    | .Subscript => .seq [.num 3]
    | .Other => .seq [.num 4]
  term_inj a b h := by cases a <;> cases b <;> simp_all

instance : Spelled BaseExpr where
  term
    | .Type ty => .seq [.num 0, term ty]
    | .Call path => .seq [.num 1, term path]
    | .Unknown => .seq [.num 2]
  term_inj a b h := by cases a <;> cases b <;> simp_all

instance : Spelled CallArg where
  term c := .seq [term c.keyword, term c.value]
  term_inj a b h := by cases a; cases b; simpa using h

def TypeFact.spell : TypeFact → Term
  | .Param func name index kind ty => .seq [.num 0, term func, term name, term index, term kind, term ty]
  | .Bind func var src => .seq [.num 1, term func, term var, term src]
  | .FieldBind func field src => .seq [.num 2, term func, term field, term src]
  | .ClassBases owner bases => .seq [.num 3, term owner, term bases]
  | .AnonReceiver func line col method depth root =>
    .seq [.num 4, term func, term line, term col, term method, term depth, term root]
  | .CallArgs func line col callee args => .seq [.num 5, term func, term line, term col, term callee, term args]
  | .Return func ty => .seq [.num 6, term func, term ty]
  | .FieldType owner field ty => .seq [.num 7, term owner, term field, term ty]
  | .AttrStore func base field src => .seq [.num 8, term func, term base, term field, term src]

instance : Spelled TypeFact where
  term := TypeFact.spell
  term_inj a b h := by cases a <;> cases b <;> simp_all [TypeFact.spell]

end cgx.frontend.facts
