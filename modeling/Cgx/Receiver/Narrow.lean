import Cgx.Receiver.Lookup
import Cgx.Resolve.Graph

open cgx.core cgx.resolve

namespace cgx.receiver

/-- What the receiver of a Python site is. -/
inductive Classified where
  | Lookup (rule : String) (virtual_dispatch : Bool) (lookup : Lookup)
  | External
  | Legacy
deriving DecidableEq

/-- What narrowing reads at a site: the names of the lattice's classes, whether the file's
module is known, and what the classifiers of the two languages answer. -/
structure ReceiverIndex where
  names : List String
  has_module : Site → Bool
  python : Site → Classified
  /-- The closed, non-empty set of in-repo types of a Go receiver's head. -/
  go_types : Site → Option (List Nat)

/-- A Go receiver without the pointer form `(*T)`. -/
def strip_pointer (recv : List Char) : List Char :=
  match recv with
  | '(' :: '*' :: r => if r.getLast? = some ')' then r.dropLast else recv
  | _ => recv

/-- The type a method def belongs to: its FQN's parent, with a Go receiver's pointer and
type-parameter forms reduced to the type's name. -/
def method_owner (fqn lang : String) : Option String :=
  match rsplit_once fqn.toList with
  | none => none
  | some (parent, _) =>
    if lang ≠ "go" then some (String.ofList parent)
    else (rsplit_once parent).map fun parts =>
      String.ofList (parts.1 ++ "::".toList ++ (strip_pointer parts.2).takeWhile (· ≠ '['))

end cgx.receiver

namespace cgx.resolve

def Site.method (site : Site) : String :=
  site.raw.name_path.getLast?.getD ""

end cgx.resolve

namespace cgx.receiver.ReceiverIndex

variable (ix : ReceiverIndex) (table : SymbolTable)

/-- Every same-language method def of `m` owned by each target class. -/
def hits_for (classes : List Nat) (m lang : String) : List DefEntry :=
  classes.flatMap fun c =>
    match ix.names[c]? with
    | some name => (method_candidates table m lang).filter fun d => method_owner d.fqn lang = some name
    | none => []

def supported (site : Site) : Bool :=
  (site.file.lang = "python" ∨ site.file.lang = "go") && ix.has_module site

/-- The methods of the types in turn; `none` when some type lacks the method. -/
def go_hits (m : String) : List Nat → Option (List DefEntry)
  | [] => some []
  | c :: rest =>
    match ix.hits_for table [c] m "go" with
    | [] => none
    | hits => (go_hits m rest).map (hits ++ ·)

/-- The methods that the targets of a lookup own, in ascending order of the targets. -/
def lookup_hits (site : Site) (lookup : Lookup) : List DefEntry :=
  ix.hits_for table ((List.range ix.names.length).filter fun c => c ∈ lookup.targets) site.method
    site.file.lang

/-- Turn a lookup into the site's outcome. -/
def finish (site : Site) (rule : String) (virtual_dispatch : Bool) (lookup : Lookup) : Narrowed :=
  if lookup.unknown then .Legacy
  else if ix.lookup_hits table site lookup ≠ [] then
    .Typed (ix.lookup_hits table site lookup) rule virtual_dispatch
  else if lookup.is_open then .External
  else .Legacy

/-- Classify a virtual call site and narrow it when its receiver kind is decidable. -/
def narrow (site : Site) : Narrowed :=
  if !ix.supported site then .Legacy
  else if site.file.lang = "go" then
    match (ix.go_types site).bind (ix.go_hits table site.method) with
    | some hits => .Typed hits "recv-vta" (decide (1 < hits.length))
    | none => .Legacy
  else
    match ix.python site with
    | .Lookup rule virtual_dispatch lookup => ix.finish table site rule virtual_dispatch lookup
    | .External => .External
    | .Legacy => .Legacy

variable {ix table}

theorem hits_for_subset {classes : List Nat} {m lang : String} :
    ∀ d ∈ ix.hits_for table classes m lang, d ∈ method_candidates table m lang := by
  intro d hd
  obtain ⟨c, -, hd⟩ := List.mem_flatMap.mp hd
  split at hd
  · exact List.mem_of_mem_filter hd
  · cases hd

theorem go_hits_subset {m : String} {classes : List Nat} {hits : List DefEntry}
    (h : ix.go_hits table m classes = some hits) :
    ∀ d ∈ hits, d ∈ method_candidates table m "go" := by
  induction classes generalizing hits with
  | nil =>
    cases h
    exact fun d hd => (nomatch hd)
  | cons c rest ih =>
    rw [go_hits] at h
    split at h
    · cases h
    · obtain ⟨later, hlater, rfl⟩ := Option.map_eq_some_iff.mp h
      intro d hd
      cases List.mem_append.mp hd with
      | inl hd => exact hits_for_subset d hd
      | inr hd => exact ih hlater d hd

/-- A narrowed site keeps methods of its same-name set only. -/
theorem narrow_subset {site : Site} {hits : List DefEntry} {rule : String} {virtual_dispatch : Bool}
    (h : ix.narrow table site = .Typed hits rule virtual_dispatch) :
    ∀ d ∈ hits, d ∈ method_candidates table site.method site.file.lang := by
  rw [narrow] at h
  split at h
  · cases h
  split at h
  · rename_i hgo
    split at h
    · rename_i found hfound
      obtain ⟨classes, -, hhits⟩ := Option.bind_eq_some_iff.mp hfound
      cases h
      rw [hgo]
      exact go_hits_subset hhits
    · cases h
  · split at h
    · rw [finish] at h
      split at h
      · cases h
      split at h
      · cases h
        exact hits_for_subset
      · split at h <;> cases h
    · cases h
    · cases h

end cgx.receiver.ReceiverIndex
