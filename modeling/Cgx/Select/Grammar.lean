import Mathlib.Data.List.Infix
import Mathlib.Data.List.Sort

namespace cgx.select

/-! ### Segment matchers -/

/-- Where a run stands between the stars of its segment. -/
inductive Affix where
  | Equals
  | StartsWith
  | EndsWith
  | Contains
deriving DecidableEq

/-- One alternative of a group with its own polarity. -/
structure GroupOpt where
  text : String
  negated : Bool
deriving DecidableEq

/-- A run of literals and groups between stars. -/
inductive RunPred where
  | Set (options : List String) (negated : Bool)
  | MixedGroup (opts : List GroupOpt)
deriving DecidableEq

inductive Piece where
  | Star
  | Run (r : RunPred)
deriving DecidableEq

/-- A matcher for one segment: stars and runs in source order. -/
structure SegmentMatcher where
  pieces : List Piece
deriving DecidableEq

inductive PatternSeg where
  | Globstar
  | Segment (m : SegmentMatcher)
deriving DecidableEq

structure Pattern where
  segments : List PatternSeg
deriving DecidableEq

def affix_hit (affix : Affix) (needle seg : String) : Bool :=
  match affix with
  | .Equals => seg == needle
  | .StartsWith => decide (needle.toList <+: seg.toList)
  | .EndsWith => decide (needle.toList <:+ seg.toList)
  | .Contains => decide (needle.toList <:+: seg.toList)

namespace RunPred

def eval (affix : Affix) (seg : String) : RunPred → Bool
  | .Set options negated =>
    let base := options.any fun o => affix_hit affix o seg
    negated ^^ base
  | .MixedGroup opts =>
    opts.any fun o =>
      let base := affix_hit affix o.text seg
      o.negated ^^ base

end RunPred

namespace SegmentMatcher

def leading_star (m : SegmentMatcher) : Bool :=
  m.pieces.head? == some .Star

def trailing_star (m : SegmentMatcher) : Bool :=
  m.pieces.getLast? == some .Star

def runs (m : SegmentMatcher) : List RunPred :=
  m.pieces.filterMap fun p =>
    match p with
    | .Run r => some r
    | .Star => none

/-- The affix of the `i`-th of `k` runs. -/
def affix (m : SegmentMatcher) (k i : Nat) : Affix :=
  let before := decide (0 < i) || m.leading_star
  let after := decide (i < k - 1) || m.trailing_star
  match before, after with
  | false, false => .Equals
  | false, true => .StartsWith
  | true, false => .EndsWith
  | true, true => .Contains

/-- Whether a segment has every run where the stars want it; stars alone take any segment. -/
def «matches» (m : SegmentMatcher) (seg : String) : Bool :=
  m.runs.zipIdx.all fun run => run.1.eval (m.affix m.runs.length run.2) seg

end SegmentMatcher

/-! ### The automaton of a pattern -/

/-- What a transition consumes: any segment, or one that a matcher accepts. -/
inductive EdgeMatcher where
  | Any
  | Seg (m : SegmentMatcher)
deriving DecidableEq

def EdgeMatcher.«matches» (seg : String) : EdgeMatcher → Bool
  | .Any => true
  | .Seg m => m.matches seg

structure State where
  eps : List Nat
  edges : List (EdgeMatcher × Nat)
deriving DecidableEq

def State.default : State := ⟨[], []⟩

structure SimOutcome where
  matched : Bool
  truncated : Bool
deriving DecidableEq

structure Nfa where
  states : List State
  start : Nat
  accept : Nat
deriving DecidableEq

namespace Nfa

/-- Add a pattern segment behind the state `cur`. -/
def compile_seg (acc : List State × Nat) (seg : PatternSeg) : List State × Nat :=
  let (states, cur) := acc
  let next := states.length
  match seg with
  | .Globstar =>
    -- Stay for any segment, or go on without one.
    let states := states.modify cur fun s => { s with edges := s.edges ++ [(.Any, cur)] }
    let states := states ++ [.default]
    (states.modify cur fun s => { s with eps := s.eps ++ [next] }, next)
  | .Segment m =>
    let states := states ++ [.default]
    (states.modify cur fun s => { s with edges := s.edges ++ [(.Seg m, next)] }, next)

def compile (pattern : Pattern) : Nfa :=
  let (states, cur) := pattern.segments.foldl compile_seg ([.default], 0)
  ⟨states, 0, cur⟩

/-- The state of a number; the numbers behind the last stand for states without transitions. -/
def state (nfa : Nfa) (s : Nat) : State :=
  nfa.states.getD s .default

/-- Add a state and what is reachable from it without a segment; `none` when the recursion
goes deeper than `fuel`. -/
def eps_closure (nfa : Nfa) : Nat → Nat → List Nat → Option (List Nat)
  | 0, _, _ => none
  | fuel + 1, state, set =>
    if state ∈ set then some set
    else (nfa.state state).eps.foldlM (fun set e => eps_closure nfa fuel e set) (set.orderedInsert (· ≤ ·) state)

/-- The states active after a segment. -/
def advance (nfa : Nfa) (fuel : Nat) (active : List Nat) (seg : String) : Option (List Nat) :=
  active.foldlM (fun next s =>
    (nfa.state s).edges.foldlM (fun next e =>
      if e.1.matches seg then nfa.eps_closure fuel e.2 next else some next) next) []

/-- Keep the first `cap` states; whether that drops any. -/
def cut (cap : Nat) (next : List Nat) : List Nat × Bool :=
  if next.length > cap then (next.take cap, true) else (next, false)

/-- Go on over the segments, as long as a state is active. -/
def simulate_from (nfa : Nfa) (fuel cap : Nat) : List String → List Nat → Bool → Option (List Nat × Bool)
  | [], active, truncated => some (active, truncated)
  | seg :: rest, active, truncated => do
    let next ← nfa.advance fuel active seg
    let (active, dropped) := cut cap next
    let truncated := truncated || dropped
    if active.isEmpty then some (active, truncated) else simulate_from nfa fuel cap rest active truncated

/-- Whether the automaton takes all of the segments, with at most `cap` states active. A
closure adds a state on each level, so it goes no deeper than there are states. -/
def simulate (nfa : Nfa) (segments : List String) (cap : Nat) : Option SimOutcome := do
  let active ← nfa.eps_closure nfa.states.length nfa.start []
  let (active, truncated) ← nfa.simulate_from nfa.states.length cap segments active false
  some ⟨decide (nfa.accept ∈ active), truncated⟩

end Nfa

end cgx.select
