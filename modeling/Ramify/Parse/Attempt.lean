import Ramify.Fork.Grove
import Ramify.Fork.Tape
import Ramify.Flat.Follow
import Ramify.Search.Automaton

/-!
# Attempts

An *attempt* is one way to parse an input, as far as it got: a tree under
construction, a cursor on the input, and the lookahead, which is one character
ahead of what the tree holds. The attempts of a parse share one grove and one
tape; an attempt is a handle on each.

A branch of the tree stands for a name and the rule it is being expanded with,
and is complete when it has as many children as the rule has symbols. The
marker stands on the branch whose next symbol comes next. The root is a
nameless branch with the start symbol for its only rule.
-/

namespace Ramify.Parse

/-- What a branch of a parse tree stands for. -/
structure Site where
  /-- The name. -/
  name : String
  /-- The rule it is expanded with. -/
  rule : Flat.Rule

/-- What a leaf of a parse tree stands for. -/
structure Token where
  /-- The symbol. -/
  symbol : Symbol
  /-- The character matched by a class; nothing for other symbols. -/
  value : String

/-- What all attempts of a parse share. -/
structure Shared (σ : Type) where
  /-- The parse trees. -/
  grove : Fork.Grove Site Token
  /-- The input. -/
  tape : Fork.Tape σ Char
  /-- How many steps were taken. -/
  transitions : Nat
  /-- How many times an attempt was forked. -/
  forks : Nat

/-- One way to parse the input. -/
structure Attempt where
  /-- The handle on the grove. -/
  tree : Nat
  /-- The cursor on the tape. -/
  cursor : Nat
  /-- The next unconsumed character. -/
  lookahead : Lookahead
  deriving DecidableEq

/-- A state of the parsing machine. -/
inductive State where
  /-- An attempt in progress. -/
  | running (a : Attempt)
  /-- An attempt that completed the start symbol. -/
  | accepted (a : Attempt)
  /-- An attempt that came to nothing. -/
  | failed
  deriving DecidableEq

namespace State

/-- What is to be done with a state. -/
def kind : State → Search.Kind
  | running _ => .unfinished
  | accepted _ => .success
  | failed => .fail

/-- The attempt of a state that did not fail. -/
def attempt? : State → Option Attempt
  | running a | accepted a => some a
  | failed => none

end State

section

variable {σ : Type}

/-- The first attempt at a start symbol, with the input read from a cursor. -/
def begin (start : Symbol) (tape : Fork.Tape σ Char) (cursor : Nat) :
    Except Fault (Attempt × Shared σ) :=
  match tape.next cursor with
  | .error e => .error (.fork e)
  | .ok (lookahead, tape) =>
    .ok (⟨0, cursor, lookahead⟩,
      { grove := Fork.Grove.empty.plant (.branch ⟨"", ⟨[start]⟩⟩)
        tape := tape
        transitions := 0
        forks := 0 })

/-- The branch a node is, if it is one. -/
def Shared.site? (s : Shared σ) (node : Nat) : Option Site :=
  match s.grove.label? node with
  | some (.branch site) => some site
  | _ => none

/-! ### Looking at a state -/

/-- What the marker of an attempt stands on. -/
structure Standpoint where
  /-- The marked branch. -/
  site : Site
  /-- How many children of it are seen. -/
  children : Nat
  /-- The name of the branch above, which the root lacks. -/
  above : Option String

/-- The standpoint of an attempt. -/
def Shared.standpoint (s : Shared σ) (a : Attempt) : Except Fault Standpoint :=
  match s.grove.marker a.tree with
  | .error e => .error (.fork e)
  | .ok node =>
    match s.site? node with
    | none => .error .markerOnLeaf
    | some site =>
      .ok ⟨site, s.grove.visibleCount a.tree node,
        (s.grove.link? node).bind fun p => (s.site? p).map (·.name)⟩

/-- The nodes an attempt sees, each before its children, with their depths. -/
def Shared.seen (s : Shared σ) (a : Attempt) : List (Nat × Fork.Label Site Token) :=
  match s.grove.root a.tree with
  | .error _ => []
  | .ok root =>
    (s.grove.preorder a.tree root).filterMap fun v =>
      (s.grove.label? v.node).map fun label => (v.depth, label)

/-- An attempt with its tree and its lookahead. -/
def Attempt.describe (s : Shared σ) (a : Attempt) : String :=
  "RegularState \x7b tree: " ++ s.grove.describe a.tree ++ ", lookahead: " ++
    Text.Quoted.char? a.lookahead ++ ", .. \x7d"

/-- A state with its attempt. -/
def State.describe (s : Shared σ) : State → String
  | running a => "Regular(" ++ a.describe s ++ ")"
  | accepted a => "Success(" ++ a.describe s ++ ")"
  | failed => "Failed"

end

end Ramify.Parse
