/-!
# Nondeterministic automata

A machine whose states may have any number of successors. A state is either
unfinished, in which case it has successors to be computed, a success, or a
dead end. Finding the successors of a state may fail, and may change a *world*
that all states share: counters, a record of what was done, memory that the
states point into.

What one looks for is a successful state that can be reached from a start
state through unfinished ones (`Search.Breadth`, `Search.Crew`).
-/

namespace Ramify.Search

/-- What is to be done with a state. -/
inductive Kind where
  /-- Its successors are to be computed. -/
  | unfinished
  /-- It is what was looked for. -/
  | success
  /-- It is a dead end. -/
  | fail
  deriving DecidableEq

/-- A machine with states `σ` in a world `ω`, which may fail with `ε`. -/
structure Automaton (σ ω ε : Type) where
  /-- The kind of a state. -/
  kind : σ → Kind
  /-- The successors of an unfinished state, in order. -/
  next : σ → ω → Except ε (List σ) × ω

/-- How a search ended. -/
inductive Outcome (σ ε : Type) where
  /-- A successful state was found. -/
  | found (s : σ)
  /-- All states were tried in vain. -/
  | exhausted
  /-- The successors of a state could not be computed. -/
  | failed (e : ε)
  /-- The search was stopped before it came to an end. -/
  | stopped

namespace Automaton

variable {σ ω ε : Type} (a : Automaton σ ω ε)

/-- The first successful state of a list. -/
def firstSuccess (states : List σ) : Option σ := states.find? (a.kind · = .success)

/-- The unfinished states of a list, in order. -/
def unfinished (states : List σ) : List σ := states.filter (a.kind · = .unfinished)

/-- A machine without a world, given by a pure function. -/
def ofPure (kind : σ → Kind) (next : σ → Except ε (List σ)) : Automaton σ Unit ε :=
  ⟨kind, fun s w => (next s, w)⟩

end Automaton

end Ramify.Search
