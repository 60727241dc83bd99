import Ramify.Search.Automaton

/-!
# Breadth-first search

The states reachable from a start state are tried one *generation* at a time:
the successors of all states of a generation, in order and without the dead
ends, are the next one. The first successful state in that order ends the
search, and so does the first failure.

The number of generations is limited from outside, since a machine may go on
forever; whoever knows a bound can rule out that the limit is ever met.
-/

namespace Ramify.Search.Breadth

variable {σ ω ε : Type} (a : Automaton σ ω ε)

/-- How a generation ended: the search is over, or these states come next. -/
inductive Progress (σ ε : Type) where
  /-- The search is over. -/
  | over (o : Outcome σ ε)
  /-- The search goes on with the next generation. -/
  | next (states : List σ)

/-- Tries the states of a generation in order. `gathered` are the states of
    the next generation found before, the last one first. -/
def generation : List σ → List σ → ω → Progress σ ε × ω
  | [], gathered, w => (.next gathered.reverse, w)
  | s :: states, gathered, w =>
    match a.next s w with
    | (.error e, w) => (.over (.failed e), w)
    | (.ok successors, w) =>
      match a.firstSuccess successors with
      | some t => (.over (.found t), w)
      | none => generation states ((a.unfinished successors).reverse ++ gathered) w

/-- Tries at most `limit` generations. -/
def generations : Nat → List σ → ω → Outcome σ ε × ω
  | 0, _, w => (.stopped, w)
  | limit + 1, states, w =>
    match generation a states [] w with
    | (.over o, w) => (o, w)
    | (.next [], w) => (.exhausted, w)
    | (.next states, w) => generations limit states w

/-- Searches from a start state, which may already be what is looked for. -/
def run (limit : Nat) (start : σ) (w : ω) : Outcome σ ε × ω :=
  match a.kind start with
  | .success => (.found start, w)
  | .fail => (.exhausted, w)
  | .unfinished => generations a limit [start] w

/-- The successors of all states in order, dead ends and successes included. -/
def successors : List σ → List σ → ω → Except ε (List σ) × ω
  | [], gathered, w => (.ok gathered.reverse, w)
  | s :: states, gathered, w =>
    match a.next s w with
    | (.error e, w) => (.error e, w)
    | (.ok found, w) => successors states (found.reverse ++ gathered) w

/-- The name of this way to search. -/
def describe : String := "SequentialAutomaton \x7b .. \x7d"

end Ramify.Search.Breadth
