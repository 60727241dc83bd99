import Ramify.Flat.Grammar

/-!
# FOLLOW-sets

The FOLLOW-set of a name holds the lookaheads that can stand right behind it
when a grammar is used from one start symbol. A nullable name can only be left
out where the lookahead may follow it, which lets a parser drop attempts that
are bound to fail.

Anything may follow the start symbol, as a text may be longer than what is
parsed of it. For every other occurrence of a name in a rule, what comes after
it in the rule contributes directly; where that may be empty, whatever follows
the owner of the rule follows the name as well. These *flows* between names
can be circular. The set of a name is therefore gathered on a walk against the
flows (`FollowSets.Walk`): from each name that it meets for the first time it
goes on to all names whose FOLLOW-set flows in.
-/

namespace Ramify.Flat

/-- The FOLLOW-sets of the names of a grammar. -/
structure FollowSets where
  /-- A set for each name. -/
  sets : List (String × LookaheadSet)

namespace FollowSets

/-- FOLLOW-sets that know no name, and so rule out nothing. -/
def unrestricted : FollowSets := ⟨[]⟩

/-- The FOLLOW-set of a name. -/
def find? (f : FollowSets) (name : String) : Option LookaheadSet := f.sets.lookup name

/-- Whether a lookahead can follow a name. Nothing is ruled out for a name
    without a set. -/
def admits (f : FollowSets) (name : String) (c : Lookahead) : Bool :=
  (f.find? name).all (·.admits c)

/-- Adds to `acc` what a sequence of symbols can begin with, and tells whether
    the whole sequence may be empty. The end of input is something to begin
    with here. -/
def sequenceFirst (g : Grammar) : List Symbol → LookaheadSet → LookaheadSet × Bool
  | [], acc => (acc, true)
  | .terminal t :: _, acc => (acc + .ofTerminal t, false)
  | .charClass k :: _, acc => (acc + .ofClass k, false)
  | .endOfInput :: _, acc => (acc + .endOfInput, false)
  | .nonTerminal n :: rest, acc =>
    let acc := match g.first? n with
      | some first => acc + first
      | none => acc
    if g.isNullable n then sequenceFirst g rest acc else (acc, false)

/-- An occurrence of a name in a rule. -/
structure Occurrence where
  /-- The name whose rule it is. -/
  owner : String
  /-- The name that occurs. -/
  target : String
  /-- The symbols behind the occurrence. -/
  after : List Symbol

/-- The occurrences of names in a sequence of symbols. -/
def occurrencesIn (owner : String) : List Symbol → List Occurrence
  | [] => []
  | .nonTerminal n :: rest => ⟨owner, n, rest⟩ :: occurrencesIn owner rest
  | _ :: rest => occurrencesIn owner rest

/-- The occurrences of names in the rules of a grammar, in order. -/
def occurrences (g : Grammar) : List Occurrence :=
  g.productions.flatMap fun p => p.rules.flatMap fun r => occurrencesIn p.name r.symbols

/-- What follows an occurrence within its rule, and whether the rule may end
    with the occurrence. -/
def Occurrence.first (g : Grammar) (o : Occurrence) : LookaheadSet × Bool :=
  sequenceFirst g o.after .empty

/-- What follows a name directly: everything if it is the start, and what
    follows its occurrences within their rules. -/
def direct (g : Grammar) (start : Symbol) (name : String) : LookaheadSet :=
  ((occurrences g).filter (·.target == name)).foldl (fun acc o => acc + (o.first g).1)
    (if start.name? = some name then .anything else .empty)

/-- The pairs of names such that the FOLLOW-set of the first flows into that
    of the second. -/
def flowPairs (g : Grammar) : List (String × String) :=
  (occurrences g).filterMap fun o =>
    if (o.first g).2 && o.target != o.owner then some (o.owner, o.target) else none

/-! ### Walking against the flows -/

/-- The names whose FOLLOW-set flows into that of `name`, once for each flow. -/
def inherits (pairs : List (String × String)) (name : String) : List String :=
  pairs.filterMap fun (source, target) => if target == name then some source else none

/-- A walk against the flows. -/
structure Walk where
  /-- What follows the names met so far directly. -/
  set : LookaheadSet
  /-- The names met so far. -/
  seen : List String
  /-- The names still to be looked at, the next one first. -/
  pending : List String

namespace Walk

/-- A walk that is about to begin. -/
def begin (name : String) : Walk := ⟨.empty, [], [name]⟩

/-- Looks at the next name, if there is one. Unless it has been met before, it
    adds what follows it directly, and the names whose FOLLOW-set flows into
    its own are looked at next, the last one of them first. -/
def step (directs : List (String × LookaheadSet)) (pairs : List (String × String))
    (w : Walk) : Option Walk :=
  match w.pending with
  | [] => none
  | name :: pending =>
    if w.seen.contains name then some { w with pending }
    else some {
      set := match directs.lookup name with
        | some own => w.set + own
        | none => w.set
      seen := name :: w.seen
      pending := (inherits pairs name).reverse ++ pending }

/-- Goes on until nothing is left to be looked at, for at most so many turns. -/
def run (directs : List (String × LookaheadSet)) (pairs : List (String × String)) :
    Nat → Walk → Walk
  | 0, w => w
  | turns + 1, w =>
    match w.step directs pairs with
    | none => w
    | some w => run directs pairs turns w

end Walk

/-- What follows a name, gathered from all names that are met against the
    flows. Each flow is gone along once at most, so there are no more turns
    than flows and the one for the name itself. -/
def gather (directs : List (String × LookaheadSet)) (pairs : List (String × String))
    (name : String) : LookaheadSet :=
  (Walk.run directs pairs (pairs.length + 1) (.begin name)).set

/-- The FOLLOW-sets of a grammar used from a start symbol. -/
def compute (g : Grammar) (start : Symbol) : FollowSets :=
  let pairs := flowPairs g
  let directs := g.names.map fun n => (n, direct g start n)
  ⟨g.names.map fun n => (n, gather directs pairs n)⟩

end FollowSets

end Ramify.Flat
