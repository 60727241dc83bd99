/-!
# Saturation

Which names of a grammar can be empty is a question for the least set of names
closed under a rule of the form "a name belongs as soon as enough others do".
`saturate` finds it among finitely many names: beginning with none, it goes over
the names in rounds and adds each name that the rule yields from those known by
then, so that it counts for the names behind it in the same round. It stops when
a round adds nothing. As each round before that adds a name, there are at most
as many of them as names.
-/

namespace Ramify

/-- Adds a name to those that are known, which stay in the order of all names. -/
def addKnown (names : List String) (n : String) (known : List String) : List String :=
  names.filter fun m => m == n || known.contains m

/-- What is left of a round: the names still to be looked at, in order. -/
def saturateRound (names : List String) (yields : List String → String → Bool) :
    List String → List String → List String
  | [], known => known
  | n :: rest, known =>
    saturateRound names yields rest
      (if !known.contains n && yields known n then addKnown names n known else known)

/-- At most `rounds` rounds, fewer if one of them adds nothing. -/
def saturateFrom (names : List String) (yields : List String → String → Bool) :
    Nat → List String → List String
  | 0, known => known
  | rounds + 1, known =>
    let next := saturateRound names yields names known
    if next.length = known.length then known else saturateFrom names yields rounds next

/-- The least set of names that is closed under a rule, in the order of the
    names. The rule has to be monotone: it yields no less from more names. -/
def saturate (names : List String) (yields : List String → String → Bool) : List String :=
  saturateFrom names yields (names.length + 1) []

end Ramify
