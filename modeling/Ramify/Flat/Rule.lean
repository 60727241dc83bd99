import Ramify.Symbol

/-!
# Flat rules

A flat rule is a sequence of symbols and nothing else. The rule without
symbols derives the empty text and is shown as `_`.
-/

namespace Ramify.Flat

/-- A sequence of symbols. -/
structure Rule where
  /-- The symbols, in order. -/
  symbols : List Symbol

namespace Rule

/-- Rules are equal when their symbols are, character classes by name. -/
instance : BEq Rule := ⟨fun a b => a.symbols == b.symbols⟩

/-- The rule that derives the empty text. -/
def epsilon : Rule := ⟨[]⟩

/-- Whether a rule has no symbols. -/
def isEpsilon (r : Rule) : Bool := r.symbols.isEmpty

/-- The number of symbols. -/
def length (r : Rule) : Nat := r.symbols.length

/-- A rule as text. -/
def render (r : Rule) : String :=
  if r.isEpsilon then "_" else String.intercalate " " (r.symbols.map Symbol.render)

end Rule

/-- A name and the flat rules it may be expanded with. -/
structure Entry where
  /-- The name. -/
  name : String
  /-- The rules, in order. -/
  rules : List Rule
  /-- Whether the name was made up while lowering an extended grammar. -/
  synthetic : Bool := false

namespace Entry

/-- The names the rules of an entry refer to, in order. -/
def references (e : Entry) : List String :=
  e.rules.flatMap fun r => r.symbols.filterMap Symbol.name?

end Entry

end Ramify.Flat
