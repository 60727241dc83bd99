import Ramify.Flat.Rule
import Ramify.Saturation

/-!
# Nullable names

A name is nullable when it derives the empty text: one of its rules consists
of nullable names only, the rule without symbols being the simplest case. A
rule with the end of input is not such a rule, although it consumes nothing.
-/

namespace Ramify.Flat

/-- Whether a symbol is one of the names `known` to be nullable. -/
def nullableSymbol (known : List String) : Symbol → Bool
  | .nonTerminal n => known.contains n
  | _ => false

/-- Whether some rule of `name` consists of names `known` to be nullable. -/
def yieldsNullable (entries : List Entry) (known : List String) (name : String) : Bool :=
  entries.any fun e => e.name == name &&
    e.rules.any fun r => r.symbols.all (nullableSymbol known)

/-- The nullable names, in the order of the entries. -/
def nullableNames (entries : List Entry) : List String :=
  saturate (entries.map (·.name)) (yieldsNullable entries)

end Ramify.Flat
