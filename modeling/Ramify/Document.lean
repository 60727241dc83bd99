/-!
# Documents

Structured text as it is kept in configuration files: nothing, truth values,
numbers, texts, lists, and records of named fields. A number is given in the
decimal system, as an integer and the number of its digits that stand behind
the point; an integer has none of these.
-/

namespace Ramify

/-- A structured value. -/
inductive Document where
  /-- Nothing. -/
  | null
  /-- A truth value. -/
  | bool (b : Bool)
  /-- The number `digits` divided by ten to the power `scale`. -/
  | number (digits : Int) (scale : Nat)
  /-- A text. -/
  | text (s : String)
  /-- A list. -/
  | list (items : List Document)
  /-- A record. -/
  | record (fields : List (String × Document))

namespace Document

/-- A field of a record. -/
def field? (fields : List (String × Document)) (name : String) : Option Document :=
  fields.lookup name

/-- A truth value. -/
def bool? : Document → Option Bool
  | bool b => some b
  | _ => none

/-- A natural number that fits into a machine word. -/
def word? : Document → Option Nat
  | number digits 0 => if 0 ≤ digits ∧ digits < UInt64.size then some digits.toNat else none
  | _ => none

end Document

end Ramify
