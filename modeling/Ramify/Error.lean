/-!
# Causes of failure

Every way in which the library can refuse its work is one constructor here,
with its wording in one place. Four groups:

* `GrammarError`: a grammar that cannot be built or analysed,
* `ForkError`: use of a handle after it was forked,
* `Fault`: a broken invariant of the parsing machine,
* `ParseError`: a failing source of characters, or a fault.

Each cause has a `message` for people, a stable `code` for programs, and some
have a `help` that says what to do. Rejected input is not among the causes: it
is an ordinary answer.
-/

namespace Ramify

/-- Why a grammar cannot be built or analysed. -/
inductive GrammarError where
  /-- A terminal without text. -/
  | emptyTerminal
  /-- A non-terminal that reaches itself before any input is consumed. -/
  | leftRecursion (name : String)
  /-- A reference to a name without rules. -/
  | missingRule (name : String)
  /-- A name defined twice. -/
  | duplicateRule (name : String)
  /-- A generated name that is already taken. -/
  | nameClash (name : String)
  deriving DecidableEq

namespace GrammarError

/-- The non-terminal at fault, if there is one. -/
def name? : GrammarError → Option String
  | emptyTerminal => none
  | leftRecursion n | missingRule n | duplicateRule n | nameClash n => some n

/-- What went wrong. -/
def message : GrammarError → String
  | emptyTerminal => "Empty terminals are not allowed"
  | leftRecursion n => "Left recursion found when checking non-terminal " ++ n
  | missingRule n => "No rule found for non-terminal " ++ n
  | duplicateRule n => "Duplicate rule for non-terminal " ++ n
  | nameClash n => "Synthetic non-terminal " ++ n ++ " clashes with a rule of the same name"

/-- The stable code. -/
def code : GrammarError → String
  | emptyTerminal => "grammar::empty_terminal"
  | leftRecursion _ => "grammar::left_recursion"
  | missingRule _ => "grammar::missing_rule"
  | duplicateRule _ => "grammar::duplicate_rule"
  | nameClash _ => "grammar::name_clash"

/-- What to do about it. -/
def help? : GrammarError → Option String
  | leftRecursion _ =>
    some "rewrite the rule with Repeat or Maybe so that input is consumed first"
  | nameClash _ => some "names of the form `<rule>_<n>` are reserved for generated rules"
  | _ => none

end GrammarError

/-- Misuse of a handle. -/
inductive ForkError where
  /-- The handle was forked, or given up, and can no longer be used. -/
  | alreadyForked
  deriving DecidableEq

namespace ForkError

/-- What went wrong. -/
def message : ForkError → String
  | alreadyForked => "Cannot use a forkable handle after it was forked"

/-- The stable code. -/
def code : ForkError → String
  | alreadyForked => "forkable::already_forked"

end ForkError

/-- A broken invariant of the parsing machine. -/
inductive Fault where
  /-- The marker of a parse tree stands on a leaf. -/
  | markerOnLeaf
  /-- A branch has more children than its rule has symbols. -/
  | childOverflow (children symbols : Nat)
  /-- A leaf of a character class without its character. -/
  | emptyClassLeaf
  /-- A handle was used after it was forked. -/
  | fork (e : ForkError)
  deriving DecidableEq

namespace Fault

/-- What went wrong. -/
def message : Fault → String
  | markerOnLeaf => "Parse tree marker points at a leaf"
  | childOverflow children symbols =>
    "Branch has " ++ toString children ++ " children but its rule only has " ++
      toString symbols ++ " symbols"
  | emptyClassLeaf => "Special symbol leaf without a captured character"
  | fork e => e.message

/-- The stable code. -/
def code : Fault → String
  | markerOnLeaf => "internal::marker_on_leaf"
  | childOverflow .. => "internal::child_overflow"
  | emptyClassLeaf => "internal::empty_special_leaf"
  | fork _ => "internal::fork"

end Fault

/-- Why a parse gives no answer. -/
inductive ParseError where
  /-- The source could not be read. -/
  | source (reason : String)
  /-- The source holds bytes that are not UTF-8. -/
  | invalidUtf8 (bytes : List UInt8)
  /-- An invariant of the machine is broken. -/
  | fault (f : Fault)
  deriving DecidableEq

namespace ParseError

/-- Two lower case hexadecimal digits. -/
def hexByte (b : UInt8) : String :=
  String.ofList [Nat.digitChar (b.toNat / 16), Nat.digitChar (b.toNat % 16)]

/-- What went wrong. -/
def message : ParseError → String
  | source reason => "Failed to read input: " ++ reason
  | invalidUtf8 bytes =>
    "Input is not valid UTF-8: [" ++ String.intercalate ", " (bytes.map hexByte) ++ "]"
  | fault f => "Internal parser error: " ++ f.message

/-- The stable code. -/
def code : ParseError → String
  | source _ => "parser::source"
  | invalidUtf8 _ => "parser::invalid_utf8"
  | fault _ => "parser::internal"

/-- Whether the machine is at fault, and not the source. -/
def isInternal : ParseError → Bool
  | fault _ => true
  | _ => false

end ParseError

end Ramify
