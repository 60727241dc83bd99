import Ramify.Document

/-!
# Settings

How a parser goes about its work: whether its attempts advance one step at a
time or are followed by a crew of workers, and whether branches that only stem
from lowering an extended grammar are unfolded.

Settings have a document form. Reading it back (`Settings.ofDocument?`) is
lenient where it can be: fields that are missing take their default, fields
that are not known are ignored, and the settings may also be given as the list
of their fields in order. The strategy has to be one of the two, though, and
the number of workers is a field of a record and has no default.
-/

namespace Ramify

/-- How the attempts of a parse are advanced. -/
inductive Strategy where
  /-- One step at a time, all attempts in turn. -/
  | sequential
  /-- By a crew of workers; none stands for as many as are at hand. -/
  | concurrent (threads : Nat)
  deriving DecidableEq

namespace Strategy

/-- A strategy as a document. -/
def toDocument : Strategy → Document
  | sequential => .text "Sequential"
  | concurrent n => .record [("Concurrent", .record [("threads", .number n 0)])]

/-- The number of workers, a field of a record. -/
def threads? : Document → Option Nat
  | .record fields => (Document.field? fields "threads").bind Document.word?
  | _ => none

/-- The strategy a document stands for. -/
def ofDocument? : Document → Option Strategy
  | .text "Sequential" => some sequential
  | .record [("Sequential", .null)] => some sequential
  | .record [("Concurrent", body)] => (threads? body).map concurrent
  | _ => none

/-- A strategy with its parts. -/
def describe : Strategy → String
  | sequential => "Sequential"
  | concurrent n => "Concurrent \x7b threads: " ++ toString n ++ " \x7d"

end Strategy

/-- How a parser goes about its work. -/
structure Settings where
  /-- How the attempts are advanced. -/
  strategy : Strategy := .sequential
  /-- Whether branches of made-up names are unfolded. -/
  unfoldSynthetic : Bool := true
  deriving DecidableEq

namespace Settings

/-- The settings used when nothing is said. -/
def standard : Settings := ⟨.sequential, true⟩

/-- Settings as a document. -/
def toDocument (s : Settings) : Document :=
  .record [("strategy", s.strategy.toDocument), ("unfold_synthetic", .bool s.unfoldSynthetic)]

/-- Settings of which parts may be missing. -/
def ofParts? (strategy unfoldSynthetic : Option Document) : Option Settings := do
  let strategy ← match strategy with
    | some d => Strategy.ofDocument? d
    | none => some standard.strategy
  let unfoldSynthetic ← match unfoldSynthetic with
    | some d => d.bool?
    | none => some standard.unfoldSynthetic
  return ⟨strategy, unfoldSynthetic⟩

/-- The settings a document stands for. -/
def ofDocument? : Document → Option Settings
  | .record fields =>
    ofParts? (Document.field? fields "strategy") (Document.field? fields "unfold_synthetic")
  | .list [] => ofParts? none none
  | .list [strategy] => ofParts? (some strategy) none
  | .list [strategy, unfoldSynthetic] => ofParts? (some strategy) (some unfoldSynthetic)
  | _ => none

/-- Settings with their parts. -/
def describe (s : Settings) : String :=
  "ParserConfig \x7b strategy: " ++ s.strategy.describe ++ ", unfold_synthetic: " ++
    toString s.unfoldSynthetic ++ " \x7d"

end Settings

end Ramify
