import Ramify.Flat.Grammar

/-!
# Metrics

Figures on the shape of a flat grammar. The largest number of rules of one
name says how many ways there are to go on where a name is expanded, besides
leaving it out.
-/

namespace Ramify.Flat

/-- Figures on a grammar. -/
structure Metrics where
  /-- The number of rules. -/
  rules : Nat
  /-- The number of names. -/
  names : Nat
  /-- The number of made-up names. -/
  synthetic : Nat
  /-- The number of nullable names. -/
  nullable : Nat
  /-- The number of empty rules. -/
  epsilonRules : Nat
  /-- The largest number of rules of one name. -/
  maxAlternatives : Nat
  /-- The length of the longest rule. -/
  maxRuleLength : Nat
  deriving DecidableEq

namespace Metrics

/-- The figures of a grammar. -/
def compute (g : Grammar) : Metrics :=
  let rules := g.productions.flatMap (·.rules)
  { rules := g.ruleCount
    names := g.size
    synthetic := g.productions.countP (·.synthetic)
    nullable := g.productions.countP (·.nullable)
    epsilonRules := rules.countP (·.isEpsilon)
    maxAlternatives := (g.productions.map (·.rules.length)).foldl max 0
    maxRuleLength := (rules.map (·.length)).foldl max 0 }

/-- The figures in a sentence. -/
def summary (m : Metrics) : String :=
  "Grammar summary: " ++ toString m.rules ++ " rules, " ++ toString m.names ++
    " non-terminals (" ++ toString m.synthetic ++ " synthetic), " ++ toString m.nullable ++
    " nullable, " ++ toString m.epsilonRules ++ " epsilon rules, max " ++
    toString m.maxAlternatives ++ " alternatives, max rule length " ++ toString m.maxRuleLength

end Metrics

end Ramify.Flat
