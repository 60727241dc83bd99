import Ramify.Flat.Grammar

/-!
# Lowering

An extended grammar is lowered to flat rules one rule at a time. Whatever is
not a plain symbol inside a sequence or the body of a repetition moves to a
name of its own, and so do repetitions and options that are variants of a
choice, because the empty rule they bring along must not become a variant of
the whole. A repetition turns into right recursion on the name it is lowered
under, an option into its body and the empty rule, and a choice into as many
rules of the same name.

The `n`-th name made up under `parent` is `parent_n`. Lowering one rule gives a
`Draft`: the names that got rules, each in the place it took when it was made
up, the name of the rule itself first.
-/

namespace Ramify.Ebnf

/-- The flat rules found so far while lowering one rule. -/
structure Draft where
  /-- The names with their rules, in the order in which they were made up. -/
  targets : List (String × List Flat.Rule)
  /-- How many names were made up under a name. -/
  minted : List (String × Nat)

namespace Draft

/-- Gives a name its place, unless it has one. -/
def reserve (name : String) (d : Draft) : Draft :=
  if d.targets.any (·.1 == name) then d else { d with targets := d.targets ++ [(name, [])] }

/-- Appends a rule to the rules of a name. -/
def emit (name : String) (rule : Flat.Rule) (d : Draft) : Draft :=
  { d.reserve name with
    targets := (d.reserve name).targets.map fun (n, rules) =>
      if n == name then (n, rules ++ [rule]) else (n, rules) }

/-- How many names were made up under `parent`. -/
def count (d : Draft) (parent : String) : Nat := (d.minted.lookup parent).getD 0

/-- The next name to be made up under `parent`. -/
def nextName (d : Draft) (parent : String) : String := parent ++ "_" ++ toString (d.count parent)

/-- Makes up a name under `parent`: `d.nextName parent` takes its place. -/
def mint (parent : String) (d : Draft) : Draft :=
  { d with minted := (parent, d.count parent + 1) :: d.minted }.reserve (d.nextName parent)

end Draft

mutual

/-- Lowers an expression to rules of `target`. -/
def lower (target : String) : Expr → Draft → Draft
  | .symbol s, d => d.emit target ⟨[s]⟩
  | .choice variants, d => lowerVariants target variants d
  | .many body, d =>
    match body.symbol? with
    | some s => (d.emit target ⟨[s, .nonTerminal target]⟩).emit target .epsilon
    | none =>
      let name := d.nextName target
      ((lower name body (d.mint target)).emit target
        ⟨[.nonTerminal name, .nonTerminal target]⟩).emit target .epsilon
  | .optional body, d => (lower target body d).emit target .epsilon
  | .seq parts, d =>
    let (symbols, d) := lowerParts target parts d
    d.emit target ⟨symbols⟩

/-- Lowers the variants of a choice to rules of `target`. -/
def lowerVariants (target : String) : List Expr → Draft → Draft
  | [], d => d
  | e :: es, d =>
    if e.isOpenEnded then
      let name := d.nextName target
      lowerVariants target es
        ((lower name e (d.mint target)).emit target ⟨[.nonTerminal name]⟩)
    else lowerVariants target es (lower target e d)

/-- Lowers the parts of a sequence under `target`, each to a symbol. -/
def lowerParts (target : String) : List Expr → Draft → List Symbol × Draft
  | [], d => ([], d)
  | e :: es, d =>
    match e.symbol? with
    | some s =>
      let (symbols, d) := lowerParts target es d
      (s :: symbols, d)
    | none =>
      let name := d.nextName target
      let (symbols, d) := lowerParts target es (lower name e (d.mint target))
      (.nonTerminal name :: symbols, d)

end

/-- Lowers one rule. -/
def lowerRule (name : String) (e : Expr) : Draft :=
  lower name e (Draft.reserve name ⟨[], []⟩)

/-- The entries of one rule: those after the first are made up. -/
def Draft.entries (d : Draft) : List Flat.Entry :=
  match d.targets with
  | [] => []
  | (name, rules) :: made => ⟨name, rules, false⟩ :: made.map fun (n, rs) => ⟨n, rs, true⟩

namespace Grammar

variable (g : Grammar)

/-- The entries of all rules, in order. -/
def lowered : List Flat.Entry := g.rules.flatMap fun (n, e) => (lowerRule n e).entries

/-- The first made-up name that is a name of the grammar. -/
def clash? : Option String :=
  ((g.lowered.filter (·.synthetic)).map (·.name)).find? g.contains

/-- Lowers a grammar to flat rules and analyses them. -/
def flatten : Except GrammarError Flat.Grammar :=
  match g.clash? with
  | some n => .error (.nameClash n)
  | none => Flat.Grammar.analyse g.lowered

end Grammar

end Ramify.Ebnf
