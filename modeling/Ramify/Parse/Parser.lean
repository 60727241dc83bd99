import Ramify.Ebnf.Lowering
import Ramify.Flat.Metrics
import Ramify.Parse.Harvest
import Ramify.Parse.Machine
import Ramify.Search.Breadth
import Ramify.Search.Crew
import Ramify.Settings
import Ramify.Source.Utf8
import Ramify.Tree.Pass

/-!
# Parsers

A parser is built from a grammar, extended or flat, and a start symbol
(`Plan.build`). It searches for an attempt that completes the start symbol,
turns its parse tree into a syntax tree and applies its passes, of which
unfolding the branches of made-up names is the first if the settings say so.

Input that no attempt can parse is rejected: there is no tree, but no error
either. A failing source is an error, even if an attempt was successful, yet
only if the failing part of the input was asked for at all.

The search is limited to a number of generations (`Parser.stepLimit`) that no
attempt can exceed, since the grammar is not left recursive: at one place of
the input an attempt never opens a name that is open there already. Take `n`
names and rules of at most `l` symbols. A branch that consumes nothing is then
at most `n` branches deep, and takes fewer than `2 * (l + 1) ^ (n + 1)` steps.
For every character there are at most `n` branches that begin with it, and each
of them has at most `l` children that consume nothing.
-/

namespace Ramify

open Parse (Machine Shared State)

/-- The grammar of a parser to be built. -/
inductive Plan.Rules where
  /-- An extended grammar, which is lowered first. -/
  | extended (g : Ebnf.Grammar)
  /-- A flat grammar. -/
  | flat (g : Flat.Grammar)

/-- What a parser is built from. -/
structure Plan where
  /-- The grammar. -/
  rules : Plan.Rules
  /-- The start symbol. -/
  start : Symbol
  /-- The settings. -/
  settings : Settings
  /-- The passes, in order. -/
  passes : List Pass

/-- A parser for a grammar and a start symbol. -/
structure Parser where
  /-- The grammar. -/
  grammar : Flat.Grammar
  /-- What can follow its names. -/
  follow : Flat.FollowSets
  /-- The start symbol. -/
  start : Symbol
  /-- The settings. -/
  settings : Settings
  /-- The passes, in order. -/
  passes : List Pass

namespace Plan

/-- A plan with its parts. -/
def describe (p : Plan) : String :=
  "ParserBuilder \x7b start: " ++ p.start.describe ++ ", config: " ++ p.settings.describe ++
    ", processors: " ++ toString p.passes.length ++ ", .. \x7d"

/-- The flat grammar of a plan. -/
def flatten (p : Plan) : Except GrammarError Flat.Grammar :=
  match p.rules with
  | .extended g => g.flatten
  | .flat g => .ok g

/-- The unfolding of made-up names, if it is asked for and there are any. -/
def unfolding (settings : Settings) (g : Flat.Grammar) : List Pass :=
  if settings.unfoldSynthetic && !g.syntheticNames.isEmpty then [.unfold g.syntheticNames] else []

/-- Builds the parser. A start symbol that is a name needs rules. -/
def build (p : Plan) : Except GrammarError Parser :=
  match p.flatten with
  | .error e => .error e
  | .ok g =>
    match p.start.name?.filter fun n => !g.contains n with
    | some n => .error (.missingRule n)
    | none =>
      .ok {
        grammar := g
        follow := .compute g p.start
        start := p.start
        settings := p.settings
        passes := unfolding p.settings g ++ p.passes }

end Plan

/-- What a parse gave. -/
structure ParseResult where
  /-- The tree, if the input was accepted. -/
  tree? : Option Tree
  /-- How many steps were taken. -/
  transitions : Nat
  /-- How many times an attempt was forked. -/
  forks : Nat

namespace Parser

variable {σ : Type} (p : Parser)

/-- A parser with its parts. -/
def describe : String :=
  "Parser \x7b start: " ++ p.start.describe ++ ", config: " ++ p.settings.describe ++ ", rules: " ++
    toString p.grammar.ruleCount ++ ", processors: " ++ toString p.passes.length ++ ", .. \x7d"

/-- The machine of a parser. -/
def machine : Machine := ⟨p.grammar, p.follow⟩

/-- The largest number of generations that an input of `length` characters
    can take. -/
def stepLimit (g : Flat.Grammar) (length : Nat) : Nat :=
  let m := Flat.Metrics.compute g
  2 * (m.names + 1) * (length + 1) * Nat.pow (m.maxRuleLength + 2) (m.names + 2) + 4

/-- Searches for an attempt that completes the start symbol. -/
def search (limit : Nat) (start : State) (s : Shared σ) :
    Search.Outcome State Fault × Shared σ :=
  match p.settings.strategy with
  | .sequential => Search.Breadth.run p.machine.automaton limit start s
  | .concurrent threads => Search.Crew.search p.machine.automaton threads limit start s

/-- The syntax tree of the state a search has found. -/
def treeOf (s : Shared σ) : Search.Outcome State Fault → Except Fault (Option Tree)
  | .found (.accepted a) => (Parse.harvest s a).map some
  | .failed f => .error f
  | _ => .ok none

/-- Parses an input of at most `length` characters. `errorOf` tells from the
    state of the producer whether the source has failed. -/
def run (tape : Fork.Tape σ Char) (length : Nat) (errorOf : σ → Option ParseError) :
    Except ParseError ParseResult :=
  match Parse.begin p.start tape 0 with
  | .error f => .error (.fault f)
  | .ok (a, s) =>
    match p.search (stepLimit p.grammar length) (.running a) s with
    | (.failed f, _) => .error (.fault f)
    | (outcome, s) =>
      match errorOf s.tape.state with
      | some e => .error e
      | none =>
        match treeOf s outcome with
        | .error f => .error (.fault f)
        | .ok tree? => .ok ⟨tree?.map (Pass.applyAll p.passes), s.transitions, s.forks⟩

/-- Parses characters. -/
def parseChars (cs : List Char) : Except ParseError ParseResult :=
  p.run (.ofList cs) cs.length fun _ => none

/-- Parses a text. -/
def parse (text : String) : Except ParseError ParseResult := p.parseChars text.toList

/-- Parses what comes from a source of bytes. -/
def parseFeed (feed : Source.Feed) : Except ParseError ParseResult :=
  p.run (.new Source.Reader.next (.ofFeed feed)) feed.byteCount (·.error)

end Parser

end Ramify
