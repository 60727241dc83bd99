import Ramify.Parse.Attempt

/-!
# The parsing machine

One step of an attempt deals with the next symbol of the rule at its marker.

* A complete branch is left: the marker moves up. Leaving the root completes
  the parse.
* The end of input, a character class and a terminal are compared with the
  input, and become a leaf. A terminal is read to the first character that
  does not fit.
* A name is expanded: a branch is opened for each rule that fits the
  lookahead, and the marker moves there. With more than one such rule the
  attempt is forked. The empty rule is left out where the lookahead cannot
  follow the name.

An attempt that does not get on gives its handles up.
-/

namespace Ramify.Parse

/-- What the machine knows of the grammar. -/
structure Machine where
  /-- The grammar. -/
  grammar : Flat.Grammar
  /-- What can follow its names. -/
  follow : Flat.FollowSets

/-- What comes next at a branch with a number of children. -/
inductive Agenda where
  /-- A symbol of the rule. -/
  | symbol (s : Symbol)
  /-- Nothing: the branch is complete. -/
  | complete
  /-- The branch has too many children. -/
  | overflow

/-- What comes next at a branch. -/
def Site.agenda (site : Site) (children : Nat) : Agenda :=
  match site.rule.symbols[children]? with
  | some s => .symbol s
  | none => if children = site.rule.length then .complete else .overflow

/-- The rules a name is expanded with at a lookahead. -/
def Machine.candidates (m : Machine) (name : String) (c : Lookahead) : List Flat.Rule :=
  let rules := m.grammar.candidates name c
  if m.follow.admits name c then rules else rules.filter (!·.isEpsilon)

section

variable {σ : Type}

namespace Shared

/-- Gives up the handles of an attempt. -/
def discard (a : Attempt) (s : Shared σ) : Shared σ :=
  { s with grove := s.grove.drop a.tree, tape := s.tape.drop a.cursor }

/-- Reads the next character of the input. -/
def readNext (a : Attempt) (s : Shared σ) : Except Fault Lookahead × Shared σ :=
  match s.tape.roster.use a.cursor with
  | .error e => (.error (.fork e), s)
  | .ok _ =>
    let ⟨grove, tape, transitions, forks⟩ := s
    let (c, tape) := tape.advance a.cursor
    (.ok c, ⟨grove, tape, transitions, forks⟩)

/-- Compares characters with the input, from the lookahead on, and gives the
    lookahead behind them, or nothing at the first one that does not fit. -/
def readText (a : Attempt) :
    List Char → Lookahead → Shared σ → Except Fault (Option Lookahead) × Shared σ
  | [], c, s => (.ok (some c), s)
  | expected :: rest, c, s =>
    if c = some expected then
      match s.readNext a with
      | (.error e, s) => (.error e, s)
      | (.ok c, s) => readText a rest c s
    else (.ok none, s)

/-- Adds a leaf below a branch. -/
def addLeaf (a : Attempt) (node : Nat) (token : Token) (s : Shared σ) : Shared σ :=
  { s with grove := s.grove.attach a.tree node (.leaf token) }

/-- Opens a branch below a branch and moves the marker there. -/
def descend (a : Attempt) (node : Nat) (site : Site) (s : Shared σ) : Shared σ :=
  let child := s.grove.nodes.size
  { s with grove := (s.grove.attach a.tree node (.branch site)).mark a.tree child }

/-- Moves the marker. -/
def moveTo (a : Attempt) (node : Nat) (s : Shared σ) : Shared σ :=
  { s with grove := s.grove.mark a.tree node }

/-- Opens a branch for each fork of an attempt. -/
def descendAll (node : Nat) (name : String) (c : Lookahead) :
    List (Nat × Nat × Flat.Rule) → Shared σ → List State × Shared σ
  | [], s => ([], s)
  | (tree, cursor, rule) :: rest, s =>
    let a : Attempt := ⟨tree, cursor, c⟩
    let (states, s) := descendAll node name c rest (s.descend a node ⟨name, rule⟩)
    (.running a :: states, s)

/-- Forks an attempt, one fork for each rule. -/
def forkOver (a : Attempt) (node : Nat) (name : String) (rules : List Flat.Rule) (s : Shared σ) :
    Except Fault (List State) × Shared σ :=
  match s.tape.roster.use a.cursor with
  | .error e => (.error (.fork e), s)
  | .ok _ =>
    let ⟨grove, tape, transitions, forks⟩ := s
    let (trees, grove) := grove.split a.tree rules.length
    let (cursors, tape) := tape.split a.cursor rules.length
    let (states, s) := descendAll node name a.lookahead (trees.zip (cursors.zip rules))
      ⟨grove, tape, transitions, forks + 1⟩
    (.ok states, s.discard a)

/-- An attempt that came to nothing. -/
def fail (a : Attempt) (s : Shared σ) : Except Fault (List State) × Shared σ :=
  (.ok [.failed], s.discard a)

end Shared

namespace Machine

variable (m : Machine)

/-- Expands a name at a branch. -/
def expand (a : Attempt) (node : Nat) (name : String) (s : Shared σ) :
    Except Fault (List State) × Shared σ :=
  match m.candidates name a.lookahead with
  | [] => s.fail a
  | [rule] => (.ok [.running a], s.descend a node ⟨name, rule⟩)
  | rules => s.forkOver a node name rules

/-- Deals with a symbol at a branch. -/
def consume (a : Attempt) (node : Nat) (symbol : Symbol) (s : Shared σ) :
    Except Fault (List State) × Shared σ :=
  match symbol with
  | .endOfInput =>
    if a.lookahead.isSome then s.fail a
    else (.ok [.running a], s.addLeaf a node ⟨symbol, ""⟩)
  | .charClass k =>
    match a.lookahead with
    | none => s.fail a
    | some c =>
      if k.admits (some c) then
        match (s.addLeaf a node ⟨symbol, String.singleton c⟩).readNext a with
        | (.error e, s) => (.error e, s)
        | (.ok next, s) => (.ok [.running { a with lookahead := next }], s)
      else s.fail a
  | .terminal t =>
    match s.readText a t.chars a.lookahead with
    | (.error e, s) => (.error e, s)
    | (.ok none, s) => s.fail a
    | (.ok (some next), s) =>
      (.ok [.running { a with lookahead := next }], s.addLeaf a node ⟨symbol, ""⟩)
  | .nonTerminal name => m.expand a node name s

/-- One step of an attempt. -/
def step (a : Attempt) (s : Shared σ) : Except Fault (List State) × Shared σ :=
  let s := { s with transitions := s.transitions + 1 }
  match s.grove.marker a.tree with
  | .error e => (.error (.fork e), s)
  | .ok node =>
    match s.site? node with
    | none => (.error .markerOnLeaf, s)
    | some site =>
      let children := s.grove.visibleCount a.tree node
      match site.agenda children with
      | .overflow => (.error (.childOverflow children site.rule.length), s)
      | .complete =>
        -- In every state of a parse the branch above still lives, so the link is what
        -- `Grove.parent` gives (`Attempt.Intact.parent_eq`).
        match s.grove.link? node with
        | some above => (.ok [.running a], s.moveTo a above)
        | none => (.ok [.accepted a], s)
      | .symbol symbol => m.consume a node symbol s

/-- One step of a state. Finished states stay as they are. -/
def next (state : State) (s : Shared σ) : Except Fault (List State) × Shared σ :=
  match state with
  | .running a => m.step a s
  | done => (.ok [done], s)

/-- The machine as an automaton. -/
def automaton : Search.Automaton State (Shared σ) Fault := ⟨State.kind, m.next⟩

end Machine

end

end Ramify.Parse
