import Ramify.Error
import Ramify.Flat.Rule
import Ramify.Lookahead

/-!
# FIRST-sets

The FIRST-set of a rule holds the characters that a text derived by it can
begin with. The symbols of the rule are walked from the left: a terminal or a
character class contributes and ends the walk, a name contributes its own
FIRST-set and ends the walk unless it is nullable, and the end of input
contributes nothing and is passed over. The FIRST-set of a name is the union
over its rules.

The sets are found by a depth-first walk (`visit`) that remembers the names
it is done with. Meeting a name on the way that is still being worked on
means that the name reaches itself before consuming input: the grammar is left
recursive there. A walk never holds more names at once than the grammar has,
which bounds its depth.
-/

namespace Ramify.Flat

/-- The FIRST-sets of a name. -/
structure Firsts where
  /-- The FIRST-set of each rule, in the order of the rules. -/
  perRule : List LookaheadSet
  /-- The union of them. -/
  whole : LookaheadSet

/-- The names a walk is done with, and their FIRST-sets. -/
abbrev Memo := List (String × Firsts)

namespace Memo

/-- The FIRST-sets of a name, if the walk is done with it. -/
def find? (memo : Memo) (name : String) : Option Firsts := memo.lookup name

/-- The FIRST-set of a name, empty if the walk is not done with it. -/
def whole (memo : Memo) (name : String) : LookaheadSet :=
  match memo.find? name with
  | some f => f.whole
  | none => .empty

end Memo

section Walk

variable (nullable : String → Bool) (visit : String → Memo → Except GrammarError Memo)

/-- Adds to `acc` what the symbols of a rule contribute from the left; names
    are visited before their set is used. -/
def walkRule : List Symbol → LookaheadSet → Memo → Except GrammarError (LookaheadSet × Memo)
  | [], acc, memo => .ok (acc, memo)
  | .terminal t :: _, acc, memo => .ok (acc + .ofTerminal t, memo)
  | .charClass k :: _, acc, memo => .ok (acc + .ofClass k, memo)
  | .endOfInput :: rest, acc, memo => walkRule rest acc memo
  | .nonTerminal n :: rest, acc, memo =>
    match visit n memo with
    | .error e => .error e
    | .ok memo =>
      let acc := acc + memo.whole n
      if nullable n then walkRule rest acc memo else .ok (acc, memo)

/-- The FIRST-sets of several rules. -/
def walkRules : List Rule → Memo → Except GrammarError (List LookaheadSet × Memo)
  | [], memo => .ok ([], memo)
  | r :: rs, memo =>
    match walkRule nullable visit r.symbols .empty memo with
    | .error e => .error e
    | .ok (first, memo) =>
      match walkRules rs memo with
      | .error e => .error e
      | .ok (firsts, memo) => .ok (first :: firsts, memo)

end Walk

/-- Finds the FIRST-sets of a name and of all names it needs for that. `path`
    are the names being worked on. The first argument bounds the length of the
    path: with no more room, all names of the grammar are on it. -/
def visit (entries : List Entry) (nullable : String → Bool) :
    Nat → List String → String → Memo → Except GrammarError Memo
  | 0, _, name, _ => .error (.leftRecursion name)
  | room + 1, path, name, memo =>
    if path.contains name then .error (.leftRecursion name)
    else if (memo.find? name).isSome then .ok memo
    else
      match entries.find? (·.name == name) with
      | none => .error (.missingRule name)
      | some entry =>
        match walkRules nullable (visit entries nullable room (name :: path)) entry.rules memo with
        | .error e => .error e
        | .ok (perRule, memo) => .ok ((name, ⟨perRule, .sum perRule⟩) :: memo)

/-- Visits several names in order. -/
def visitAll (entries : List Entry) (nullable : String → Bool) :
    List String → Memo → Except GrammarError Memo
  | [], memo => .ok memo
  | n :: ns, memo =>
    match visit entries nullable (entries.length + 1) [] n memo with
    | .error e => .error e
    | .ok memo => visitAll entries nullable ns memo

/-- The FIRST-sets of all names of a grammar. -/
def firstSets (entries : List Entry) (nullable : String → Bool) : Except GrammarError Memo :=
  visitAll entries nullable (entries.map (·.name)) []

end Ramify.Flat
