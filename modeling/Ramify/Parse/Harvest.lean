import Ramify.Parse.Attempt
import Ramify.Tree.Basic

/-!
# From parse trees to syntax trees

The syntax tree of a completed attempt is what it sees below the root of its
parse tree. A branch without children, which stands for a name expanded to
nothing, becomes a placeholder; every other branch keeps its name and its rule.

Parse trees can be as deep as the input is long. So the conversion keeps the
branches it is in on a stack (`Conversion.run`): it goes down to the first child
of each branch it meets, and when a node has become a tree, it goes on with the
next sibling or, if there is none, closes the branch above.
-/

namespace Ramify.Parse

/-- The leaf of a token. A class needs the character it matched. -/
def Token.toLeaf (t : Token) : Except Fault Leaf :=
  match t.symbol with
  | .terminal l => .ok (.terminal l)
  | .charClass k =>
    match t.value.toList with
    | [] => .error .emptyClassLeaf
    | c :: _ => .ok (.char k c)
  | .endOfInput => .ok .endOfInput
  | .nonTerminal n => .ok (if t.value.isEmpty then .empty else .compound n t.value)

namespace Conversion

/-- A branch whose children are being converted. -/
structure Frame where
  /-- What it stands for. -/
  site : Site
  /-- The children still to be converted. -/
  pending : List Nat
  /-- The trees of the other children, backwards. -/
  done : List Tree

/-- Where a conversion is. -/
inductive Focus where
  /-- At a node to be converted. -/
  | enter (node : Nat)
  /-- Behind a node, with its tree. -/
  | leave (t : Tree)

/-- Goes on with a conversion of what a handle sees, for a number of turns. There
    is no result if that is not enough. -/
def run (g : Fork.Grove Site Token) (h : Nat) :
    Nat → Focus → List Frame → Option (Except Fault Tree)
  | 0, _, _ => none
  | turns + 1, .enter n, frames =>
    match g.label? n with
    | none => run g h turns (.leave (.leaf .empty)) frames
    | some (.leaf token) =>
      match token.toLeaf with
      | .error e => some (.error e)
      | .ok l => run g h turns (.leave (.leaf l)) frames
    | some (.branch site) =>
      match g.children h n with
      | .error e => some (.error (.fork e))
      | .ok [] => run g h turns (.leave (.leaf .empty)) frames
      | .ok (c :: cs) => run g h turns (.enter c) (⟨site, cs, []⟩ :: frames)
  | _ + 1, .leave t, [] => some (.ok t)
  | turns + 1, .leave t, ⟨site, c :: cs, done⟩ :: frames =>
    run g h turns (.enter c) (⟨site, cs, t :: done⟩ :: frames)
  | turns + 1, .leave t, ⟨site, [], done⟩ :: frames =>
    run g h turns (.leave (.branch site.name site.rule (t :: done).reverse)) frames

end Conversion

variable {σ : Type}

/-- The syntax tree an attempt sees at a node. Each node is entered and left at
    most once, so that two turns for every node there is are enough. -/
def convert (s : Shared σ) (a : Attempt) (node : Nat) : Except Fault Tree :=
  (Conversion.run s.grove a.tree (2 * s.grove.nodes.size) (.enter node) []).getD
    (.ok (.leaf .empty))

/-- The syntax tree of a completed attempt. -/
def harvest (s : Shared σ) (a : Attempt) : Except Fault Tree :=
  match s.grove.root a.tree with
  | .error e => .error (.fork e)
  | .ok root =>
    if s.grove.isBranch root then
      match s.grove.visible a.tree root with
      | [] => .ok (.leaf .empty)
      | first :: _ => convert s a first
    else .error .markerOnLeaf

end Ramify.Parse
