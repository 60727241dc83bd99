import Ramify.Tree.Basic

/-!
# Replacing tagged nodes

Most changes to a tree follow one pattern: some nodes are *tagged*, and each
of them is replaced by a list of nodes that takes its place among its
siblings. Going from the root, a tagged node is replaced as a whole and what
was below it is not looked at (`Direction.rootFirst`); going from the leaves, a
node is looked at after its children have been replaced
(`Direction.rootLast`). When the root is replaced, the first of the new nodes
is the new root, and a placeholder if there is none.

Both directions are one walk (`Tagging.walk`) over a stack of open branches.
-/

namespace Ramify

/-- The order in which tagged nodes are replaced. -/
inductive Direction where
  /-- A tagged node is replaced as it stands. -/
  | rootFirst
  /-- A node is looked at after its children. -/
  | rootLast
  deriving DecidableEq

/-- The name of a direction. -/
def Direction.describe : Direction → String
  | rootFirst => "RootFirst"
  | rootLast => "RootLast"

/-- Which nodes to replace, by what, and in which order. -/
structure Tagging where
  /-- Whether a node is tagged. -/
  tags : Tree → Bool
  /-- What takes the place of a tagged node. -/
  replace : Tree → List Tree
  /-- The order. -/
  direction : Direction

namespace Tagging

/-- A branch whose children are being replaced. -/
structure Frame where
  /-- Its name. -/
  name : String
  /-- Its rule. -/
  rule : Flat.Rule
  /-- The children still to be looked at. -/
  pending : List Tree
  /-- What the other children were replaced by, backwards. -/
  done : List Tree

/-- Where a walk is. -/
inductive Focus where
  /-- At a node to be looked at. -/
  | enter (t : Tree)
  /-- Behind a node, with what it was replaced by. -/
  | leave (ts : List Tree)

/-- The work left in the open branches. -/
def openWeight : List Frame → Nat
  | [] => 0
  | f :: fs => 2 * Tree.sizes f.pending + 1 + openWeight fs

/-- The work left to a walk. -/
def weight : Focus → List Frame → Nat
  | .enter t, frames => 2 * t.size + openWeight frames
  | .leave _, frames => openWeight frames + 1

/-- Walks a tree. On the way down, `cut` may replace a node as it stands; on
    the way up, `close` replaces a leaf or a branch with its new children. -/
def walk (cut : Tree → Option (List Tree)) (close : Tree → List Tree) (focus : Focus)
    (frames : List Frame) : List Tree :=
  match focus, frames with
  | .enter t, frames =>
    match cut t with
    | some ts => walk cut close (.leave ts) frames
    | none =>
      match t with
      | .leaf l => walk cut close (.leave (close (.leaf l))) frames
      | .branch n r [] => walk cut close (.leave (close (.branch n r []))) frames
      | .branch n r (c :: cs) => walk cut close (.enter c) (⟨n, r, cs, []⟩ :: frames)
  | .leave ts, [] => ts
  | .leave ts, ⟨n, r, c :: cs, done⟩ :: frames =>
    walk cut close (.enter c) (⟨n, r, cs, ts.reverse ++ done⟩ :: frames)
  | .leave ts, ⟨n, r, [], done⟩ :: frames =>
    walk cut close (.leave (close (.branch n r (ts.reverse ++ done).reverse))) frames
termination_by weight focus frames
decreasing_by
  all_goals simp only [weight, openWeight, Tree.size, Tree.sizes]
  · have := t.size_pos; omega
  all_goals omega

/-- What takes the place of a node that may be tagged. -/
def finish (t : Tagging) (node : Tree) : List Tree :=
  if t.tags node then t.replace node else [node]

/-- What the root is replaced by. -/
def roots (t : Tagging) (root : Tree) : List Tree :=
  match t.direction with
  | .rootFirst =>
    walk (fun n => if t.tags n then some (t.replace n) else none) (fun n => [n]) (.enter root) []
  | .rootLast => walk (fun _ => none) t.finish (.enter root) []

/-- The tree with all tagged nodes replaced. -/
def apply (t : Tagging) (root : Tree) : Tree := (t.roots root).head?.getD (.leaf .empty)

/-- Tags the branches of some names. -/
def tagsNames (names : List String) : Tree → Bool
  | .branch n _ _ => names.contains n
  | .leaf _ => false

/-- Tags the branches with one of some rules. -/
def tagsRules (rules : List Flat.Rule) : Tree → Bool
  | .branch _ r _ => rules.contains r
  | .leaf _ => false

/-- A tagging with its direction. -/
def describe (t : Tagging) : String :=
  "TaggedSet \x7b direction: " ++ t.direction.describe ++ ", .. \x7d"

end Tagging

/-! ### Replacements -/

namespace Tree

/-- A branch gives way to its children. -/
def splice : Tree → List Tree
  | branch _ _ ts => ts
  | t => [t]

/-- The children of a branch change places. -/
def reverseChildren : Tree → Tree
  | branch n r ts => branch n r ts.reverse
  | t => t

/-- A branch around a tree. -/
def wrap (name : String) (t : Tree) : Tree := branch name .epsilon [t]

/-- A leaf with the text of a tree. -/
def collapse (name : String) (t : Tree) : Tree := leaf (.compound name t.text)

end Tree

end Ramify
