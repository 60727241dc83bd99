import Ramify.Proofs.Tree.Text

/-!
# What a tree costs

The cost of a tree is what it takes to build it one step at a time: a leaf is added
in one step, a branch is opened and closed again, and so is the one that a
placeholder stands for. Where a name consumes nothing, all that is below it can be
left out (`Tree.curtail`).
-/

namespace Ramify.Tree

mutual

/-- The cost of a tree. -/
def cost : Tree → Nat
  | leaf .empty => 2
  | leaf _ => 1
  | branch _ _ ts => 2 + costs ts

/-- The cost of several trees. -/
def costs : List Tree → Nat
  | [] => 0
  | t :: ts => cost t + costs ts

end

mutual

/-- A tree with a placeholder for every topmost branch without text. -/
def curtail : Tree → Tree
  | leaf l => leaf l
  | branch n rule ts =>
    if (branch n rule ts).text = "" then leaf .empty else branch n rule (curtailAll ts)

/-- Several trees with placeholders for branches without text. -/
def curtailAll : List Tree → List Tree
  | [] => []
  | t :: ts => curtail t :: curtailAll ts

end

end Ramify.Tree
