import Ramify.Tree.Tagging

/-!
# Passes

The changes made to a tree after it was parsed.

* `removeEmpties` takes out leaves without text and branches left without
  children.
* `stringify` collapses the branches of some names into their text.
* `unfold` puts the children of the branches of some names in the place of the
  branch. A chain of such branches is unfolded in one go: the children of an
  unfolded branch go straight to the nearest branch that is kept.
* `tagged` replaces tagged nodes.
-/

namespace Ramify

/-- Takes out leaves without text and branches without children. -/
def removeEmpties : Tagging where
  tags
    | .branch _ _ ts => ts.isEmpty
    | .leaf l => l.isEmpty
  replace _ := []
  direction := .rootLast

/-- Collapses the branches of some names into their text. -/
def stringify (names : List String) : Tagging where
  tags := Tagging.tagsNames names
  replace
    | .branch n r ts => [(Tree.branch n r ts).collapse n]
    | .leaf l => [.leaf l]
  direction := .rootFirst

namespace Unfold

/-- A branch whose children are being looked at. -/
structure Frame where
  /-- Its name and its rule, if it is kept. -/
  kept : Option (String × Flat.Rule)
  /-- The children still to be looked at. -/
  pending : List Tree

/-- The work left in the open branches. -/
def openWeight : List Frame → Nat
  | [] => 0
  | f :: fs => 2 * Tree.sizes f.pending + 1 + openWeight fs

/-- Looks at what is pending in the open branches. The `output` holds the new
    children of the innermost branch that is kept, or the new roots if there is
    none, and `outputs` those of the kept branches around it and the new roots
    at the end; all of them are listed backwards. Only a kept branch has an
    output of its own, which it takes away when it is closed. -/
def gather (unfolds : String → Bool) (frames : List Frame) (output : List Tree)
    (outputs : List (List Tree)) : List Tree :=
  match frames with
  | [] => output.reverse
  | ⟨kept, .leaf l :: rest⟩ :: frames =>
    gather unfolds (⟨kept, rest⟩ :: frames) (.leaf l :: output) outputs
  | ⟨kept, .branch n r ts :: rest⟩ :: frames =>
    if unfolds n then gather unfolds (⟨none, ts⟩ :: ⟨kept, rest⟩ :: frames) output outputs
    else gather unfolds (⟨some (n, r), ts⟩ :: ⟨kept, rest⟩ :: frames) [] (output :: outputs)
  | ⟨none, []⟩ :: frames => gather unfolds frames output outputs
  | ⟨some (n, r), []⟩ :: frames =>
    gather unfolds frames (.branch n r output.reverse :: outputs.headD []) outputs.tail
termination_by openWeight frames
decreasing_by
  all_goals simp only [openWeight, Tree.size, Tree.sizes]
  all_goals omega

/-- The tree with the branches of some names unfolded. The first node that
    takes the place of the root is the new root. -/
def apply (names : List String) (root : Tree) : Tree :=
  (gather names.contains [⟨none, [root]⟩] [] []).head?.getD (.leaf .empty)

end Unfold

/-- A change to a tree. -/
inductive Pass where
  /-- Takes out leaves without text and branches left without children. -/
  | removeEmpties
  /-- Collapses the branches of some names. -/
  | stringify (names : List String)
  /-- Unfolds the branches of some names. -/
  | unfold (names : List String)
  /-- Replaces tagged nodes. -/
  | tagged (t : Tagging)

/-- Applies a pass. -/
def Pass.apply : Pass → Tree → Tree
  | removeEmpties, t => Ramify.removeEmpties.apply t
  | stringify names, t => (Ramify.stringify names).apply t
  | unfold names, t => Unfold.apply names t
  | tagged tagging, t => tagging.apply t

/-- Applies passes in order. -/
def Pass.applyAll (passes : List Pass) (t : Tree) : Tree := passes.foldl (fun t p => p.apply t) t

end Ramify
