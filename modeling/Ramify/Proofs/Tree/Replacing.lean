import Ramify.Tree.Tagging

/-!
# Replacing by recursion

A walk keeps the open branches on a stack, with the children that are still to be looked
at and what the others were replaced by. Yet it does what one would do by recursion: what
takes the place of a branch is made of what takes the place of its children, one behind
the other.

* `Tagging.fromRoot` and `Tagging.fromLeaves` are the recursions for the two directions;
* `Tagging.Follows`: a function that obeys the rules of a walk, whatever is cut on the way
  down and however a branch is closed on the way up;
* `Tagging.Follows.walk_enter`, `Tagging.Follows.walk_leave`: a walk comes out of a tree
  with what such a function makes of it, and out of an open branch with what it makes of
  the children that are left;
* `Tagging.apply_eq_replaced`: so a tree is changed as the recursion says.
-/

namespace Ramify.Tagging

/-! ### The recursions -/

mutual

/-- What takes the place of a tree, where a tagged node is replaced as it stands. -/
def fromRoot (t : Tagging) : Tree → List Tree
  | .leaf l => if t.tags (.leaf l) then t.replace (.leaf l) else [.leaf l]
  | .branch n rule ts =>
    if t.tags (.branch n rule ts) then t.replace (.branch n rule ts)
    else [.branch n rule (fromRootAll t ts)]

/-- What takes the place of several trees. -/
def fromRootAll (t : Tagging) : List Tree → List Tree
  | [] => []
  | u :: us => fromRoot t u ++ fromRootAll t us

end

mutual

/-- What takes the place of a tree, where a node is looked at after its children. -/
def fromLeaves (t : Tagging) : Tree → List Tree
  | .leaf l => if t.tags (.leaf l) then t.replace (.leaf l) else [.leaf l]
  | .branch n rule ts =>
    if t.tags (.branch n rule (fromLeavesAll t ts)) then
      t.replace (.branch n rule (fromLeavesAll t ts))
    else [.branch n rule (fromLeavesAll t ts)]

/-- What takes the place of several trees. -/
def fromLeavesAll (t : Tagging) : List Tree → List Tree
  | [] => []
  | u :: us => fromLeaves t u ++ fromLeavesAll t us

end

/-- What takes the place of a tree. -/
def replaced (t : Tagging) (root : Tree) : List Tree :=
  match t.direction with
  | .rootFirst => t.fromRoot root
  | .rootLast => t.fromLeaves root

variable {t : Tagging} {cut : Tree → Option (List Tree)} {close : Tree → List Tree}
  {f : Tree → List Tree}

theorem fromRootAll_eq (us : List Tree) : t.fromRootAll us = us.flatMap t.fromRoot := by
  induction us with
  | nil => rfl
  | cons u us ih => rw [fromRootAll, ih, List.flatMap_cons]

theorem fromLeavesAll_eq (us : List Tree) : t.fromLeavesAll us = us.flatMap t.fromLeaves := by
  induction us with
  | nil => rfl
  | cons u us ih => rw [fromLeavesAll, ih, List.flatMap_cons]

/-! ### Walking -/

/-- A function obeys the rules of a walk: what is cut is replaced as it stands, and all
    else is closed when its children have been replaced. -/
structure Follows (cut : Tree → Option (List Tree)) (close : Tree → List Tree)
    (f : Tree → List Tree) : Prop where
  leaf : ∀ l, f (.leaf l) = (cut (.leaf l)).getD (close (.leaf l))
  branch : ∀ n rule ts, f (.branch n rule ts) =
    (cut (.branch n rule ts)).getD (close (.branch n rule (ts.flatMap f)))

namespace Follows

-- The two go down the tree together: the way through a branch is the way through its
-- first child and then through those that are left.
mutual

/-- A walk through a tree goes on with what takes the place of the tree. -/
theorem walk_enter (h : Follows cut close f) (u : Tree) (frames : List Frame) :
    walk cut close (.enter u) frames = walk cut close (.leave (f u)) frames := by
  cases u with
  | leaf l =>
    rw [walk, h.leaf]
    cases cut (.leaf l) <;> rfl
  | branch n rule us =>
    rw [h.branch]
    cases us with
    | nil =>
      rw [walk]
      cases cut (.branch n rule []) <;> rfl
    | cons u us =>
      rw [walk]
      cases cut (.branch n rule (u :: us)) with
      | some ts => rfl
      | none =>
        dsimp only
        rw [walk_enter h u, walk_leave h n rule us]
        simp

/-- A walk through the children that are left in a branch goes on with the branch closed
    over what takes the place of its children. -/
theorem walk_leave (h : Follows cut close f) (n : String) (rule : Flat.Rule) (us : List Tree)
    (ts done : List Tree) (frames : List Frame) :
    walk cut close (.leave ts) (⟨n, rule, us, done⟩ :: frames) =
      walk cut close
        (.leave (close (.branch n rule (done.reverse ++ ts ++ us.flatMap f)))) frames := by
  cases us with
  | nil =>
    rw [walk]
    simp
  | cons u us =>
    rw [walk, walk_enter h u, walk_leave h n rule us]
    simp

end

end Follows

theorem follows_fromRoot (t : Tagging) :
    Follows (fun n => if t.tags n then some (t.replace n) else none) (fun n => [n]) t.fromRoot where
  leaf l := by
    rw [fromRoot]
    split <;> rfl
  branch n rule ts := by
    rw [fromRoot, fromRootAll_eq]
    split <;> rfl

theorem follows_fromLeaves (t : Tagging) : Follows (fun _ => none) t.finish t.fromLeaves where
  leaf l := by
    rw [fromLeaves]
    rfl
  branch n rule ts := by
    rw [fromLeaves, fromLeavesAll_eq]
    rfl

/-- A walk replaces the root as the recursion does. -/
theorem roots_eq (t : Tagging) (root : Tree) : t.roots root = t.replaced root := by
  rw [roots, replaced]
  cases t.direction with
  | rootFirst =>
    dsimp only
    rw [t.follows_fromRoot.walk_enter, walk]
  | rootLast =>
    dsimp only
    rw [t.follows_fromLeaves.walk_enter, walk]

/-- Replacing the tagged nodes of a tree gives the first of the nodes that take the place
    of the root by recursion, or a placeholder if there are none. -/
theorem apply_eq_replaced (t : Tagging) (root : Tree) :
    t.apply root = (t.replaced root).head?.getD (.leaf .empty) := by
  rw [apply, roots_eq]

/-- Removes the branches of one name, and puts the children of those of another twice in
    their place. -/
def doubling (direction : Direction) : Tagging where
  tags := tagsNames ["A", "B"]
  replace
    | .branch "A" _ ts => ts ++ ts
    | _ => []
  direction := direction

/-- A branch to be doubled, with one to be removed below it and one behind it. -/
def stacked : Tree :=
  .branch "S" .epsilon [.branch "A" .epsilon [.branch "B" .epsilon [.leaf .empty],
    .leaf .endOfInput], .branch "B" .epsilon []]

theorem apply_eq_replaced_stacked :
    (doubling .rootFirst).apply stacked = .branch "S" .epsilon [.branch "B" .epsilon
      [.leaf .empty], .leaf .endOfInput, .branch "B" .epsilon [.leaf .empty],
      .leaf .endOfInput] ∧
    (doubling .rootLast).apply stacked =
      .branch "S" .epsilon [.leaf .endOfInput, .leaf .endOfInput] ∧
    (doubling .rootLast).apply (.branch "B" .epsilon [stacked]) = .leaf .empty :=
  ⟨apply_eq_replaced _ _, apply_eq_replaced _ _, apply_eq_replaced _ _⟩

end Ramify.Tagging
