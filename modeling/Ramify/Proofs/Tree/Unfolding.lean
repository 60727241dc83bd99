import Mathlib.Data.List.Basic
import Ramify.Proofs.Tree.Replacing
import Ramify.Proofs.Tree.Text
import Ramify.Tree.Pass

/-!
# Unfolding

Unfolding puts what takes the place of the children of a branch in the place of the
branch (`unfolded`). It is done in one go, with a stack of the open branches and another
one of what was gathered for those of them that are kept (`gather_eq`).

What takes the place of a tree has the same text as the tree. Yet only the first of
these trees becomes the new root, so the text is kept for sure if the root is
(`text_apply_of_root`), and otherwise it may be cut short (`exists_text_apply`).

The same is done by tagging the branches and replacing each by its children, from the
leaves to the root (`Pass.unfold_eq_splicing`).
-/

namespace Ramify.Unfold

mutual

/-- What takes the place of a tree. -/
def unfolded (unfolds : String → Bool) : Tree → List Tree
  | .leaf l => [.leaf l]
  | .branch n rule ts =>
    if unfolds n then unfoldedAll unfolds ts else [.branch n rule (unfoldedAll unfolds ts)]

/-- What takes the place of several trees. -/
def unfoldedAll (unfolds : String → Bool) : List Tree → List Tree
  | [] => []
  | t :: ts => unfolded unfolds t ++ unfoldedAll unfolds ts

end

variable {unfolds : String → Bool} {names : List String} {n : String} {rule : Flat.Rule} {t : Tree}
  {ts pending output : List Tree} {outputs : List (List Tree)} {frames : List Frame}

theorem unfoldedAll_eq (ts : List Tree) :
    unfoldedAll unfolds ts = ts.flatMap (unfolded unfolds) := by
  induction ts with
  | nil => rfl
  | cons t ts ih => rw [unfoldedAll, ih, List.flatMap_cons]

@[simp] theorem unfolded_leaf (l : Leaf) : unfolded unfolds (.leaf l) = [.leaf l] := by
  rw [unfolded]

@[simp] theorem unfolded_branch : unfolded unfolds (.branch n rule ts) =
    if unfolds n then ts.flatMap (unfolded unfolds)
    else [.branch n rule (ts.flatMap (unfolded unfolds))] := by
  rw [unfolded, unfoldedAll_eq]

/-- What the open branches come to, once `ts` was gathered for the innermost of those
    that are kept: all that is pending is unfolded, and a branch that is kept takes its
    place behind what was gathered for the one around it. -/
def close (unfolds : String → Bool) : List Frame → List Tree → List (List Tree) → List Tree
  | [], ts, _ => ts
  | ⟨none, pending⟩ :: frames, ts, outputs =>
    close unfolds frames (ts ++ pending.flatMap (unfolded unfolds)) outputs
  | ⟨some (n, rule), pending⟩ :: frames, ts, outputs =>
    close unfolds frames
      ((outputs.headD []).reverse ++ [.branch n rule (ts ++ pending.flatMap (unfolded unfolds))])
      outputs.tail

/-- What takes the place of a node goes to the branch it is in, or past it if that one is
    unfolded as well. -/
theorem close_cons (kept : Option (String × Flat.Rule)) :
    close unfolds (⟨kept, t :: pending⟩ :: frames) ts outputs =
      close unfolds (⟨kept, pending⟩ :: frames) (ts ++ unfolded unfolds t) outputs := by
  cases kept <;> simp [close]

/-- Gathering unfolds all that is pending in the open branches. What they come to stays
    the same at every step: an output is added and taken away with a branch that is kept,
    while branches that are unfolded come and go in between. -/
theorem gather_eq : gather unfolds frames output outputs =
    close unfolds frames output.reverse outputs := by
  fun_induction gather unfolds frames output outputs with
  | case1 output outputs => rfl
  | case2 output outputs kept l rest frames ih => simp [ih, close_cons]
  | case3 output outputs kept n rule ts rest frames hn ih => simp [ih, close_cons, close, hn]
  | case4 output outputs kept n rule ts rest frames hn ih => simp [ih, close_cons, close, hn]
  | case5 output outputs frames ih => simp [ih, close]
  | case6 output outputs n rule frames ih =>
    simp only [List.unattach_reverse, List.unattach_attach] at ih
    rw [ih]
    simp [close]

/-- The first tree that takes the place of the root is the new root. -/
theorem apply_eq (root : Tree) :
    apply names root = (unfolded names.contains root).head?.getD (.leaf .empty) := by
  rw [apply, gather_eq, close_cons]
  simp [close]

/-! ### Text -/

theorem join_text_singleton (t : Tree) : String.join ([t].map Tree.text) = t.text := by
  rw [List.map_singleton, String.join_cons, String.join_nil, String.append_empty]

/-- What takes the place of trees has their text if this is so for each of them. -/
theorem join_text_flatMap {f : Tree → List Tree}
    (h : ∀ t ∈ ts, String.join ((f t).map Tree.text) = t.text) :
    String.join ((ts.flatMap f).map Tree.text) = String.join (ts.map Tree.text) := by
  induction ts with
  | nil => rfl
  | cons t ts ih =>
    obtain ⟨ht, hts⟩ := List.forall_mem_cons.1 h
    rw [List.flatMap_cons, List.map_append, String.join_append, ht, ih hts, List.map_cons,
      String.join_cons]

/-- What takes the place of a tree has its text. -/
theorem join_text_unfolded (unfolds : String → Bool) (t : Tree) :
    String.join ((unfolded unfolds t).map Tree.text) = t.text := by
  induction t with
  | leaf l => rw [unfolded_leaf, join_text_singleton]
  | branch n rule ts ih =>
    rw [unfolded_branch, Tree.text_branch, ← join_text_flatMap ih]
    split
    · rfl
    · rw [join_text_singleton, Tree.text_branch]

/-- A tree whose root is kept stays a single tree. -/
theorem unfolded_of_root (h : ∀ n rule ts, t = .branch n rule ts → n ∉ names) :
    unfolded names.contains t = [apply names t] := by
  rw [apply_eq]
  cases t with
  | leaf l => simp
  | branch n rule ts => simp [h n rule ts rfl]

/-- No text is lost if the root is kept. -/
theorem text_apply_of_root (h : ∀ n rule ts, t = .branch n rule ts → n ∉ names) :
    (apply names t).text = t.text := by
  have htext := join_text_unfolded names.contains t
  rwa [unfolded_of_root h, join_text_singleton] at htext

/-- What is left of the text is a beginning of it. -/
theorem exists_text_apply (names : List String) (t : Tree) :
    ∃ lost, t.text = (apply names t).text ++ lost := by
  have htext := join_text_unfolded names.contains t
  rw [apply_eq]
  cases h : unfolded names.contains t with
  | nil => exact ⟨t.text, by rw [List.head?_nil, Option.getD_none, Tree.text_leaf, Leaf.text,
      String.empty_append]⟩
  | cons u us =>
    rw [h, List.map_cons, String.join_cons] at htext
    exact ⟨_, htext.symm⟩

end Ramify.Unfold

/-! ### Unfolding by replacing -/

namespace Ramify

/-- Puts the children of the branches of some names in the place of the branches, from the
    leaves to the root. -/
def splicing (names : List String) : Tagging :=
  ⟨Tagging.tagsNames names, Tree.splice, .rootLast⟩

namespace Pass

/-- By the time a tagged branch is replaced, its children are what has taken the place of
    the children it had. -/
theorem fromLeaves_splicing (names : List String) (t : Tree) :
    (splicing names).fromLeaves t = Unfold.unfolded names.contains t := by
  induction t with
  | leaf l => rfl
  | branch n rule ts ih =>
    rw [Tagging.fromLeaves, Tagging.fromLeavesAll_eq, List.flatMap_congr ih, Unfold.unfolded_branch]
    rfl

theorem roots_splicing (names : List String) (t : Tree) :
    (splicing names).roots t = Unfold.unfolded names.contains t :=
  ((splicing names).roots_eq t).trans (fromLeaves_splicing names t)

/-- Unfolding the branches of some names is the same as replacing each of them by its
    children. If the root is one of them, the new root is the first of the nodes that take
    the place of its children, and a placeholder if there are none. -/
theorem unfold_eq_splicing (names : List String) (root : Tree) :
    (Pass.unfold names).apply root = (Pass.tagged (splicing names)).apply root ∧
      ∀ n rule ts, root = .branch n rule ts → n ∈ names →
        (Pass.unfold names).apply root =
          (ts.flatMap (splicing names).roots).head?.getD (.leaf .empty) := by
  have hunfold : (Pass.unfold names).apply root =
      (Unfold.unfolded names.contains root).head?.getD (.leaf .empty) := Unfold.apply_eq root
  refine ⟨?_, fun n rule ts hroot hn => ?_⟩
  · rw [hunfold, ← roots_splicing]
    rfl
  · rw [hunfold, hroot, Unfold.unfolded_branch, if_pos (List.contains_iff_mem.2 hn)]
    rw [List.flatMap_congr fun t _ => roots_splicing names t]

/-- A branch that is kept between branches that are not. -/
def sandwich : Tree :=
  .branch "A" .epsilon [.branch "A" .epsilon [], .branch "B" .epsilon
    [.branch "A" .epsilon [.leaf .endOfInput, .branch "A" .epsilon [.leaf .empty]]], .leaf .empty]

theorem unfold_eq_splicing_sandwich : "A" ∈ ["A"] ∧
    (Pass.unfold ["A"]).apply sandwich = (Pass.tagged (splicing ["A"])).apply sandwich ∧
    (Pass.unfold ["A"]).apply sandwich =
      (sandwich.children.flatMap (splicing ["A"]).roots).head?.getD (.leaf .empty) ∧
    (Pass.unfold ["A"]).apply sandwich =
      .branch "B" .epsilon [.leaf .endOfInput, .leaf .empty] := by
  have hmem : "A" ∈ ["A"] := List.mem_singleton_self _
  obtain ⟨hequal, hroot⟩ := unfold_eq_splicing ["A"] sandwich
  exact ⟨hmem, hequal, hroot "A" .epsilon _ rfl hmem, Unfold.apply_eq sandwich⟩

end Pass

end Ramify
