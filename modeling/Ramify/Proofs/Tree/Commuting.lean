import Ramify.Proofs.Tree.NormalForm

/-!
# The order of passes

Empty subtrees can be removed before or after another pass, as the text of a subtree, by
which it is told whether to keep it, is not changed by collapsing or unfolding what is in
it:

* a tagged branch without text is removed before it is collapsed, or its empty text is
  afterwards; any other one has the same text with and without its empty subtrees
  (`Tree.trimmed_collapsed`);
* what takes the place of an unfolded branch without text has no text either, and goes away
  one by one (`Unfold.trimmed_unfolded`).

Unless it is kept, the root makes a difference to unfolding: the first of the nodes in its
place may be an empty one, and removing that before lets another one be the root.
-/

namespace Ramify

namespace Tree

/-- Collapsing and trimming commute. -/
theorem trimmed_collapsed (names : List String) (t : Tree) :
    (t.collapsed names).trimmed = t.trimmed.collapsed names := by
  induction t with
  | leaf l => simp
  | branch n rule ts ih =>
    rw [collapsed_branch, trimmed_branch, collapsed_branch]
    split
    · -- Only the text of the branch counts, and trimming keeps it.
      rw [collapse, collapse, trimmed_leaf, ← trimmed_branch, text_trimmed]
    · have hkept : (ts.map (collapsed names)).filter (·.text ≠ "") =
          (ts.filter (·.text ≠ "")).map (collapsed names) := by
        rw [List.filter_map]
        exact congrArg _ (List.filter_congr fun t _ => by simp)
      rw [trimmed_branch, hkept, List.map_map, List.map_map]
      exact congrArg _ (List.map_congr_left fun t ht => ih t (List.mem_filter.1 ht).1)

end Tree

namespace Unfold

open Ramify.Tree (trimmed)

variable {unfolds : String → Bool} {names : List String} {t : Tree}

/-- What takes the place of a tree, trimmed, is what takes the place of the tree when it
    was trimmed before. -/
theorem trimmed_unfolded (unfolds : String → Bool) (t : Tree) :
    ((unfolded unfolds t).filter (·.text ≠ "")).map trimmed =
      if t.text = "" then [] else unfolded unfolds t.trimmed := by
  induction t with
  | leaf l => by_cases h : (Tree.leaf l).text = "" <;> simp [h]
  | branch n rule ts ih =>
    have hts : ((ts.flatMap (unfolded unfolds)).filter (·.text ≠ "")).map trimmed =
        ((ts.filter (·.text ≠ "")).map trimmed).flatMap (unfolded unfolds) := by
      rw [List.filter_flatMap, List.map_flatMap, List.flatMap_congr ih, Tree.flatMap_ite_text,
        List.flatMap_map]
    have htext : (Tree.branch n rule (ts.flatMap (unfolded unfolds))).text =
        (Tree.branch n rule ts).text := by
      rw [Tree.text_branch, Tree.text_branch]
      exact join_text_flatMap fun t _ => join_text_unfolded unfolds t
    rw [Tree.trimmed_branch, unfolded_branch, unfolded_branch]
    by_cases h : (Tree.branch n rule ts).text = ""
    · -- Then none of the children has a text either.
      have hnil : ts.filter (·.text ≠ "") = [] := by simpa using h
      rw [if_pos h]
      split
      · rw [hts, hnil, List.map_nil, List.flatMap_nil]
      · rw [List.filter_singleton, htext, h]
        rfl
    · rw [if_neg h]
      split
      · exact hts
      · rw [List.filter_singleton, htext, decide_eq_true h, cond_true, List.map_singleton,
          Tree.trimmed_branch, hts]

end Unfold

namespace Pass

/-- If the root is kept, it stays the root, be the tree trimmed or not. -/
theorem apply_trimmed {names : List String} {t : Tree}
    (hroot : ∀ n rule ts, t = .branch n rule ts → n ∉ names) (htext : t.text ≠ "") :
    Unfold.apply names t.trimmed = (Unfold.apply names t).trimmed := by
  have hunfolded := Unfold.trimmed_unfolded names.contains t
  rw [if_neg htext, Unfold.unfolded_of_root hroot, List.filter_singleton,
    Unfold.text_apply_of_root hroot, decide_eq_true htext, cond_true, List.map_singleton]
    at hunfolded
  rw [Unfold.apply_eq, ← hunfolded]
  rfl

/-- Removing empties commutes with collapsing, and with unfolding if the root is kept. -/
theorem removeEmpties_commutes (names : List String) (t : Tree) :
    (stringify names).apply (removeEmpties.apply t) =
        removeEmpties.apply ((stringify names).apply t) ∧
      ((∀ n rule ts, t = .branch n rule ts → n ∉ names) →
        (unfold names).apply (removeEmpties.apply t) =
          removeEmpties.apply ((unfold names).apply t)) := by
  refine ⟨?_, fun hroot => ?_⟩
  · rw [apply_stringify, apply_stringify, apply_removeEmpties, apply_removeEmpties,
      Tree.text_collapsed, Tree.trimmed_collapsed]
    split
    · exact Tree.collapsed_leaf .empty
    · rfl
  · have htext : ((unfold names).apply t).text = t.text := Unfold.text_apply_of_root hroot
    rw [apply_removeEmpties, apply_removeEmpties, htext]
    by_cases h : t.text = ""
    · rw [if_pos h, if_pos h]
      exact Unfold.apply_of_lacks Tree.lacks_leaf
    · rw [if_neg h, if_neg h]
      exact apply_trimmed hroot h

theorem removeEmpties_commutes_padded :
    (∀ n rule ts, padded = .branch n rule ts → n ∉ ["D", "E"]) ∧
      (stringify ["D", "E"]).apply (removeEmpties.apply padded) =
        .branch "S" .epsilon [.leaf (.compound "D" "a")] ∧
      removeEmpties.apply ((stringify ["D", "E"]).apply padded) =
        .branch "S" .epsilon [.leaf (.compound "D" "a")] ∧
      (unfold ["D", "E"]).apply (removeEmpties.apply padded) =
        .branch "S" .epsilon [.leaf (.terminal ⟨'a', []⟩)] ∧
      removeEmpties.apply ((unfold ["D", "E"]).apply padded) =
        .branch "S" .epsilon [.leaf (.terminal ⟨'a', []⟩)] := by
  have hroot : ∀ n rule ts, padded = .branch n rule ts → n ∉ ["D", "E"] :=
    fun _ _ _ => root_padded
  have htrimmed : removeEmpties.apply padded =
      .branch "S" .epsilon [.branch "D" .epsilon [.leaf (.terminal ⟨'a', []⟩)]] := by
    rw [apply_removeEmpties]
    simp [padded, Tree.text_leaf, Leaf.text, Terminal.literal, Terminal.chars]
  have hcollapsed : (stringify ["D", "E"]).apply (removeEmpties.apply padded) =
      .branch "S" .epsilon [.leaf (.compound "D" "a")] := by
    rw [htrimmed, apply_stringify]
    simp [Tree.collapse, Tree.text_branch, Tree.text_leaf, Leaf.text, Terminal.literal,
      Terminal.chars]
  have hunfolded : (unfold ["D", "E"]).apply (removeEmpties.apply padded) =
      .branch "S" .epsilon [.leaf (.terminal ⟨'a', []⟩)] := by
    rw [htrimmed]
    exact Unfold.apply_eq _
  obtain ⟨hcollapse, hunfold⟩ := removeEmpties_commutes ["D", "E"] padded
  exact ⟨hroot, hcollapsed, hcollapse.symm.trans hcollapsed, hunfolded,
    (hunfold hroot).symm.trans hunfolded⟩

end Pass

end Ramify
