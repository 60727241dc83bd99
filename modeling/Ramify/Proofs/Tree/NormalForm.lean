import Ramify.Proofs.Tree.Unfolding

/-!
# Normal forms

What the passes leave of a tree, told by recursion, and what they leave it in:

* removing empties trims a tree (`Tree.trimmed`): of all subtrees, those that have no text
  are left out. What is left has no leaf without text and no branch without children
  (`Tree.Filled`), unless nothing is left at all;
* collapsing (`Tree.collapsed`) puts the text of a branch in its place, and does not look
  at what was below. No branch of the given names is left (`Tree.Lacks`);
* unfolding leaves no such branch either, and keeps all leaves if the root is kept.

The text is kept by the first two of them, and a pass changes nothing in a tree that has
its normal form already. So a pass that is applied twice does no more than once
(`Pass.normal_form`).
-/

namespace Ramify

/-- A leaf has no text just if its text is empty: terminals have one, as they are never
    empty. -/
theorem Leaf.isEmpty_iff (l : Leaf) : l.isEmpty ↔ l.text = "" := by
  cases l <;> simp [Leaf.isEmpty, Leaf.text, Terminal.literal, Terminal.chars]

namespace Tree

variable {n : String} {rule : Flat.Rule} {names : List String} {l : Leaf} {t : Tree}
  {ts : List Tree}

/-! ### Trees without empty subtrees -/

@[simp] theorem text_branch_eq_empty_iff :
    (branch n rule ts).text = "" ↔ ∀ t ∈ ts, t.text = "" := by
  rw [text_branch]
  induction ts with
  | nil => simp
  | cons t ts ih => simp [String.append_eq_empty_iff, ih]

mutual

/-- A tree without the subtrees below its root that have no text. -/
def trimmed : Tree → Tree
  | leaf l => leaf l
  | branch n rule ts => branch n rule (trimmedAll ts)

/-- Those of several trees that have a text, trimmed. -/
def trimmedAll : List Tree → List Tree
  | [] => []
  | t :: ts => if t.text = "" then trimmedAll ts else trimmed t :: trimmedAll ts

end

theorem trimmedAll_eq (ts : List Tree) :
    trimmedAll ts = (ts.filter (·.text ≠ "")).map trimmed := by
  induction ts with
  | nil => rfl
  | cons t ts ih => by_cases h : t.text = "" <;> simp [trimmedAll, h, ih]

@[simp] theorem trimmed_leaf (l : Leaf) : (leaf l).trimmed = leaf l := by
  rw [trimmed]

@[simp] theorem trimmed_branch : (branch n rule ts).trimmed =
    branch n rule ((ts.filter (·.text ≠ "")).map trimmed) := by
  rw [trimmed, trimmedAll_eq]

/-- Trees without text add nothing to the text of others. -/
theorem join_text_filter (ts : List Tree) :
    String.join ((ts.filter (·.text ≠ "")).map text) = String.join (ts.map text) := by
  induction ts with
  | nil => rfl
  | cons t ts ih => by_cases h : t.text = "" <;> simp_all

@[simp] theorem text_trimmed (t : Tree) : t.trimmed.text = t.text := by
  induction t with
  | leaf l => rw [trimmed_leaf]
  | branch n rule ts ih =>
    rw [trimmed_branch, text_branch, text_branch, List.map_map, ← join_text_filter ts]
    exact congrArg String.join (List.map_congr_left fun t ht => ih t (List.mem_filter.1 ht).1)

/-- To leave out what has no text is to go on with what has one. -/
theorem flatMap_ite_text {α : Type} (f : Tree → List α) (ts : List Tree) :
    (ts.flatMap fun t => if t.text = "" then [] else f t) =
      (ts.filter (·.text ≠ "")).flatMap f := by
  induction ts with
  | nil => rfl
  | cons t ts ih => by_cases h : t.text = "" <;> simp [h, ih]

/-- All leaves have a text, and all branches have children. -/
structure Filled (t : Tree) : Prop where
  /-- All leaves have a text. -/
  leaf : ∀ l, Occurs (.leaf l) t → l.isEmpty = false
  /-- All branches have children. -/
  branch : ∀ n rule, ¬Occurs (.branch n rule []) t

theorem filled_leaf : (leaf l).Filled ↔ l.text ≠ "" := by
  constructor
  · intro h
    have := h.leaf l .whole
    simpa [← Leaf.isEmpty_iff] using this
  · intro h
    refine ⟨fun k hk => ?_, fun n rule hocc => ?_⟩
    · obtain rfl := leaf.inj (occurs_leaf.1 hk)
      simpa [← Leaf.isEmpty_iff] using h
    · cases occurs_leaf.1 hocc

theorem filled_branch : (branch n rule ts).Filled ↔ ts ≠ [] ∧ ∀ t ∈ ts, t.Filled := by
  constructor
  · intro h
    refine ⟨?_, fun t ht => ⟨fun l hl => h.leaf l (.child ht hl), fun m r hm =>
      h.branch m r (.child ht hm)⟩⟩
    rintro rfl
    exact h.branch n rule .whole
  · rintro ⟨hne, hts⟩
    refine ⟨fun l hl => ?_, fun m r hm => ?_⟩
    · obtain heq | ⟨t, ht, hl⟩ := occurs_branch.1 hl
      · cases heq
      · exact (hts t ht).leaf l hl
    · obtain heq | ⟨t, ht, hm⟩ := occurs_branch.1 hm
      · exact hne (branch.inj heq).2.2.symm
      · exact (hts t ht).branch m r hm

/-- What is left of a tree with a text is filled. -/
theorem filled_trimmed (h : t.text ≠ "") : t.trimmed.Filled := by
  induction t with
  | leaf l => rwa [trimmed_leaf, filled_leaf, ← text_leaf]
  | branch n rule ts ih =>
    refine trimmed_branch ▸ filled_branch.2 ⟨by simpa using h, fun t ht => ?_⟩
    obtain ⟨u, hu, rfl⟩ := List.mem_map.1 ht
    obtain ⟨hmem, htext⟩ := List.mem_filter.1 hu
    exact ih u hmem (of_decide_eq_true htext)

/-- Each subtree of a filled tree has a text. -/
theorem Filled.text_ne_empty (h : t.Filled) : t.text ≠ "" := by
  induction t with
  | leaf l => rwa [text_leaf, ← filled_leaf]
  | branch n rule ts ih =>
    obtain ⟨hne, hts⟩ := filled_branch.1 h
    obtain ⟨t, ht⟩ := List.exists_mem_of_ne_nil ts hne
    rw [ne_eq, text_branch_eq_empty_iff]
    exact fun hall => ih t ht (hts t ht) (hall t ht)

theorem Filled.trimmed_eq_self (h : t.Filled) : t.trimmed = t := by
  induction t with
  | leaf l => rw [trimmed_leaf]
  | branch n rule ts ih =>
    obtain ⟨-, hts⟩ := filled_branch.1 h
    have hkept : ts.filter (·.text ≠ "") = ts :=
      List.filter_eq_self.2 fun t ht => decide_eq_true (hts t ht).text_ne_empty
    rw [trimmed_branch, hkept, List.map_congr_left fun t ht => ih t ht (hts t ht), List.map_id']

/-! ### Trees without branches of some names -/

/-- No branch of some names occurs in a tree. -/
def Lacks (names : List String) (t : Tree) : Prop :=
  ∀ n rule ts, Occurs (.branch n rule ts) t → n ∉ names

theorem lacks_leaf : (leaf l).Lacks names := by
  intro n rule ts h
  cases occurs_leaf.1 h

theorem lacks_branch : (branch n rule ts).Lacks names ↔ n ∉ names ∧ ∀ t ∈ ts, t.Lacks names := by
  constructor
  · exact fun h => ⟨h n rule ts .whole, fun t ht m r us hm => h m r us (.child ht hm)⟩
  · rintro ⟨hn, hts⟩ m r us hm
    obtain heq | ⟨t, ht, hm⟩ := occurs_branch.1 hm
    · rwa [(branch.inj heq).1]
    · exact hts t ht m r us hm

mutual

/-- A tree with the text of each branch of some names in the place of the branch. -/
def collapsed (names : List String) : Tree → Tree
  | leaf l => leaf l
  | branch n rule ts =>
    if n ∈ names then collapse n (branch n rule ts) else branch n rule (collapsedAll names ts)

/-- Several trees with the branches of some names collapsed. -/
def collapsedAll (names : List String) : List Tree → List Tree
  | [] => []
  | t :: ts => collapsed names t :: collapsedAll names ts

end

theorem collapsedAll_eq (ts : List Tree) : collapsedAll names ts = ts.map (collapsed names) := by
  induction ts with
  | nil => rfl
  | cons t ts ih => rw [collapsedAll, ih, List.map_cons]

@[simp] theorem collapsed_leaf (l : Leaf) : (leaf l).collapsed names = leaf l := by
  rw [collapsed]

@[simp] theorem collapsed_branch : (branch n rule ts).collapsed names =
    if n ∈ names then collapse n (branch n rule ts)
    else branch n rule (ts.map (collapsed names)) := by
  rw [collapsed, collapsedAll_eq]

@[simp] theorem text_collapse (n : String) (t : Tree) : (collapse n t).text = t.text :=
  text_leaf _

@[simp] theorem text_collapsed (names : List String) (t : Tree) :
    (t.collapsed names).text = t.text := by
  induction t with
  | leaf l => rw [collapsed_leaf]
  | branch n rule ts ih =>
    rw [collapsed_branch]
    split
    · exact text_collapse n _
    · rw [text_branch, text_branch, List.map_map]
      exact congrArg String.join (List.map_congr_left ih)

theorem lacks_collapsed (names : List String) (t : Tree) : (t.collapsed names).Lacks names := by
  induction t with
  | leaf l =>
    rw [collapsed_leaf]
    exact lacks_leaf
  | branch n rule ts ih =>
    rw [collapsed_branch]
    split
    · exact lacks_leaf
    · rename_i hn
      exact lacks_branch.2 ⟨hn, List.forall_mem_map.2 ih⟩

theorem Lacks.collapsed_eq_self (h : t.Lacks names) : t.collapsed names = t := by
  induction t with
  | leaf l => rw [collapsed_leaf]
  | branch n rule ts ih =>
    obtain ⟨hn, hts⟩ := lacks_branch.1 h
    rw [collapsed_branch, if_neg hn, List.map_congr_left fun t ht => ih t ht (hts t ht),
      List.map_id']

/-! ### Leaves -/

mutual

/-- The leaves of a tree, from left to right. -/
def leaves : Tree → List Leaf
  | leaf l => [l]
  | branch _ _ ts => leavesAll ts

/-- The leaves of several trees. -/
def leavesAll : List Tree → List Leaf
  | [] => []
  | t :: ts => leaves t ++ leavesAll ts

end

theorem leavesAll_eq (ts : List Tree) : leavesAll ts = ts.flatMap leaves := by
  induction ts with
  | nil => rfl
  | cons t ts ih => rw [leavesAll, ih, List.flatMap_cons]

@[simp] theorem leaves_leaf (l : Leaf) : (leaf l).leaves = [l] := by
  rw [leaves]

@[simp] theorem leaves_branch : (branch n rule ts).leaves = ts.flatMap leaves := by
  rw [leaves, leavesAll_eq]

end Tree

/-! ### Unfolding -/

namespace Unfold

variable {unfolds : String → Bool} {names : List String} {t : Tree}

/-- What takes the place of a tree has the leaves of the tree. -/
theorem leaves_unfolded (unfolds : String → Bool) (t : Tree) :
    (unfolded unfolds t).flatMap Tree.leaves = t.leaves := by
  induction t with
  | leaf l => simp
  | branch n rule ts ih =>
    have hall : (ts.flatMap (unfolded unfolds)).flatMap Tree.leaves = ts.flatMap Tree.leaves := by
      rw [List.flatMap_assoc, List.flatMap_congr ih]
    rw [unfolded_branch]
    split <;> simpa using hall

theorem lacks_unfolded (names : List String) (t : Tree) :
    ∀ u ∈ unfolded names.contains t, u.Lacks names := by
  induction t with
  | leaf l => simp [Tree.lacks_leaf]
  | branch n rule ts ih =>
    have hall : ∀ u ∈ ts.flatMap (unfolded names.contains), u.Lacks names := by
      intro u hu
      obtain ⟨t, ht, hu⟩ := List.mem_flatMap.1 hu
      exact ih t ht u hu
    rw [unfolded_branch]
    split
    · exact hall
    · rename_i hn
      exact List.forall_mem_singleton.2 (Tree.lacks_branch.2 ⟨by simpa using hn, hall⟩)

theorem lacks_apply (names : List String) (t : Tree) : (apply names t).Lacks names := by
  rw [apply_eq]
  cases h : unfolded names.contains t with
  | nil => exact Tree.lacks_leaf
  | cons u us => exact lacks_unfolded names t u (h ▸ List.mem_cons_self)

theorem unfolded_of_lacks (h : t.Lacks names) : unfolded names.contains t = [t] := by
  induction t with
  | leaf l => rw [unfolded_leaf]
  | branch n rule ts ih =>
    obtain ⟨hn, hts⟩ := Tree.lacks_branch.1 h
    rw [unfolded_branch, if_neg (by simpa using hn),
      List.flatMap_congr fun t ht => ih t ht (hts t ht), List.flatMap_singleton']

theorem apply_of_lacks (h : t.Lacks names) : apply names t = t := by
  rw [apply_eq, unfolded_of_lacks h]
  rfl

end Unfold

/-! ### Passes -/

open Ramify.Tree (trimmed collapsed Filled Lacks)

variable {names : List String} {t : Tree}

/-- Of a tree without text nothing is left, as all of its children are gone by the time
    it is looked at. -/
theorem fromLeaves_removeEmpties (t : Tree) :
    removeEmpties.fromLeaves t = if t.text = "" then [] else [t.trimmed] := by
  induction t with
  | leaf l =>
    simp [Tagging.fromLeaves, removeEmpties, Leaf.isEmpty_iff, Tree.text_leaf]
  | branch n rule ts ih =>
    have hts : ts.flatMap removeEmpties.fromLeaves = (ts.filter (·.text ≠ "")).map trimmed := by
      rw [List.flatMap_congr ih, Tree.flatMap_ite_text, List.map_eq_flatMap]
    rw [Tagging.fromLeaves, Tagging.fromLeavesAll_eq, hts]
    simp [removeEmpties]

theorem fromRoot_stringify (names : List String) (t : Tree) :
    (stringify names).fromRoot t = [t.collapsed names] := by
  induction t with
  | leaf l => rfl
  | branch n rule ts ih =>
    have hts : ts.flatMap (stringify names).fromRoot = ts.map (collapsed names) := by
      rw [List.flatMap_congr ih, List.map_eq_flatMap]
    rw [Tagging.fromRoot, Tagging.fromRootAll_eq, hts, Tree.collapsed_branch]
    simp only [stringify, Tagging.tagsNames, List.contains_iff_mem]
    split <;> rfl

namespace Pass

theorem apply_removeEmpties (t : Tree) :
    removeEmpties.apply t = if t.text = "" then .leaf .empty else t.trimmed := by
  have hroots : Ramify.removeEmpties.roots t = if t.text = "" then [] else [t.trimmed] :=
    (Tagging.roots_eq _ t).trans (fromLeaves_removeEmpties t)
  rw [apply, Tagging.apply, hroots]
  split <;> rfl

theorem apply_stringify (names : List String) (t : Tree) :
    (stringify names).apply t = t.collapsed names := by
  have hroots : (Ramify.stringify names).roots t = [t.collapsed names] :=
    (Tagging.roots_eq _ t).trans (fromRoot_stringify names t)
  rw [apply, Tagging.apply, hroots]
  rfl

/-- What is filled is left as it is. -/
theorem removeEmpties_of_filled (h : t.Filled) : removeEmpties.apply t = t := by
  rw [apply_removeEmpties, if_neg h.text_ne_empty, h.trimmed_eq_self]

theorem text_removeEmpties (t : Tree) : (removeEmpties.apply t).text = t.text := by
  rw [apply_removeEmpties]
  split
  · rename_i h
    rw [h, Tree.text_leaf]
    rfl
  · exact Tree.text_trimmed t

/-- Either nothing is left of a tree or it is filled. -/
theorem filled_removeEmpties (t : Tree) :
    removeEmpties.apply t = .leaf .empty ∨ (removeEmpties.apply t).Filled := by
  rw [apply_removeEmpties]
  split
  · exact .inl rfl
  · rename_i h
    exact .inr (Tree.filled_trimmed h)

theorem removeEmpties_removeEmpties (t : Tree) :
    removeEmpties.apply (removeEmpties.apply t) = removeEmpties.apply t := by
  obtain h | h := filled_removeEmpties t
  · rw [h, apply_removeEmpties, Tree.trimmed_leaf, ite_self]
  · exact removeEmpties_of_filled h

theorem leaves_unfold (h : ∀ n rule ts, t = .branch n rule ts → n ∉ names) :
    ((unfold names).apply t).leaves = t.leaves := by
  rw [← Unfold.leaves_unfolded names.contains t, Unfold.unfolded_of_root h,
    List.flatMap_singleton]
  rfl

/-- The standard passes keep the text and leave a tree in their normal form, in which they
    change nothing any more.

    * Of a tree without text, removing empties leaves a placeholder. Of any other tree it
      takes away the subtrees without text and nothing else.
    * Collapsing leaves no branch of the given names.
    * Unfolding leaves no such branch either. If the root is kept, so are all leaves, in
      their order. -/
theorem normal_form (names : List String) (t : Tree) :
    ((removeEmpties.apply t).text = t.text ∧
      removeEmpties.apply t = (if t.text = "" then .leaf .empty else t.trimmed) ∧
      (removeEmpties.apply t = .leaf .empty ∨ (removeEmpties.apply t).Filled)) ∧
    (((stringify names).apply t).text = t.text ∧ ((stringify names).apply t).Lacks names) ∧
    (((unfold names).apply t).Lacks names ∧
      ((∀ n rule ts, t = .branch n rule ts → n ∉ names) →
        ((unfold names).apply t).leaves = t.leaves ∧
          ((unfold names).apply t).text = t.text)) ∧
    ∀ p ∈ [removeEmpties, stringify names, unfold names], p.apply (p.apply t) = p.apply t := by
  have hcollapsed := apply_stringify names t
  have hunfolded : ((unfold names).apply t).Lacks names := Unfold.lacks_apply names t
  refine ⟨⟨text_removeEmpties t, apply_removeEmpties t, filled_removeEmpties t⟩, ⟨?_, ?_⟩,
    ⟨hunfolded, fun h => ⟨leaves_unfold h, Unfold.text_apply_of_root h⟩⟩, ?_⟩
  · rw [hcollapsed, Tree.text_collapsed]
  · rw [hcollapsed]
    exact Tree.lacks_collapsed names t
  · simp only [List.forall_mem_cons, List.not_mem_nil, false_implies, implies_true, and_true]
    refine ⟨removeEmpties_removeEmpties t, ?_, ?_⟩
    · rw [hcollapsed, apply_stringify, (Tree.lacks_collapsed names t).collapsed_eq_self]
    · exact Unfold.apply_of_lacks hunfolded

/-- A branch with a letter, with empty leaves and branches all around. -/
def padded : Tree :=
  .branch "S" .epsilon [.branch "E" .epsilon [], .branch "D" .epsilon
    [.leaf (.terminal ⟨'a', []⟩), .leaf (.compound "E" ""), .branch "D" .epsilon [.leaf .empty]]]

theorem root_padded {n : String} {rule : Flat.Rule} {ts : List Tree}
    (h : padded = .branch n rule ts) : n ∉ ["D", "E"] := by
  obtain rfl := (Tree.branch.inj h).1
  decide

theorem normal_form_padded :
    (∀ n rule ts, padded = .branch n rule ts → n ∉ ["D", "E"]) ∧
      ((unfold ["D", "E"]).apply padded).leaves = padded.leaves ∧
      ((unfold ["D", "E"]).apply padded).text = padded.text ∧
      removeEmpties.apply padded =
        .branch "S" .epsilon [.branch "D" .epsilon [.leaf (.terminal ⟨'a', []⟩)]] := by
  have hroot : ∀ n rule ts, padded = .branch n rule ts → n ∉ ["D", "E"] :=
    fun _ _ _ => root_padded
  obtain ⟨⟨-, htrimmed, -⟩, -, ⟨-, hkept⟩, -⟩ := normal_form ["D", "E"] padded
  refine ⟨hroot, (hkept hroot).1, (hkept hroot).2, htrimmed.trans ?_⟩
  simp [padded, Tree.text_leaf, Leaf.text, Terminal.literal, Terminal.chars]

end Pass

end Ramify
