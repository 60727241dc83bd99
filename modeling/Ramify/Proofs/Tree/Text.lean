import Ramify.Tree.Basic

/-!
# The text of a tree

The walk over a tree meets its nodes from left to right, each before its children, as a
recursion would (`Tree.preorder_eq`). So the text of a branch is that of its children, one
after the other (`Tree.text_branch`). An induction over trees gives what is claimed for all
children of a branch (`Tree.induction`).

Trees *cover* the part of a text between two places (`Covers`), which are given by
what is left of the text there, if their texts come there in order and the end
of input is found at the end alone.
-/

namespace Ramify.Tree

variable {n : String} {rule : Flat.Rule} {t u : Tree} {ts : List Tree}

/-- What holds of a branch whenever it holds of its children, and holds of leaves, holds
    of all trees. -/
@[elab_as_elim, induction_eliminator]
theorem induction {P : Tree → Prop} (leaf : ∀ l, P (leaf l))
    (branch : ∀ n rule ts, (∀ t ∈ ts, P t) → P (branch n rule ts)) (t : Tree) : P t :=
  @Tree.rec P (fun ts => ∀ t ∈ ts, P t) branch leaf (List.forall_mem_nil P)
    (fun _ _ ht hts => List.forall_mem_cons.2 ⟨ht, hts⟩) t

/-! ### The nodes of trees -/

/-- The nodes of trees whose roots have a depth, each before its children, told by
    recursion. -/
def listed (depth : Nat) : List Tree → List (Nat × Tree)
  | [] => []
  | t :: ts => (depth, t) :: (listed (depth + 1) t.children ++ listed depth ts)
termination_by ts => sizes ts
decreasing_by
  all_goals simp only [sizes, size_eq]
  all_goals omega

theorem listed_nil (depth : Nat) : listed depth [] = [] := by
  rw [listed]

theorem listed_cons (depth : Nat) (t : Tree) (ts : List Tree) : listed depth (t :: ts) =
    (depth, t) :: (listed (depth + 1) t.children ++ listed depth ts) := by
  rw [listed]

theorem listed_append (depth : Nat) (ts us : List Tree) :
    listed depth (ts ++ us) = listed depth ts ++ listed depth us := by
  induction ts with
  | nil => rw [List.nil_append, listed_nil, List.nil_append]
  | cons t ts ih =>
    rw [List.cons_append, listed_cons, ih, listed_cons, List.cons_append, List.append_assoc]

theorem listed_eq_flatMap (depth : Nat) (ts : List Tree) :
    listed depth ts = ts.flatMap fun t => listed depth [t] := by
  induction ts with
  | nil => rw [listed_nil, List.flatMap_nil]
  | cons t ts ih => rw [List.flatMap_cons, ← ih, ← listed_append, List.singleton_append]

/-- A walk meets the nodes of all trees, behind what was met before. -/
theorem walk_eq (todo met : List (Nat × Tree)) :
    walk todo met = met.reverse ++ todo.flatMap fun x => listed x.1 [x.2] := by
  induction todo, met using walk.induct with
  | case1 met => rw [walk, List.flatMap_nil, List.append_nil]
  | case2 met depth t rest ih =>
    rw [walk, ih, List.flatMap_append, List.flatMap_map, ← listed_eq_flatMap, List.flatMap_cons,
      listed_cons, listed_nil, List.append_nil, List.reverse_cons, List.append_assoc]
    rfl

theorem preorder_eq (t : Tree) : t.preorder = listed 0 [t] := by
  rw [preorder, walk_eq, List.reverse_nil, List.nil_append, List.flatMap_singleton]

/-- What the nodes are does not depend on the depth of the roots. -/
theorem map_snd_listed (depth depth' : Nat) (ts : List Tree) :
    (listed depth ts).map (·.2) = (listed depth' ts).map (·.2) := by
  induction depth, ts using listed.induct generalizing depth' with
  | case1 depth => rw [listed_nil, listed_nil]
  | case2 depth t ts ihc ih =>
    rw [listed_cons, listed_cons, List.map_cons, List.map_cons, List.map_append, List.map_append,
      ihc (depth' + 1), ih depth']

/-! ### Their text -/

theorem text_eq_join (depth : Nat) (t : Tree) :
    t.text = String.join (((listed depth [t]).map (·.2)).map ownText) := by
  rw [text, preorder_eq, map_snd_listed depth 0, List.map_map]
  rfl

/-- The text of the nodes of trees is that of the trees. -/
theorem join_listed (depth : Nat) (ts : List Tree) :
    String.join (((listed depth ts).map (·.2)).map ownText) = String.join (ts.map text) := by
  induction ts with
  | nil => rw [listed_nil, List.map_nil, List.map_nil, List.map_nil]
  | cons t ts ih =>
    rw [← List.singleton_append, listed_append, List.map_append, List.map_append,
      String.join_append, ← text_eq_join, ih, List.singleton_append, List.map_cons,
      String.join_cons]

/-- The text of a tree is that of its root and its children. -/
theorem text_eq (t : Tree) : t.text = t.ownText ++ String.join (t.children.map text) := by
  rw [text_eq_join 0, listed_cons, listed_nil, List.append_nil, List.map_cons, List.map_cons,
    String.join_cons, join_listed]

/-- The text of a branch is that of its children. -/
theorem text_branch : (branch n rule ts).text = String.join (ts.map text) := by
  rw [text_eq, ownText, children, String.empty_append]

theorem text_leaf (l : Leaf) : (leaf l).text = l.text := by
  rw [text_eq, ownText, children, List.map_nil, String.join_nil, String.append_empty]

/-- A tree occurs in another one: as the whole of it, or in one of its children. -/
inductive Occurs (u : Tree) : Tree → Prop
  | whole : Occurs u u
  | child {n : String} {rule : Flat.Rule} {ts : List Tree} {t : Tree} : t ∈ ts → Occurs u t →
    Occurs u (branch n rule ts)

theorem occurs_branch : Occurs u (branch n rule ts) ↔
    u = branch n rule ts ∨ ∃ t ∈ ts, Occurs u t := by
  constructor
  · intro h
    cases h with
    | whole => exact .inl rfl
    | child ht h => exact .inr ⟨_, ht, h⟩
  · rintro (rfl | ⟨t, ht, h⟩)
    · exact .whole
    · exact .child ht h

theorem occurs_leaf {l : Leaf} : Occurs u (leaf l) ↔ u = leaf l := by
  constructor
  · intro h
    cases h
    rfl
  · rintro rfl
    exact .whole

theorem Occurs.trans {v : Tree} (h : Occurs u t) (h' : Occurs t v) : Occurs u v := by
  induction h' with
  | whole => exact h
  | child ht _ ih => exact .child ht ih

/-- Trees cover a text from one place to another. -/
inductive Covers : List Tree → List Char → List Char → Prop
  | nil {i : List Char} : Covers [] i i
  | endOfInput {ts : List Tree} {r : List Char} : Covers ts [] r →
    Covers (leaf .endOfInput :: ts) [] r
  | leaf {l : Leaf} {ts : List Tree} {i r : List Char} : l ≠ .endOfInput → Covers ts i r →
    Covers (leaf l :: ts) (l.text.toList ++ i) r
  | branch {n : String} {rule : Flat.Rule} {us ts : List Tree} {i j r : List Char} :
    Covers us i j → Covers ts j r → Covers (branch n rule us :: ts) i r

namespace Covers

variable {i j r : List Char} {us : List Tree}

theorem char {k : CharClass} {c : Char} (h : Covers ts i r) :
    Covers (.leaf (.char k c) :: ts) (c :: i) r := by
  have hleaf : Covers (.leaf (.char k c) :: ts) ((Leaf.char k c).text.toList ++ i) r :=
    .leaf Leaf.noConfusion h
  rwa [Leaf.text, String.toList_singleton] at hleaf

theorem terminal {l : Terminal} (h : Covers ts i r) :
    Covers (.leaf (.terminal l) :: ts) (l.chars ++ i) r := by
  have hleaf : Covers (.leaf (.terminal l) :: ts) ((Leaf.terminal l).text.toList ++ i) r :=
    .leaf Leaf.noConfusion h
  rwa [Leaf.text, Terminal.literal, String.toList_ofList] at hleaf

/-- The text of the trees is what lies between the places. -/
theorem eq_text_append (h : Covers ts i r) : i = (String.join (ts.map text)).toList ++ r := by
  induction h with
  | nil => rw [List.map_nil, String.join_nil]; rfl
  | endOfInput _ ih =>
    rw [List.map_cons, String.join_cons, text_leaf, Leaf.text, String.empty_append]
    exact ih
  | leaf _ _ ih =>
    rw [List.map_cons, String.join_cons, text_leaf, String.toList_append, List.append_assoc, ← ih]
  | branch _ _ ihu iht =>
    rw [List.map_cons, String.join_cons, text_branch, String.toList_append, List.append_assoc,
      ← iht]
    exact ihu

/-- What is left behind trees is a part of what was left before. -/
theorem length_le (h : Covers ts i r) : r.length ≤ i.length := by
  rw [h.eq_text_append, List.length_append]
  exact Nat.le_add_left _ _

theorem eq_nil (h : Covers ts [] r) : r = [] :=
  List.length_eq_zero_iff.1 (Nat.le_zero.1 h.length_le)

/-- A branch has no text just if it covers nothing. -/
theorem text_eq_empty_iff (h : Covers us i j) : (Tree.branch n rule us).text = "" ↔ i = j := by
  rw [text_branch, ← String.toList_eq_nil_iff]
  constructor
  · intro hnil
    rw [h.eq_text_append, hnil, List.nil_append]
  · intro heq
    have htext := h.eq_text_append
    rw [heq] at htext
    exact List.self_eq_append_left.1 htext

/-- Where the end of input occurs, nothing is left. -/
theorem eq_nil_of_occurs (h : Covers ts i r) (ht : t ∈ ts)
    (hocc : Occurs (.leaf .endOfInput) t) : r = [] := by
  induction h generalizing t with
  | nil => exact absurd ht List.not_mem_nil
  | endOfInput h _ => exact h.eq_nil
  | leaf hl _ ih =>
    rcases List.mem_cons.1 ht with rfl | ht
    · exact absurd (Tree.leaf.inj (occurs_leaf.1 hocc)).symm hl
    · exact ih ht hocc
  | branch _ hts ihu ih =>
    rcases List.mem_cons.1 ht with rfl | ht
    · rcases occurs_branch.1 hocc with heq | ⟨u, hu, hocc⟩
      · cases heq
      · -- Then it is at the end that the branch ends.
        rw [ihu hu hocc] at hts
        exact hts.eq_nil
    · exact ih ht hocc

end Covers

end Ramify.Tree
