import Mathlib.Data.List.Basic
import Ramify.Proofs.Tree.Text

/-!
# Trees as they are shown

A tree is shown one node a line, as a number of bars and a title. Of a node nothing else is
shown, so that what can be read off at best is the skeleton of the tree: how its nodes are
arranged, with the names of the branches and the texts of the leaves (`Tree.skeleton`). Where
titles can be told from what is around them (`Tree.Legible`), all of it can be read off:

* the lines can be told apart, as no title breaks them (`lines_inj`);
* the depth and the title of a node are told by its line (`bars_inj`), and the title tells
  whether it is that of a leaf;
* the depths of the nodes in order tell how they are arranged (`skeletons_eq_of_outline`): a
  forest ends where a node comes that is less deep.
-/

namespace Ramify

/-- The arrangement of the nodes of a tree, with what is shown of them. -/
inductive Skeleton where
  /-- The name of a branch, and what is below. -/
  | branch (name : String) (children : List Skeleton)
  /-- The text of a leaf. -/
  | leaf (text : String)

namespace Tree

variable {n : String} {rule : Flat.Rule} {t u : Tree} {ts us : List Tree} {d : Nat}

mutual

/-- The skeleton of a tree. -/
def skeleton : Tree → Skeleton
  | branch n _ ts => .branch n (skeletons ts)
  | leaf l => .leaf l.text

/-- The skeletons of several trees. -/
def skeletons : List Tree → List Skeleton
  | [] => []
  | t :: ts => skeleton t :: skeletons ts

end

/-! ### Lines -/

/-- What comes before a line break is told by the text up to the first one. -/
theorem takeWhile_line {x : List Char} (hx : '\n' ∉ x) (rest : List Char) :
    (x ++ '\n' :: rest).takeWhile (· ≠ '\n') = x := by
  have hall : ∀ c ∈ x, decide (c ≠ '\n') = true := fun c hc =>
    decide_eq_true fun heq : c = '\n' => hx (heq ▸ hc)
  rw [List.takeWhile_append_of_pos hall, List.takeWhile_cons_of_neg (by simp), List.append_nil]

/-- Lines that do not break are told by the text that they make up. -/
theorem lines_inj {xs ys : List (List Char)} (hx : ∀ x ∈ xs, '\n' ∉ x) (hy : ∀ y ∈ ys, '\n' ∉ y)
    (h : xs.flatMap (· ++ ['\n']) = ys.flatMap (· ++ ['\n'])) : xs = ys := by
  induction xs generalizing ys with
  | nil =>
    cases ys with
    | nil => rfl
    | cons y ys => simp at h
  | cons x xs ih =>
    cases ys with
    | nil => simp at h
    | cons y ys =>
      rw [List.forall_mem_cons] at hx hy
      simp only [List.flatMap_cons, List.append_assoc, List.singleton_append] at h
      obtain rfl : x = y := by
        rw [← takeWhile_line hx.1 (xs.flatMap _), h, takeWhile_line hy.1]
      rw [ih hx.2 hy.2 (List.cons.inj (List.append_cancel_left h)).2]

/-- Bars are told from what comes behind them, if that does not begin with one. -/
theorem bars_inj {d e : Nat} {x y : List Char} (hx : x.head? ≠ some '|') (hy : y.head? ≠ some '|')
    (h : List.replicate d '|' ++ x = List.replicate e '|' ++ y) : d = e ∧ x = y := by
  induction d generalizing e with
  | zero =>
    cases e with
    | zero => exact ⟨rfl, h⟩
    | succ e => exact absurd (congrArg List.head? h) hx
  | succ d ih =>
    cases e with
    | zero => exact absurd (congrArg List.head? h).symm hy
    | succ e =>
      obtain ⟨rfl, hxy⟩ := ih (List.cons.inj h).2
      exact ⟨rfl, hxy⟩

theorem toList_pushn (s : String) (c : Char) (d : Nat) :
    (s.pushn c d).toList = s.toList ++ List.replicate d c := by
  induction d with
  | zero => simp [String.pushn, Nat.repeat]
  | succ d ih =>
    rw [String.pushn] at ih ⊢
    rw [Nat.repeat, String.toList_push, ih, List.append_assoc, ← List.replicate_succ']

theorem toList_line (d : Nat) (t : Tree) :
    (line d t).toList = (List.replicate d '|' ++ t.title.toList) ++ ['\n'] := by
  rw [line, String.toList_append, String.toList_append, toList_pushn]
  rfl

/-! ### Outlines -/

/-- What is shown of the nodes of trees: their depths and their titles, in order. -/
def outline (d : Nat) (ts : List Tree) : List (Nat × String) :=
  (listed d ts).map fun x => (x.1, x.2.title)

theorem outline_nil (d : Nat) : outline d [] = [] := by
  rw [outline, listed_nil, List.map_nil]

theorem outline_cons (d : Nat) (t : Tree) (ts : List Tree) : outline d (t :: ts) =
    (d, t.title) :: (outline (d + 1) t.children ++ outline d ts) := by
  rw [outline, listed_cons, List.map_cons, List.map_append]
  rfl

/-- The line of a node with a depth and a title, without its end. -/
def bars (x : Nat × String) : List Char := List.replicate x.1 '|' ++ x.2.toList

/-- A tree is shown as the lines of its outline. -/
theorem toList_render (t : Tree) :
    t.render.toList = ((outline 0 [t]).map bars).flatMap (· ++ ['\n']) := by
  rw [render, preorder_eq, String.toList_join, outline, List.map_map, List.flatMap_map,
    List.flatMap_map]
  exact List.flatMap_congr fun x _ => toList_line x.1 x.2

/-- An outline has one entry for each node. -/
theorem length_outline (d : Nat) (ts : List Tree) : (outline d ts).length = sizes ts := by
  induction d, ts using listed.induct with
  | case1 d => rw [outline_nil, sizes, List.length_nil]
  | case2 d t ts ihc ih =>
    rw [outline_cons, List.length_cons, List.length_append, ihc, ih, sizes, size_eq]
    omega

/-- The titles of an outline are those of nodes. -/
theorem mem_outline {x : Nat × String} (h : x ∈ outline d ts) :
    ∃ t ∈ ts, ∃ u, Occurs u t ∧ x.2 = u.title := by
  induction d, ts using listed.induct with
  | case1 d =>
    rw [outline_nil] at h
    cases h
  | case2 d t ts ihc ih =>
    rw [outline_cons] at h
    rcases List.mem_cons.1 h with rfl | h
    · exact ⟨t, List.mem_cons_self, t, .whole, rfl⟩
    rcases List.mem_append.1 h with h | h
    · obtain ⟨c, hc, u, hu, heq⟩ := ihc h
      refine ⟨t, List.mem_cons_self, u, ?_, heq⟩
      cases t with
      | branch n rule cs => exact .child hc hu
      | leaf l => cases hc
    · obtain ⟨t', ht', hu⟩ := ih h
      exact ⟨t', List.mem_cons_of_mem t ht', hu⟩

/-! ### Reading a tree off -/

/-- The titles of a tree can be told from what is around them: names do not begin as a line
    or as a leaf does, and no title breaks a line. -/
structure Legible (t : Tree) : Prop where
  name : ∀ n rule ts, Occurs (branch n rule ts) t →
    n.toList.head? ≠ some '|' ∧ n.toList.head? ≠ some '\'' ∧ '\n' ∉ n.toList
  text : ∀ l, Occurs (leaf l) t → '\n' ∉ l.text.toList

theorem legible_branch
    (hname : n.toList.head? ≠ some '|' ∧ n.toList.head? ≠ some '\'' ∧ '\n' ∉ n.toList)
    (hts : ∀ t ∈ ts, t.Legible) : (branch n rule ts).Legible := by
  constructor
  · intro m rule' us h
    rcases occurs_branch.1 h with heq | ⟨t, ht, h⟩
    · obtain ⟨rfl, -, -⟩ := Tree.branch.inj heq
      exact hname
    · exact (hts t ht).name m rule' us h
  · intro l h
    rcases occurs_branch.1 h with heq | ⟨t, ht, h⟩
    · cases heq
    · exact (hts t ht).text l h

theorem legible_leaf {l : Leaf} (htext : '\n' ∉ l.text.toList) : (leaf l).Legible := by
  constructor
  · intro n rule ts h
    cases occurs_leaf.1 h
  · intro k h
    cases occurs_leaf.1 h
    exact htext

theorem Legible.of_occurs (h : t.Legible) (hu : Occurs u t) : u.Legible :=
  ⟨fun n rule ts hocc => h.name n rule ts (hocc.trans hu), fun l hocc => h.text l (hocc.trans hu)⟩

theorem Legible.children (h : t.Legible) : ∀ c ∈ t.children, c.Legible := by
  intro c hc
  cases t with
  | branch n rule ts => exact h.of_occurs (.child hc .whole)
  | leaf l => cases hc

theorem title_leaf_toList (l : Leaf) :
    (leaf l).title.toList = '\'' :: (l.text.toList ++ ['\'']) := by
  rw [title, String.toList_append, String.toList_append]
  rfl

/-- A title begins with no bar and does not break the line. -/
theorem Legible.title (h : t.Legible) :
    t.title.toList.head? ≠ some '|' ∧ '\n' ∉ t.title.toList := by
  cases t with
  | branch n rule ts =>
    obtain ⟨hbar, -, hline⟩ := h.name n rule ts .whole
    exact ⟨hbar, hline⟩
  | leaf l =>
    rw [title_leaf_toList]
    have hline := h.text l .whole
    simp [hline]

/-- The title of a node tells whether it is a leaf, and its text or its name. -/
theorem Legible.skeleton_eq (ht : t.Legible) (hu : u.Legible) (htitle : t.title = u.title)
    (hchildren : skeletons t.children = skeletons u.children) : t.skeleton = u.skeleton := by
  cases t with
  | branch n rule ts =>
    cases u with
    | branch m rule' us =>
      obtain rfl : n = m := htitle
      rw [skeleton, skeleton]
      exact congrArg _ hchildren
    | leaf l =>
      obtain rfl : n = (leaf l).title := htitle
      exact absurd (by rw [title_leaf_toList]; rfl) (ht.name _ rule ts .whole).2.1
  | leaf l =>
    cases u with
    | branch m rule' us =>
      obtain rfl : (leaf l).title = m := htitle
      exact absurd (by rw [title_leaf_toList]; rfl) (hu.name _ rule' us .whole).2.1
    | leaf k =>
      have hlist := congrArg String.toList htitle
      rw [title_leaf_toList, title_leaf_toList] at hlist
      have htext := List.append_cancel_right (List.cons.inj hlist).2
      rw [skeleton, skeleton, String.toList_inj.1 htext]

/-- The first of some entries is less deep than others. -/
def Shallow (d : Nat) (rest : List (Nat × String)) : Prop := ∀ x ∈ rest.head?, x.1 < d

/-- What comes behind the children of a tree in an outline is less deep than they are. -/
theorem Shallow.behind {rest : List (Nat × String)} (h : Shallow d rest) (ts : List Tree) :
    Shallow (d + 1) (outline d ts ++ rest) := by
  intro x hx
  cases ts with
  | nil =>
    rw [outline_nil, List.nil_append] at hx
    exact Nat.lt_succ_of_lt (h x hx)
  | cons t ts =>
    rw [outline_cons] at hx
    obtain rfl := Option.some.inj hx
    exact Nat.lt_succ_self d

/-- The outline of some trees does not begin like something less deep. -/
theorem Shallow.ne_outline {rest rest' : List (Nat × String)} (h : Shallow d rest) (t : Tree)
    (ts : List Tree) : rest ≠ outline d (t :: ts) ++ rest' := by
  rintro rfl
  refine Nat.lt_irrefl d (h (d, t.title) ?_)
  rw [outline_cons]
  rfl

/-- Trees and what comes behind them can be read off an outline. -/
theorem skeletons_eq_of_outline {rest rest' : List (Nat × String)} (hts : ∀ t ∈ ts, t.Legible)
    (hus : ∀ u ∈ us, u.Legible) (hr : Shallow d rest) (hr' : Shallow d rest')
    (h : outline d ts ++ rest = outline d us ++ rest') :
    skeletons ts = skeletons us ∧ rest = rest' := by
  induction d, ts using listed.induct generalizing us rest rest' with
  | case1 d =>
    rw [outline_nil, List.nil_append] at h
    cases us with
    | nil => exact ⟨rfl, by rwa [outline_nil, List.nil_append] at h⟩
    | cons u us => exact absurd h (hr.ne_outline u us)
  | case2 d t ts ihc ih =>
    cases us with
    | nil =>
      rw [outline_nil, List.nil_append] at h
      exact absurd h.symm (hr'.ne_outline t ts)
    | cons u us =>
      rw [List.forall_mem_cons] at hts hus
      simp only [outline_cons, List.cons_append, List.append_assoc] at h
      obtain ⟨hhead, htail⟩ := List.cons.inj h
      -- The children end where the siblings begin, and these where the rest does.
      obtain ⟨hchildren, hsiblings⟩ := ihc hts.1.children hus.1.children (hr.behind ts)
        (hr'.behind us) htail
      obtain ⟨hskeletons, hrest⟩ := ih hts.2 hus.2 hr hr' hsiblings
      have hroot := hts.1.skeleton_eq hus.1 (Prod.mk.inj hhead).2 hchildren
      exact ⟨by rw [skeletons, skeletons, hroot, hskeletons], hrest⟩

/-- The skeleton of a tree tells the title of its root and the skeletons below. -/
theorem title_eq_of_skeleton (h : t.skeleton = u.skeleton) :
    t.title = u.title ∧ skeletons t.children = skeletons u.children := by
  cases t with
  | branch n rule ts =>
    cases u with
    | branch m rule' us =>
      rw [skeleton, skeleton] at h
      exact Skeleton.branch.inj h
    | leaf k =>
      rw [skeleton, skeleton] at h
      cases h
  | leaf l =>
    cases u with
    | branch m rule' us =>
      rw [skeleton, skeleton] at h
      cases h
    | leaf k =>
      rw [skeleton, skeleton] at h
      exact ⟨by rw [title, title, Skeleton.leaf.inj h], rfl⟩

/-- The skeletons of trees tell what is shown of them. -/
theorem outline_eq_of_skeletons (h : skeletons ts = skeletons us) :
    outline d ts = outline d us := by
  induction d, ts using listed.induct generalizing us with
  | case1 d =>
    cases us with
    | nil => rfl
    | cons u us => cases h
  | case2 d t ts ihc ih =>
    cases us with
    | nil => cases h
    | cons u us =>
      rw [skeletons, skeletons] at h
      obtain ⟨hroot, hrest⟩ := List.cons.inj h
      obtain ⟨htitle, hchildren⟩ := title_eq_of_skeleton hroot
      rw [outline_cons, outline_cons, htitle, ihc hchildren, ih hrest]

/-- Titles that begin with no bar and do not break the line. -/
def Marked (x : List (Nat × String)) : Prop :=
  ∀ a ∈ x, a.2.toList.head? ≠ some '|' ∧ '\n' ∉ a.2.toList

theorem Marked.bars {x : List (Nat × String)} (h : Marked x) : ∀ b ∈ x.map bars, '\n' ∉ b := by
  intro b hb hline
  obtain ⟨a, ha, rfl⟩ := List.mem_map.1 hb
  rcases List.mem_append.1 hline with hbar | htitle
  · exact absurd (List.eq_of_mem_replicate hbar) (by decide)
  · exact (h a ha).2 htitle

/-- Depths and titles are told by the lines. -/
theorem Marked.bars_inj {x y : List (Nat × String)} (hx : Marked x) (hy : Marked y)
    (h : x.map Tree.bars = y.map Tree.bars) : x = y := by
  induction x generalizing y with
  | nil => exact (List.map_eq_nil_iff.1 h.symm).symm
  | cons a x ih =>
    cases y with
    | nil => cases h
    | cons b y =>
      rw [Marked, List.forall_mem_cons] at hx hy
      obtain ⟨hhead, htail⟩ := List.cons.inj h
      obtain ⟨hdepth, htitle⟩ := Tree.bars_inj hx.1.1 hy.1.1 hhead
      rw [Prod.ext hdepth (String.toList_inj.1 htitle), ih hx.2 hy.2 htail]

theorem Legible.marked (h : t.Legible) : Marked (outline d [t]) := by
  intro a ha
  obtain ⟨t', ht', u, hu, htitle⟩ := mem_outline ha
  obtain rfl := List.mem_singleton.1 ht'
  rw [htitle]
  exact (h.of_occurs hu).title

/-- A legible tree is shown in one line for each node. -/
theorem Legible.render_lines (h : t.Legible) :
    ∃ lines : List String, lines.length = t.size ∧ (∀ line ∈ lines, '\n' ∉ line.toList) ∧
      t.render = String.join (lines.map (· ++ "\n")) := by
  refine ⟨((outline 0 [t]).map bars).map String.ofList, ?_, ?_, String.toList_inj.1 ?_⟩
  · rw [List.length_map, List.length_map, length_outline, sizes, sizes, Nat.add_zero]
  · intro line hline
    obtain ⟨b, hb, rfl⟩ := List.mem_map.1 hline
    rw [String.toList_ofList]
    exact h.marked.bars b hb
  · rw [toList_render, String.toList_join, List.flatMap_map, List.flatMap_map, List.flatMap_map,
      List.flatMap_map]
    refine List.flatMap_congr fun b _ => ?_
    rw [String.toList_append, String.toList_ofList]
    rfl

/-- Of two legible trees the same is shown just if they have the same skeleton, and each is
    shown in one line for each node. -/
theorem render_faithful (ht : t.Legible) (hu : u.Legible) :
    (t.render = u.render ↔ t.skeleton = u.skeleton) ∧
      ∃ lines : List String, lines.length = t.size ∧ (∀ line ∈ lines, '\n' ∉ line.toList) ∧
        t.render = String.join (lines.map (· ++ "\n")) := by
  refine ⟨⟨fun h => ?_, fun h => ?_⟩, ht.render_lines⟩
  · have hlines := congrArg String.toList h
    rw [toList_render, toList_render] at hlines
    have houtline := ht.marked.bars_inj hu.marked
      (lines_inj ht.marked.bars hu.marked.bars hlines)
    have hshallow : Shallow 0 [] := fun _ hx => nomatch hx
    obtain ⟨hskeletons, -⟩ := skeletons_eq_of_outline (List.forall_mem_singleton.2 ht)
      (List.forall_mem_singleton.2 hu) hshallow hshallow (congrArg (· ++ []) houtline)
    exact (List.cons.inj hskeletons).1
  · have hskeletons : skeletons [t] = skeletons [u] := by
      rw [skeletons, skeletons, skeletons, h, skeletons]
    refine String.toList_inj.1 ?_
    rw [toList_render, toList_render, outline_eq_of_skeletons hskeletons]

/-- A tree with a branch without a name next to a leaf whose text is a bar in quotes. -/
def apart : Tree :=
  branch "S" .epsilon [branch "" .epsilon [], leaf (.compound "N" "'|'")]

/-- The same nodes, with the leaf below the branch. -/
def nested : Tree :=
  branch "S" .epsilon [branch "" .epsilon [leaf (.compound "N" "'|'")]]

/-- Two trees of the same nodes in the same order are told apart. -/
theorem render_faithful_apart :
    apart.Legible ∧ nested.Legible ∧ apart.render ≠ nested.render ∧
      ∃ lines : List String, lines.length = 3 ∧ (∀ line ∈ lines, '\n' ∉ line.toList) ∧
        apart.render = String.join (lines.map (· ++ "\n")) := by
  have hleaf : (leaf (.compound "N" "'|'")).Legible := legible_leaf (by decide)
  have hapart : apart.Legible := by
    refine legible_branch (by decide)
      (List.forall_mem_cons.2 ⟨?_, List.forall_mem_singleton.2 hleaf⟩)
    exact legible_branch (by decide) fun c hc => nomatch hc
  have hnested : nested.Legible :=
    legible_branch (by decide) (List.forall_mem_singleton.2
      (legible_branch (by decide) (List.forall_mem_singleton.2 hleaf)))
  obtain ⟨hshown, hlines⟩ := render_faithful hapart hnested
  refine ⟨hapart, hnested, fun h => ?_, hlines⟩
  have hskeletons := hshown.1 h
  simp [apart, nested, skeleton, skeletons] at hskeletons

end Tree

end Ramify
