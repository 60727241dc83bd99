import Ramify.Flat.Rule

/-!
# Syntax trees

What a successful parse gives: branches, each with the name and the rule it
was expanded with, and leaves. A leaf is a matched terminal, a character of a
class, the end of the input, a placeholder for a name that was expanded to
nothing, or a whole subtree collapsed into its text.

The text of a tree (`Tree.text`) is that of its leaves from left to right: the
input that was consumed. A tree is shown (`Tree.render`) one node a line, each
line beginning with a bar for every level of depth; branches show their name
and leaves their text in quotes.

Trees can be as deep as the input is long. Everything here that runs over a
tree does so by a list of nodes still to be met (`Tree.walk`), so that depth is
no concern.
-/

namespace Ramify

/-- The end of a branch. -/
inductive Leaf where
  /-- A matched terminal. -/
  | terminal (t : Terminal)
  /-- A character and the class that matched it. -/
  | char (k : CharClass) (value : Char)
  /-- The end of the input. -/
  | endOfInput
  /-- A placeholder without text. -/
  | empty
  /-- A subtree collapsed into its text. -/
  | compound (name value : String)

namespace Leaf

/-- Equality of leaves, where character classes are compared by name. -/
def beq : Leaf → Leaf → Bool
  | terminal s, terminal t => s == t
  | char j c, char k d => j == k && c == d
  | endOfInput, endOfInput => true
  | empty, empty => true
  | compound n v, compound m w => n == m && v == w
  | _, _ => false

instance : BEq Leaf := ⟨beq⟩

/-- The text a leaf stands for. -/
def text : Leaf → String
  | terminal t => t.literal
  | char _ c => String.singleton c
  | endOfInput | empty => ""
  | compound _ v => v

/-- Whether a leaf has no text. -/
def isEmpty : Leaf → Bool
  | terminal _ | char .. => false
  | endOfInput | empty => true
  | compound _ v => v.isEmpty

/-- The name of a collapsed subtree. -/
def name? : Leaf → Option String
  | compound n _ => some n
  | _ => none

end Leaf

/-- A syntax tree. -/
inductive Tree where
  /-- A name, the rule it was expanded with, and what that gave. -/
  | branch (name : String) (rule : Flat.Rule) (children : List Tree)
  /-- The end of a branch. -/
  | leaf (l : Leaf)

namespace Tree

instance : Inhabited Tree := ⟨leaf .empty⟩

/-- Whether a tree is a branch. -/
def isBranch : Tree → Bool
  | branch .. => true
  | leaf _ => false

/-- The nodes right below the root. -/
def children : Tree → List Tree
  | branch _ _ ts => ts
  | leaf _ => []

/-- The name of a branch or of a collapsed subtree. -/
def name? : Tree → Option String
  | branch n _ _ => some n
  | leaf l => l.name?

/-- Whether a tree is a leaf without text. -/
def isEmptyLeaf : Tree → Bool
  | branch .. => false
  | leaf l => l.isEmpty

/-! ### Size -/

mutual

/-- The number of nodes. -/
def size : Tree → Nat
  | branch _ _ ts => sizes ts + 1
  | leaf _ => 1

/-- The number of nodes of several trees. -/
def sizes : List Tree → Nat
  | [] => 0
  | t :: ts => size t + sizes ts

end

theorem size_pos (t : Tree) : 0 < t.size := by
  cases t <;> simp [size]

theorem size_eq (t : Tree) : t.size = sizes t.children + 1 := by
  cases t <;> simp [size, sizes, children]

theorem sizes_append (ts us : List Tree) : sizes (ts ++ us) = sizes ts + sizes us := by
  induction ts with
  | nil => simp [sizes]
  | cons t ts ih => simp only [List.cons_append, sizes, ih]; omega

/-! ### Walking -/

/-- The trees of a list of trees with their depths. -/
def forest (ts : List (Nat × Tree)) : List Tree := ts.map (·.2)

/-- Meets the nodes of the trees `todo`, each before its children, and lists
    them behind those `met` already, which are listed backwards. -/
def walk (todo met : List (Nat × Tree)) : List (Nat × Tree) :=
  match todo with
  | [] => met.reverse
  | (depth, t) :: rest =>
    walk (t.children.map (fun c => (depth + 1, c)) ++ rest) ((depth, t) :: met)
termination_by sizes (forest todo)
decreasing_by
  simp only [forest, List.map_append, List.map_map, List.map_cons, sizes, sizes_append, size_eq]
  rw [show (fun x : Nat × Tree => x.2) ∘ (fun c => (depth + 1, c)) = id from rfl, List.map_id]
  omega

/-- All nodes with their depths, each before its children. -/
def preorder (t : Tree) : List (Nat × Tree) := walk [(0, t)] []

/-! ### Text -/

/-- The text that a node itself contributes: that of a leaf. -/
def ownText : Tree → String
  | branch .. => ""
  | leaf l => l.text

/-- The text of all leaves, from left to right. -/
def text (t : Tree) : String := String.join (t.preorder.map fun (_, n) => n.ownText)

/-- What is shown of a node. -/
def title : Tree → String
  | branch n _ _ => n
  | leaf l => "'" ++ l.text ++ "'"

/-- The line of a node at a depth. -/
def line (depth : Nat) (t : Tree) : String :=
  "".pushn '|' depth ++ t.title ++ "\n"

/-- A tree as text, one node a line. -/
def render (t : Tree) : String := String.join (t.preorder.map fun (depth, n) => n.line depth)

/-- The number of lines a tree is shown in: one for every node, and one more
    for every line break in what is shown of it. -/
def lineCount (t : Tree) : Nat :=
  t.preorder.foldl (fun count (_, n) => count + (n.title.toList.count '\n' + 1)) 0

/-! ### Equality -/

/-- Whether two nodes agree, apart from what is below them. -/
def sameNode : Tree → Tree → Bool
  | branch n r ts, branch m s us => n == m && r == s && ts.length == us.length
  | leaf l, leaf k => l == k
  | _, _ => false

/-- Whether the trees of all pairs agree. -/
def beqAll (pairs : List (Tree × Tree)) : Bool :=
  match pairs with
  | [] => true
  | (t, u) :: rest => sameNode t u && beqAll (t.children.zip u.children ++ rest)
termination_by sizes (pairs.map (·.1))
decreasing_by
  have zipped : ∀ ts us : List Tree, sizes ((ts.zip us).map (·.1)) ≤ sizes ts := by
    intro ts
    induction ts with
    | nil => simp [sizes]
    | cons t ts ih =>
      intro us
      cases us with
      | nil => simp [sizes]
      | cons u us => simpa [sizes] using ih us
  simp only [List.map_append, List.map_cons, sizes, sizes_append, size_eq]
  have := zipped t.children u.children
  omega

/-- Equality of trees, where character classes are compared by name. -/
def beq (t u : Tree) : Bool := beqAll [(t, u)]

instance : BEq Tree := ⟨beq⟩

end Tree

end Ramify
