import Ramify.Fork.Lineage
import Ramify.Fork.Roster

/-!
# Groves

A grove is a store of trees that many users grow at the same time without
getting into each other's way. The nodes are shared by all handles that can
reach them. What a handle sees below a branch depends on who wrote it: a branch
keeps one list of children for every *owner* that added some, an owner being
the identity of a handle. A handle sees the lists of its own owner and of all
owners it descends from by forking, oldest first, and never those of its
siblings. Forking a tree is therefore free of copying.

Every tree has a *root* and every handle a *marker*, a node of its choice that
starts out at the root and is passed on to forks.

An owner lives while its handle or that of a descendant is in use. When it
dies, its lists vanish from all branches it wrote to. A branch *lives* while
somebody can reach it: it is held from outside, it is the root or the marker
of a handle, or it stands in a remaining list of a living branch. The `parent`
of a node is only given while it lives.
-/

namespace Ramify.Fork

/-- What a node carries. -/
inductive Label (β κ : Type) where
  /-- A node that may have children. -/
  | branch (data : β)
  /-- A node without children. -/
  | leaf (data : κ)

namespace Label

variable {β κ : Type}

/-- Whether a node may have children. -/
def isBranch : Label β κ → Bool
  | branch _ => true
  | leaf _ => false

/-- A label with what it carries, given how that is described. -/
def describe (ofBranch : β → String) (ofLeaf : κ → String) : Label β κ → String
  | branch b => "Branch(" ++ ofBranch b ++ ")"
  | leaf k => "Leaf(" ++ ofLeaf k ++ ")"

end Label

/-- The children of a branch written by one owner. -/
structure Brood where
  /-- The owner. -/
  owner : Nat
  /-- The children, in the order in which they were added. -/
  children : List Nat

/-- A node and its place. -/
structure Node (β κ : Type) where
  /-- What the node carries. -/
  label : Label β κ
  /-- The branch the node was added to; roots have none. -/
  link : Option Nat
  /-- The children by owner, in the order in which the owners first wrote. -/
  broods : List Brood
  /-- Whether the node is held from outside. -/
  held : Bool

/-- What a handle is about. -/
structure Place where
  /-- The root of the tree. -/
  root : Nat
  /-- The marked node. -/
  marker : Nat
  deriving DecidableEq

/-- What an owner leaves behind. -/
structure Estate where
  /-- How many living owners were forked off it directly. -/
  heirs : Nat
  /-- The branches with a list of its own. -/
  written : List Nat

/-- Trees with shared nodes. Handles and owners have the same numbers. -/
structure Grove (β κ : Type) where
  /-- The nodes, in the order of their creation. -/
  nodes : Array (Node β κ)
  /-- The descent of the owners. -/
  lineage : Lineage
  /-- What each owner leaves behind. -/
  estates : Array Estate
  /-- The handles. -/
  roster : Roster Place

namespace Grove

variable {β κ : Type}

/-- No trees. -/
def empty : Grove β κ := ⟨#[], .empty, #[], .empty⟩

/-- A node. -/
def node? (g : Grove β κ) (n : Nat) : Option (Node β κ) := g.nodes[n]?

/-- What a node carries. -/
def label? (g : Grove β κ) (n : Nat) : Option (Label β κ) := (g.node? n).map (·.label)

/-- The branch a node was added to, whether it still lives or not. -/
def link? (g : Grove β κ) (n : Nat) : Option Nat := (g.node? n).bind (·.link)

/-- Whether a node may have children. -/
def isBranch (g : Grove β κ) (n : Nat) : Bool := (g.label? n).any (·.isBranch)

/-! ### Planting and growing -/

/-- A new tree of one node, with the handle `g.roster.size` and the node
    `g.nodes.size`. -/
def plant (label : Label β κ) (g : Grove β κ) : Grove β κ where
  nodes := g.nodes.push ⟨label, none, [], false⟩
  lineage := g.lineage.addFirst
  estates := g.estates.push ⟨0, []⟩
  roster := g.roster.add ⟨g.nodes.size, g.nodes.size⟩

/-- Adds a child to the list of an owner, if it has one. -/
def extendBrood (owner child : Nat) : List Brood → Option (List Brood)
  | [] => none
  | b :: bs =>
    if b.owner = owner then some (⟨owner, b.children ++ [child]⟩ :: bs)
    else (extendBrood owner child bs).map (b :: ·)

/-- Adds a child for an owner, in a new list behind the others if it has none. -/
def addChild (owner child : Nat) (broods : List Brood) : List Brood :=
  (extendBrood owner child broods).getD (broods ++ [⟨owner, [child]⟩])

/-- Whether an owner has a list at a branch. -/
def hasBrood (g : Grove β κ) (owner n : Nat) : Bool :=
  (g.node? n).any fun b => b.broods.any (·.owner == owner)

/-- Adds the node `g.nodes.size` below a branch, as the work of an owner. -/
def attach (owner n : Nat) (label : Label β κ) (g : Grove β κ) : Grove β κ :=
  let known := g.hasBrood owner n
  let child := g.nodes.size
  { g with
    nodes := (g.nodes.modify n fun b => { b with broods := addChild owner child b.broods }).push
      ⟨label, some n, [], false⟩
    estates :=
      if known then g.estates
      else g.estates.modify owner fun e => { e with written := n :: e.written } }

/-- Adds a child below a branch, which the handle and its later forks see. -/
def append (h n : Nat) (label : Label β κ) (g : Grove β κ) :
    Except ForkError (Nat × Grove β κ) :=
  match g.roster.use h with
  | .error e => .error e
  | .ok _ => .ok (g.nodes.size, g.attach h n label)

/-- Moves the marker of a handle. -/
def mark (h n : Nat) (g : Grove β κ) : Grove β κ :=
  { g with roster := g.roster.update h fun p => { p with marker := n } }

/-- Moves the marker of a handle that can be used. -/
def setMarker (h n : Nat) (g : Grove β κ) : Except ForkError (Grove β κ) :=
  match g.roster.use h with
  | .error e => .error e
  | .ok _ => .ok (g.mark h n)

/-! ### Looking -/

/-- The root of the tree of a handle. -/
def root (g : Grove β κ) (h : Nat) : Except ForkError Nat := (g.roster.use h).map (·.root)

/-- The marker of a handle. -/
def marker (g : Grove β κ) (h : Nat) : Except ForkError Nat := (g.roster.use h).map (·.marker)

/-- The children of a node that an owner sees. -/
def visible (g : Grove β κ) (owner n : Nat) : List Nat :=
  match g.node? n with
  | none => []
  | some b => (b.broods.filter fun l => g.lineage.includes owner l.owner).flatMap (·.children)

/-- How many children of a node an owner sees. -/
def visibleCount (g : Grove β κ) (owner n : Nat) : Nat :=
  match g.node? n with
  | none => 0
  | some b =>
    (b.broods.filter fun l => g.lineage.includes owner l.owner).foldl
      (fun count l => count + l.children.length) 0

/-- The children of a node that a handle sees. -/
def children (g : Grove β κ) (h n : Nat) : Except ForkError (List Nat) :=
  (g.roster.use h).map fun _ => g.visible h n

/-- How many children of a node a handle sees. -/
def childCount (g : Grove β κ) (h n : Nat) : Except ForkError Nat :=
  (g.roster.use h).map fun _ => g.visibleCount h n

/-- How many owners have a list at a node, seen or not. -/
def ownerCount (g : Grove β κ) (n : Nat) : Nat :=
  match g.node? n with
  | none => 0
  | some b => b.broods.length

/-- A node met on a walk. -/
structure Visit where
  /-- How deep below the start it lies. -/
  depth : Nat
  /-- The node. -/
  node : Nat
  /-- How many children are seen below it. -/
  arity : Nat

/-- Walks the nodes still to be met, each before its children, and lists them
    in front of `met`, the last one first. Every node is met at most once, so
    that as many steps as there are nodes are enough. -/
def walk (g : Grove β κ) (owner : Nat) : Nat → List (Nat × Nat) → List Visit → List Visit
  | 0, _, met => met
  | _, [], met => met
  | steps + 1, (depth, n) :: rest, met =>
    let below := g.visible owner n
    walk g owner steps (below.map (fun c => (depth + 1, c)) ++ rest)
      (⟨depth, n, below.length⟩ :: met)

/-- What an owner sees from a node downwards, each node after its descendants
    to the right and below. -/
def reversePreorder (g : Grove β κ) (owner n : Nat) : List Visit :=
  g.walk owner (g.nodes.size + 1) [(0, n)] []

/-- What an owner sees from a node downwards, each node before its children. -/
def preorder (g : Grove β κ) (owner n : Nat) : List Visit := (g.reversePreorder owner n).reverse

/-! ### Forking and dropping -/

/-- `count` owners forked off `parent`. -/
def addForks (parent : Nat) : Nat → Lineage → Lineage
  | 0, l => l
  | count + 1, l => addForks parent count (l.addFork parent)

/-- Forks a handle that can be used: each fork gets an owner of its own. -/
def split (h count : Nat) (g : Grove β κ) : List Nat × Grove β κ :=
  let (hs, roster) := g.roster.split h count
  (hs, { g with
    roster := roster
    lineage := addForks h hs.length g.lineage
    estates := (g.estates.modify h fun e => { e with heirs := e.heirs + hs.length }) ++
      Array.replicate hs.length ⟨0, []⟩ })

/-- Forks a handle. -/
def fork (h count : Nat) (g : Grove β κ) : Except ForkError (List Nat × Grove β κ) :=
  match g.roster.use h with
  | .error e => .error e
  | .ok _ => .ok (g.split h count)

/-- Removes the list of an owner from a branch. -/
def eraseBrood (owner : Nat) (g : Grove β κ) (n : Nat) : Grove β κ :=
  { g with
    nodes := g.nodes.modify n fun b => { b with broods := b.broods.filter (·.owner != owner) } }

/-- Removes all lists of an owner. -/
def release (owner : Nat) (g : Grove β κ) : Grove β κ :=
  match g.estates[owner]? with
  | none => g
  | some e => e.written.foldl (eraseBrood owner) g

/-- How many living owners were forked off an owner directly. -/
def heirs (g : Grove β κ) (owner : Nat) : Nat :=
  match g.estates[owner]? with
  | some e => e.heirs
  | none => 0

/-- Lets an owner die if its handle is dropped and no living owner was forked
    off it; its parent then has one heir less and may die, too. -/
def settle (owner : Nat) (g : Grove β κ) : Grove β κ :=
  if g.roster.isPresent owner || g.heirs owner != 0 then g
  else
    match g.lineage.parent? owner with
    | none => g.release owner
    | some p =>
      if p < owner then
        let g := g.release owner
        settle p { g with
          estates := g.estates.modify p fun e => { e with heirs := e.heirs - 1 } }
      else g.release owner
termination_by owner

/-- Gives a handle up. -/
def drop (h : Nat) (g : Grove β κ) : Grove β κ :=
  if g.roster.isPresent h then settle h { g with roster := g.roster.drop h } else g

/-! ### Living branches -/

/-- Holds a node from outside, or lets go of it. -/
def setHeld (n : Nat) (held : Bool) (g : Grove β κ) : Grove β κ :=
  { g with nodes := g.nodes.modify n fun b => { b with held := held } }

/-- Whether a node is held from outside. -/
def isHeld (g : Grove β κ) (n : Nat) : Bool := (g.node? n).any (·.held)

/-- Whether a node is the root or the marker of a handle that was not dropped. -/
def isPlace (g : Grove β κ) (n : Nat) : Bool :=
  g.roster.standings.any fun s => s.value?.any fun p => p.root == n || p.marker == n

/-- Whether a node stands in a list of another one. -/
def isListed (g : Grove β κ) (parent n : Nat) : Bool :=
  (g.node? parent).any fun b => b.broods.any (·.children.contains n)

/-- Whether somebody can reach a node. -/
def lives (g : Grove β κ) (n : Nat) : Bool :=
  g.isHeld n || g.isPlace n ||
    match g.link? n with
    | none => false
    | some p => if p < n then g.isListed p n && lives g p else false
termination_by n

/-- The branch a node was added to, while it lives. -/
def parent (g : Grove β κ) (h n : Nat) : Except ForkError (Option Nat) :=
  (g.roster.use h).map fun _ => (g.link? n).filter g.lives

/-- A handle with its owner and whether it is blocked. -/
def describe (g : Grove β κ) (h : Nat) : String :=
  "ForkableTree \x7b owner: " ++ toString h ++ ", blocked: " ++ toString (g.roster.isBlocked h) ++
    ", .. \x7d"

end Grove

end Ramify.Fork
