/-!
# Lineages

The *owners* of a grove form a forest: an owner is either the first of its
kind or was forked off another one. Deciding who may see whose work comes down
to one question, which owner of a given depth an owner descends from
(`Lineage.ancestorAt`).

Following the links to the parents answers it in as many steps as the lineage
is long. So every owner but the first also has a *skip link* to an ancestor
further up. The skip links are laid out like the digits of a skew-binary
number: an owner skips as far as its parent and the target of its parent's
skip link do together when those two jumps have the same length, and only to
its parent otherwise. Along such links any ancestor is reached in a number of
steps logarithmic in the depth.

Owners are numbered in the order of their creation; an owner comes after all
of its ancestors.
-/

namespace Ramify.Fork

/-- The place of an owner in its lineage. -/
structure Owner where
  /-- How many ancestors there are. -/
  depth : Nat
  /-- The owner this one was forked off. -/
  parent : Option Nat
  /-- An ancestor to jump to; the first owner of a lineage has none. -/
  skip : Option Nat
  deriving DecidableEq

/-- All owners, in the order of their creation. -/
structure Lineage where
  /-- The owners. -/
  owners : Array Owner

namespace Lineage

/-- No owners. -/
def empty : Lineage := ⟨#[]⟩

/-- The number of owners, which is the number the next one gets. -/
def size (l : Lineage) : Nat := l.owners.size

/-- The depth of an owner. -/
def depth (l : Lineage) (o : Nat) : Nat :=
  match l.owners[o]? with
  | some w => w.depth
  | none => 0

/-- The parent of an owner. -/
def parent? (l : Lineage) (o : Nat) : Option Nat := l.owners[o]?.bind (·.parent)

/-- The target of the skip link of an owner. The first owner of a lineage
    skips to itself. -/
def skipTarget (l : Lineage) (o : Nat) : Nat :=
  match l.owners[o]?.bind (·.skip) with
  | some s => s
  | none => o

/-- Where an owner forked off `parent` skips to. -/
def skipFrom (l : Lineage) (parent : Nat) : Nat :=
  let first := l.skipTarget parent
  let second := l.skipTarget first
  if l.depth parent - l.depth first = l.depth first - l.depth second then second else parent

/-- A new owner without ancestors, numbered `l.size`. -/
def addFirst (l : Lineage) : Lineage := ⟨l.owners.push ⟨0, none, none⟩⟩

/-- A new owner forked off `parent`, numbered `l.size`. -/
def addFork (parent : Nat) (l : Lineage) : Lineage :=
  ⟨l.owners.push ⟨l.depth parent + 1, some parent, some (l.skipFrom parent)⟩⟩

/-- The next owner to look at on the way up to `depth`: along the skip link
    if that does not go too far, and the parent otherwise. -/
def climb (l : Lineage) (depth : Nat) (w : Owner) : Option Nat :=
  match w.skip with
  | some s => if depth ≤ l.depth s then some s else w.parent
  | none => w.parent

/-- The ancestor of an owner at a depth, the owner itself included. Owners
    come after their ancestors, so that the way up has an end. -/
def ancestorAt (l : Lineage) (depth o : Nat) : Option Nat :=
  match l.owners[o]? with
  | none => none
  | some w =>
    if w.depth < depth then none
    else if w.depth = depth then some o
    else
      match l.climb depth w with
      | none => none
      | some up => if up < o then ancestorAt l depth up else none
termination_by o

/-- Whether `ancestor` is `o` or one of its ancestors. -/
def includes (l : Lineage) (o ancestor : Nat) : Bool :=
  l.ancestorAt (l.depth ancestor) o == some ancestor

end Lineage

end Ramify.Fork
