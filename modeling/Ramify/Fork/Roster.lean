import Ramify.Error

/-!
# Handles

A structure that several users share is reached through *handles*. A handle
can be forked into any number of new ones, which start from the same place and
then go their own ways; the forked handle itself is *blocked* and refuses all
further use. A handle that is not needed any more is *dropped*.

A `Roster` keeps the handles of one structure, numbered in the order of their
creation, together with what each of them holds. What is shared lies outside:
the roster of a stack holds positions in the stack, for instance.
-/

namespace Ramify.Fork

/-- How a handle stands, and what it holds. -/
inductive Standing (α : Type) where
  /-- The handle can be used. -/
  | live (value : α)
  /-- The handle was forked; it keeps what it held. -/
  | blocked (value : α)
  /-- The handle was given up. -/
  | dropped

namespace Standing

variable {α : Type}

/-- What a handle holds, unless it was dropped. -/
def value? : Standing α → Option α
  | live a | blocked a => some a
  | dropped => none

/-- A live handle is blocked; any other stays as it is. -/
def block : Standing α → Standing α
  | live a => blocked a
  | s => s

/-- Changes what a live handle holds. -/
def update (f : α → α) : Standing α → Standing α
  | live a => live (f a)
  | s => s

end Standing

/-- The handles of a structure. -/
structure Roster (α : Type) where
  /-- The handles in the order of their creation. -/
  standings : Array (Standing α)

namespace Roster

variable {α : Type}

/-- No handles. -/
def empty : Roster α := ⟨#[]⟩

instance : Inhabited (Roster α) := ⟨empty⟩

/-- The number of handles ever created, which is the number the next one gets. -/
def size (r : Roster α) : Nat := r.standings.size

/-- A new handle, numbered `r.size`. -/
def add (a : α) (r : Roster α) : Roster α := ⟨r.standings.push (.live a)⟩

/-- `count` new handles that hold the same. -/
def addMany (a : α) : Nat → Roster α → Roster α
  | 0, r => r
  | count + 1, r => addMany a count (r.add a)

/-- What a handle holds, be it blocked or not. -/
def value? (r : Roster α) (h : Nat) : Option α := r.standings[h]?.bind Standing.value?

/-- What a handle holds, if it can be used. -/
def use (r : Roster α) (h : Nat) : Except ForkError α :=
  match r.standings[h]? with
  | some (.live a) => .ok a
  | _ => .error .alreadyForked

/-- Whether a handle was forked. -/
def isBlocked (r : Roster α) (h : Nat) : Bool :=
  match r.standings[h]? with
  | some (.blocked _) => true
  | _ => false

/-- Whether a handle exists and was not dropped. -/
def isPresent (r : Roster α) (h : Nat) : Bool := (r.value? h).isSome

/-- Changes what a live handle holds. -/
def update (h : Nat) (f : α → α) (r : Roster α) : Roster α :=
  ⟨r.standings.modify h (Standing.update f)⟩

/-- Blocks a handle. -/
def block (h : Nat) (r : Roster α) : Roster α := ⟨r.standings.modify h Standing.block⟩

/-- Gives a handle up. -/
def drop (h : Nat) (r : Roster α) : Roster α := ⟨r.standings.modify h fun _ => .dropped⟩

/-- The numbers of `count` handles from `first` on. -/
def numbers (first count : Nat) : List Nat := List.range' first count

/-- Blocks a handle and adds `count` new ones that hold the same; gives their
    numbers. Nothing happens to a handle that cannot be used. -/
def split (h count : Nat) (r : Roster α) : List Nat × Roster α :=
  match r.use h with
  | .error _ => ([], r)
  | .ok a => (numbers r.size count, (r.block h).addMany a count)

/-- Forks a handle: it is blocked, and `count` new ones hold the same. -/
def fork (h count : Nat) (r : Roster α) : Except ForkError (List Nat × Roster α) :=
  match r.use h with
  | .error e => .error e
  | .ok _ => .ok (r.split h count)

end Roster

end Ramify.Fork
