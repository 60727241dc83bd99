import Ramify.Fork.Roster

/-!
# Forkable stacks

Stacks that share their lower parts. The elements lie in *cells*, each of
which knows the cell below it, and a handle is a position: the cell on top, or
none for the empty stack. Pushing puts a new cell above the position, pulling
moves the position down and leaves the cell where it is, so that forks of a
handle never see each other's doings.

Two handles are *identical* when they stand on the very same cell. Equal
elements in different cells do not count.
-/

namespace Ramify.Fork

/-- An element in its place. -/
structure Cell (α : Type) where
  /-- The element. -/
  value : α
  /-- The cell below, unless this is the bottom. -/
  below : Option Nat
  /-- The number of elements up to here. -/
  depth : Nat

/-- Stacks with shared cells; a handle holds the cell on top. -/
structure Stacks (α : Type) where
  /-- All cells, in the order in which they were pushed. -/
  cells : Array (Cell α)
  /-- The handles. -/
  roster : Roster (Option Nat)

namespace Stacks

variable {α : Type}

/-- No stacks. -/
def empty : Stacks α := ⟨#[], .empty⟩

/-- The cell at a position. -/
def cell? (s : Stacks α) (position : Option Nat) : Option (Cell α) :=
  position.bind fun i => s.cells[i]?

/-- The number of elements up to a position. -/
def depthAt (s : Stacks α) (position : Option Nat) : Nat :=
  match s.cell? position with
  | some c => c.depth
  | none => 0

/-- A new empty stack, with the handle `s.roster.size`. -/
def create (s : Stacks α) : Stacks α := { s with roster := s.roster.add none }

/-- Puts an element on top. -/
def push (h : Nat) (a : α) (s : Stacks α) : Except ForkError (Stacks α) :=
  match s.roster.use h with
  | .error e => .error e
  | .ok top =>
    let depth := s.depthAt top + 1
    let position := s.cells.size
    .ok {
      cells := s.cells.push ⟨a, top, depth⟩
      roster := s.roster.update h fun _ => some position }

/-- Puts several elements on top, the last one highest. -/
def pushAll (h : Nat) : List α → Stacks α → Except ForkError (Stacks α)
  | [], s => .ok s
  | a :: as, s =>
    match s.push h a with
    | .error e => .error e
    | .ok s => pushAll h as s

/-- The element on top. -/
def peek (s : Stacks α) (h : Nat) : Except ForkError (Option α) :=
  (s.roster.use h).map fun top => (s.cell? top).map (·.value)

/-- Takes the element on top away. -/
def pull (h : Nat) (s : Stacks α) : Except ForkError (Option α × Stacks α) :=
  match s.roster.use h with
  | .error e => .error e
  | .ok top =>
    match s.cell? top with
    | none => .ok (none, s)
    | some c => .ok (some c.value, { s with roster := s.roster.update h fun _ => c.below })

/-- The number of elements. -/
def length (s : Stacks α) (h : Nat) : Except ForkError Nat :=
  (s.roster.use h).map s.depthAt

/-- Whether there is no element. -/
def isEmpty (s : Stacks α) (h : Nat) : Except ForkError Bool :=
  (s.roster.use h).map (·.isNone)

/-- Whether two handles stand on the same cell. Blocked handles keep their
    position. -/
def identical (s : Stacks α) (h₁ h₂ : Nat) : Bool :=
  s.roster.value? h₁ == s.roster.value? h₂

/-- Forks a handle. -/
def fork (h count : Nat) (s : Stacks α) : Except ForkError (List Nat × Stacks α) :=
  (s.roster.fork h count).map fun (hs, roster) => (hs, { s with roster := roster })

/-- Takes up to `count` elements away and lists them, the highest first. -/
def pullMany (h : Nat) : Nat → List α → Stacks α → Except ForkError (List α × Stacks α)
  | 0, pulled, s => .ok (pulled.reverse, s)
  | count + 1, pulled, s =>
    match s.pull h with
    | .error e => .error e
    | .ok (none, s) => .ok (pulled.reverse, s)
    | .ok (some a, s) => pullMany h count (a :: pulled) s

/-- Takes all elements away and lists them, the highest first. -/
def drain (h : Nat) (s : Stacks α) : Except ForkError (List α × Stacks α) :=
  match s.length h with
  | .error e => .error e
  | .ok n => s.pullMany h n []

/-- Gives a handle up. -/
def drop (h : Nat) (s : Stacks α) : Stacks α := { s with roster := s.roster.drop h }

end Stacks

end Ramify.Fork
