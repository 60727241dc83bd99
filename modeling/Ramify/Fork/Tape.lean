import Ramify.Fork.Roster

/-!
# Tapes

A tape is a sequence that is produced on demand and remembered, so that any
number of *cursors* can read it, each at its own pace. The elements come from
a *producer*, a state and a function that gives the next element and the next
state, or ends the sequence. Once it has ended the sequence, the producer is
not asked again.

What was produced is kept in a chain of *chunks*. A chunk has ten places, each
of which holds an element or, behind the end of the sequence, nothing; only the
first chunk has no places at all. The chunk behind another one is made when a
cursor first moves on to it, and is found there by all others: for each chunk,
the producer is asked for ten elements at once. Whatever reading ahead brings
about in the producer thus depends on how far the furthest cursor has read,
rounded up to ten, and on nothing else.

A cursor is in front of a place of some chunk, or behind the last one. It knows
how many elements it got, by itself or before it was forked off. At the end of
the sequence reading goes on, through chunks that hold nothing, but yields no
more elements.
-/

namespace Ramify.Fork

/-! ### Producers -/

/-- What produces a sequence. -/
structure Producer (σ α : Type) where
  /-- The next element and the next state of the producer. -/
  produce : σ → Option α × σ
  /-- The state of the producer. -/
  state : σ
  /-- Whether the producer has ended the sequence. -/
  exhausted : Bool
  /-- How many times the producer was asked. -/
  calls : Nat

namespace Producer

variable {σ α : Type}

/-- The next element. A producer that has ended the sequence is not asked. -/
def ask (p : Producer σ α) : Option α × Producer σ α :=
  if p.exhausted then (none, p)
  else
    let (item, state) := p.produce p.state
    (item, ⟨p.produce, state, item.isNone, p.calls + 1⟩)

/-- The next few elements. -/
def askFor : Nat → Producer σ α → List (Option α) × Producer σ α
  | 0, p => ([], p)
  | count + 1, p =>
    let (item, p) := p.ask
    let (items, p) := askFor count p
    (item :: items, p)

end Producer

/-! ### Chunks and cursors -/

/-- The number of elements asked for at once. -/
def chunkSize : Nat := 10

/-- A part of a sequence. -/
structure Chunk (α : Type) where
  /-- What its places hold. -/
  items : List (Option α)
  /-- The number of the chunk behind it, once that was made. -/
  next : Option Nat

/-- Where a cursor stands. -/
structure Cursor where
  /-- The number of its chunk. -/
  chunk : Nat
  /-- The place in the chunk that it reads next. -/
  index : Nat
  /-- How many elements it got. -/
  position : Nat
  /-- How many times it was read. This is kept for the record only. -/
  reads : Nat
  deriving DecidableEq

namespace Cursor

/-- A cursor that has read nothing. -/
def start : Cursor := ⟨0, 0, 0, 0⟩

/-- The cursor behind the place it was in front of, with what it found there. -/
def pass {α : Type} (c : Cursor) (item : Option α) : Cursor where
  chunk := c.chunk
  index := c.index + 1
  position := if item.isSome then c.position + 1 else c.position
  reads := c.reads + 1

end Cursor

/-! ### Tapes -/

/-- A sequence produced on demand, and its cursors. -/
structure Tape (σ α : Type) extends Producer σ α where
  /-- The chunks in the order in which they were made. -/
  chunks : Array (Chunk α)
  /-- The cursors. -/
  roster : Roster Cursor

namespace Tape

variable {σ α : Type}

/-- A tape of which nothing was produced yet, with one cursor at its start. -/
def new (produce : σ → Option α × σ) (state : σ) : Tape σ α where
  produce := produce
  state := state
  exhausted := false
  calls := 0
  chunks := #[⟨[], none⟩]
  roster := Roster.empty.add .start

/-- Produces the elements of a list in order. -/
def fromList : List α → Option α × List α
  | [] => (none, [])
  | a :: as => (some a, as)

/-- The tape of a list. -/
def ofList (as : List α) : Tape (List α) α := new fromList as

/-- What the places of a chunk hold. -/
def itemsOf (t : Tape σ α) (i : Nat) : List (Option α) :=
  match t.chunks[i]? with
  | some chunk => chunk.items
  | none => []

/-- The chunk behind a chunk, which is made if nobody has asked for it before. -/
def nextChunk (i : Nat) (t : Tape σ α) : Nat × Tape σ α :=
  match t.chunks[i]?.bind (·.next) with
  | some next => (next, t)
  | none =>
    let ⟨producer, chunks, roster⟩ := t
    let (items, producer) := producer.askFor chunkSize
    let next := chunks.size
    let chunks := chunks.modify i fun chunk => { chunk with next := some next }
    (next, ⟨producer, chunks.push ⟨items, none⟩, roster⟩)

/-- Moves a cursor on to the next chunk if it is behind all places of its own. -/
def turn (c : Cursor) (t : Tape σ α) : Cursor × Tape σ α :=
  if (t.itemsOf c.chunk).length ≤ c.index then
    let (next, t) := t.nextChunk c.chunk
    ({ c with chunk := next, index := 0 }, t)
  else (c, t)

/-- Reads the place in front of a cursor, which moves on. -/
def advance (h : Nat) (t : Tape σ α) : Option α × Tape σ α :=
  match t.roster.use h with
  | .error _ => (none, t)
  | .ok c =>
    let (c, t) := t.turn c
    let item := (t.itemsOf c.chunk)[c.index]?.join
    (item, { t with roster := t.roster.update h fun _ => c.pass item })

/-- Reads the place in front of a cursor: an element, or nothing at the end. -/
def next (h : Nat) (t : Tape σ α) : Except ForkError (Option α × Tape σ α) :=
  match t.roster.use h with
  | .error e => .error e
  | .ok _ => .ok (t.advance h)

/-- Reads several places in a row. -/
def read (h : Nat) : Nat → Tape σ α → Except ForkError (List (Option α) × Tape σ α)
  | 0, t => .ok ([], t)
  | count + 1, t =>
    match t.next h with
    | .error e => .error e
    | .ok (item, t) =>
      match read h count t with
      | .error e => .error e
      | .ok (items, t) => .ok (item :: items, t)

/-- How many elements a cursor got. -/
def position (t : Tape σ α) (h : Nat) : Except ForkError Nat :=
  (t.roster.use h).map (·.position)

/-- Forks a cursor that can be used. -/
def split (h count : Nat) (t : Tape σ α) : List Nat × Tape σ α :=
  let (hs, roster) := t.roster.split h count
  (hs, { t with roster := roster })

/-- Forks a cursor. -/
def fork (h count : Nat) (t : Tape σ α) : Except ForkError (List Nat × Tape σ α) :=
  match t.roster.use h with
  | .error e => .error e
  | .ok _ => .ok (t.split h count)

/-- Gives a cursor up. -/
def drop (h : Nat) (t : Tape σ α) : Tape σ α := { t with roster := t.roster.drop h }

/-- A cursor with its position and whether it is blocked. -/
def describe (t : Tape σ α) (h : Nat) : String :=
  let position := match t.roster.value? h with
    | some c => c.position
    | none => 0
  "ForkableStream \x7b position: " ++ toString position ++ ", blocked: " ++
    toString (t.roster.isBlocked h) ++ ", .. \x7d"

end Tape

end Ramify.Fork
