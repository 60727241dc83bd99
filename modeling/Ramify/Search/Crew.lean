import Ramify.Search.Automaton
import Ramify.Search.Patience

/-!
# Search by a crew

The states are tried by a crew of *workers*, each of which follows one line of
states, and a *coordinator*, to which the workers report. A worker goes round
in a loop:

1. it looks whether the search was called off, and stops if so;
2. it computes the successors of its state. If that fails, or if there is a
   success among them, it reports so and stops. If no unfinished state is
   left, it reports that its line came to nothing and stops;
3. otherwise it goes on with the first unfinished successor. For each of the
   others it hires a new worker, after announcing how many there will be.

The coordinator counts the lines that are still open, beginning with one. It
adds what is announced, takes one off for every line that came to nothing, and
ends the search with the first success or failure that is reported, or when no
line is left. From then on the search is called off.

Reports arrive in the order in which they were sent. Apart from that, workers
and coordinator may take their steps in any order: a *schedule* is any list of
turns (`Crew.run`). The executor of the library (`Crew.search`) is one of the
schedules. It follows one line as far as it goes and then takes up the line of
the worker that was hired last, the one that stands right behind; the
coordinator reads every report at once. Where there are several threads, a long
line does not keep the others waiting forever: after a number of rounds
(`Crew.patience`) the next line has its turn, and the search comes back to the
lines that were left when all had theirs.
-/

namespace Ramify.Search

/-- What a worker tells the coordinator. -/
inductive Report (σ ε : Type) where
  /-- So many new workers are about to start. -/
  | started (count : Nat)
  /-- The line of the worker came to nothing. -/
  | failed
  /-- A success was found. -/
  | succeeded (s : σ)
  /-- The successors of a state could not be computed. -/
  | aborted (e : ε)

/-- Where a worker is in its loop. -/
inductive Worker (σ ε : Type) where
  /-- It is about to look whether the search was called off. -/
  | poll (s : σ)
  /-- It is about to compute the successors of its state. -/
  | compute (s : σ)
  /-- It is about to send its last report. -/
  | conclude (r : Report σ ε)
  /-- It is about to announce new workers for `rest` and to go on with `first`. -/
  | announce (first : σ) (rest : List σ)
  /-- It is about to hire workers for `rest`. -/
  | hire (first : σ) (rest : List σ)

/-- A search in progress. -/
structure Crew (σ ω ε : Type) where
  /-- The workers that have not stopped. -/
  workers : List (Worker σ ε)
  /-- The reports the coordinator has not read, the oldest first. -/
  inbox : List (Report σ ε)
  /-- The number of open lines, by the coordinator's count. -/
  active : Nat
  /-- The end of the search, once the coordinator knows it. The search is
      called off from then on. -/
  verdict : Option (Outcome σ ε)
  /-- The world of the machine. -/
  world : ω

/-- Whose turn it is. -/
inductive Turn where
  /-- The worker at a place in the list. -/
  | worker (i : Nat)
  /-- The coordinator. -/
  | coordinator

namespace Crew

variable {σ ω ε : Type} (a : Automaton σ ω ε)

/-- A crew of one worker. -/
def start (s : σ) (w : ω) : Crew σ ω ε := ⟨[.poll s], [], 1, none, w⟩

/-- What a worker does once it knows the successors of its state. -/
def plan (successors : List σ) : Worker σ ε :=
  match a.firstSuccess successors with
  | some t => .conclude (.succeeded t)
  | none =>
    match a.unfinished successors with
    | [] => .conclude .failed
    | [t] => .poll t
    | t :: rest => .announce t rest

/-- The worker at place `i` takes its next step. A new worker takes the place
    behind the one that hired it. -/
def work (i : Nat) (w : Worker σ ε) (c : Crew σ ω ε) : Crew σ ω ε :=
  match w with
  | .poll s =>
    if c.verdict.isSome then { c with workers := c.workers.eraseIdx i }
    else { c with workers := c.workers.set i (.compute s) }
  | .compute s =>
    let ⟨workers, inbox, active, verdict, world⟩ := c
    match a.next s world with
    | (.error e, world) =>
      ⟨workers.set i (.conclude (.aborted e)), inbox, active, verdict, world⟩
    | (.ok successors, world) =>
      ⟨workers.set i (plan a successors), inbox, active, verdict, world⟩
  | .conclude r => { c with workers := c.workers.eraseIdx i, inbox := c.inbox ++ [r] }
  | .announce first rest =>
    { c with
      workers := c.workers.set i (.hire first rest)
      inbox := c.inbox ++ [.started rest.length] }
  | .hire first [] => { c with workers := c.workers.set i (.poll first) }
  | .hire first (s :: rest) =>
    { c with workers := (c.workers.set i (.hire first rest)).insertIdx (i + 1) (.poll s) }

/-- The coordinator reads a report. -/
def read (r : Report σ ε) (c : Crew σ ω ε) : Crew σ ω ε :=
  match r with
  | .started count => { c with active := c.active + count }
  | .failed =>
    if c.active - 1 = 0 then { c with active := 0, verdict := some .exhausted }
    else { c with active := c.active - 1 }
  | .succeeded s => { c with verdict := some (.found s) }
  | .aborted e => { c with verdict := some (.failed e) }

/-- The coordinator takes its next step: it reads the oldest report, or ends
    the search when there is neither a report nor a worker left. -/
def coordinate (c : Crew σ ω ε) : Crew σ ω ε :=
  if c.verdict.isSome then c
  else
    match c.inbox with
    | r :: inbox => read r { c with inbox := inbox }
    | [] => if c.workers.isEmpty then { c with verdict := some .exhausted } else c

/-- One turn. A turn of a worker that does not exist changes nothing. -/
def step (c : Crew σ ω ε) : Turn → Crew σ ω ε
  | .worker i =>
    match c.workers[i]? with
    | some w => work a i w c
    | none => c
  | .coordinator => c.coordinate

/-- The crew after a schedule. -/
def run (schedule : List Turn) (c : Crew σ ω ε) : Crew σ ω ε := schedule.foldl (step a) c

/-! ### The executor -/

/-- How many steps a worker still takes before it looks again whether the
    search was called off. -/
def remaining : Worker σ ε → Nat
  | .poll _ | .compute _ => 0
  | .conclude _ => 1
  | .announce _ rest => rest.length + 2
  | .hire _ rest => rest.length + 1

/-- How many workers there will then be, together with those it hires. -/
def places : Worker σ ε → Nat
  | .poll _ | .compute _ => 1
  | .conclude _ => 0
  | .announce _ rest | .hire _ rest => rest.length + 1

/-- The worker at place `i` goes round its loop once, and the coordinator reads
    what it reports. Also gives the number of workers that take its place. -/
def loopOnce (i : Nat) (c : Crew σ ω ε) : Nat × Crew σ ω ε :=
  let c := run a [.worker i, .worker i] c
  match c.workers[i]? with
  | none => (0, c)
  | some w =>
    let c := run a (List.replicate (remaining w) (.worker i)) c
    (places w, run a (List.replicate (c.inbox.length + 1) .coordinator) c)

/-- The workers from place `i` on have their turn, with so much patience each. -/
def follow (i : Nat) (patience : Patience) (c : Crew σ ω ε) : Crew σ ω ε :=
  if c.verdict.isSome then c
  else
    match patience with
    | ⟨[]⟩ => c
    | ⟨0 :: rest⟩ => follow (i + 1) ⟨rest⟩ c
    | ⟨(n + 1) :: rest⟩ =>
      let (count, c) := loopOnce a i c
      follow i ⟨List.replicate count n ++ rest⟩ c
termination_by patience
decreasing_by
  · exact .leave
  · exact .round _

/-- Gives every worker its turn, at most `limit` times. -/
def turns (patience : Nat) : Nat → Crew σ ω ε → Outcome σ ε × ω
  | 0, c => (.stopped, c.world)
  | limit + 1, c =>
    let c := follow a 0 ⟨List.replicate c.workers.length patience⟩ c
    match c.verdict with
    | some o => (o, c.world)
    | none => turns patience limit c

/-- How many rounds a line is followed before the next has its turn: as many as
    there may be where a single thread has to do all the work. -/
def patience (threads limit : Nat) : Nat := if threads = 1 then limit else 64

/-- Searches from a start state, which may already be what is looked for. There
    is time for lines of up to `limit` rounds. -/
def search (threads limit : Nat) (start : σ) (w : ω) : Outcome σ ε × ω :=
  match a.kind start with
  | .success => (.found start, w)
  | .fail => (.exhausted, w)
  | .unfinished => turns a (patience threads limit) limit (Crew.start start w)

/-- The name of this way to search, with the number of workers at hand. -/
def describe (threads : Nat) : String :=
  "ConcurrentAutomaton \x7b threads: " ++ toString threads ++ ", .. \x7d"

end Crew

end Ramify.Search
