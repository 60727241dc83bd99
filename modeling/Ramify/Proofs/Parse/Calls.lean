import Ramify.Proofs.Parse.Sources

/-!
# How often the input is read

A step of an attempt may read its input: one character behind one that a class matches,
or the characters of a terminal up to the first that does not fit. How often an attempt
has read, the reads from before it was forked off included, is told by its cursor once
it has made the reads of its next step (`calls`). A machine can log that of every
attempt it tries.

The tape of a parse is filled just as far as the log calls for: all chunks that were
needed for the calls of some attempt, and no others (`Fork.Tape.Logged`). So whether the
source was asked for some element can be told from the log.
-/

namespace Ramify

namespace Fork.Tape

variable {σ α : Type} {t t' origin : Tape σ α} {w : List α} {log : List Nat} {h : Nat}

/-- A tape is filled with the chunks that logged numbers of calls ask for. -/
def Logged (t : Tape σ α) (log : List Nat) : Prop :=
  ∀ n, chunkSize ∣ n → (n < t.filled ↔ ∃ calls ∈ log, n < calls)

theorem logged_new {produce : σ → Option α × σ} {s : σ} : (new produce s).Logged [] := by
  intro n _
  simp

/-- What a cursor has drawn is logged. -/
theorem Logged.snoc (hlog : t.Logged log) (hdraws : Draws h t t') :
    t'.Logged (log ++ [t'.readsOf h]) := by
  intro n hn
  rw [hdraws.filled n hn, hlog n hn]
  simp only [List.mem_append, List.mem_singleton, or_and_right, exists_or, exists_eq_left]

/-- Without a call, nothing is asked for. -/
theorem Logged.snoc_zero (hlog : t.Logged log) : t.Logged (log ++ [0]) := by
  intro n hn
  rw [hlog n hn]
  simp

theorem Logged.congr (hlog : t.Logged log) (hfilled : t'.filled = t.filled) : t'.Logged log := by
  intro n hn
  rw [hfilled, hlog n hn]

end Fork.Tape

namespace Parse

open Fork (Tape)

variable {σ τ : Type} {s u : Shared σ} {a : Attempt} {m : Machine} {w : List Char}
  {origin : Tape σ Char} {origin' : Tape τ Char} {node : Nat} {log : List Nat}

/-- The world in which an attempt has read what it takes to deal with a symbol. -/
def Shared.readFor (a : Attempt) : Symbol → Shared σ → Shared σ
  | .terminal t, s => (s.readText a t.chars a.lookahead).2
  | .charClass k, s => if k.admits a.lookahead then (s.readNext a).2 else s
  | _, s => s

/-- The world in which an attempt has read all that its next step reads. -/
def Shared.readOn (a : Attempt) (s : Shared σ) : Shared σ :=
  match s.standpoint a with
  | .error _ => s
  | .ok p =>
    match p.site.agenda p.children with
    | .symbol symbol => s.readFor a symbol
    | _ => s

/-- How often an attempt has read its input, by itself or before it was forked off,
    once it has made the reads of its next step. -/
def calls : State → Shared σ → Nat
  | .running a, s => (s.readOn a).tape.readsOf a.cursor
  | _, _ => 0

namespace Shared

/-! ### What is drawn from the tape -/

theorem tape_readNext : (s.readNext a).2.tape = (s.tape.advance a.cursor).2 := by
  rw [readNext]
  cases hu : s.tape.roster.use a.cursor with
  | error e => rw [Tape.advance_of_error hu]
  | ok c => rfl

theorem fed_readNext (hf : origin.Fed w s.tape) : origin.Fed w (s.readNext a).2.tape := by
  rw [tape_readNext]
  exact hf.advance a.cursor

theorem draws_readNext (hf : origin.Fed w s.tape) :
    Tape.Draws a.cursor s.tape (s.readNext a).2.tape := by
  rw [tape_readNext]
  exact .advance hf a.cursor

theorem draws_readText (hf : origin.Fed w s.tape) (chars : List Char) (c : Lookahead) :
    Tape.Draws a.cursor s.tape (s.readText a chars c).2.tape := by
  induction chars generalizing s c with
  | nil => exact .refl hf a.cursor
  | cons expected chars ih =>
    have hfed : origin.Fed w (s.readNext a).2.tape := fed_readNext hf
    have hdraws : Tape.Draws a.cursor s.tape (s.readNext a).2.tape := draws_readNext hf
    rw [readText]
    split
    · generalize s.readNext a = r at hfed hdraws ⊢
      obtain ⟨_ | next, s₁⟩ := r
      · exact hdraws
      · exact hdraws.trans (ih hfed next)
    · exact .refl hf a.cursor

theorem draws_readFor (hf : origin.Fed w s.tape) (symbol : Symbol) :
    Tape.Draws a.cursor s.tape (s.readFor a symbol).tape := by
  cases symbol with
  | terminal t => exact draws_readText hf _ _
  | charClass k =>
    rw [readFor]
    split
    · exact draws_readNext hf
    · exact .refl hf a.cursor
  | nonTerminal | endOfInput => exact .refl hf a.cursor

theorem draws_readOn (hf : origin.Fed w s.tape) :
    Tape.Draws a.cursor s.tape (s.readOn a).tape := by
  rw [readOn]
  split
  · exact .refl hf a.cursor
  · split
    · exact draws_readFor hf _
    · exact .refl hf a.cursor

/-- What is read depends on the tape alone. -/
theorem readNext_congr (htape : u.tape = s.tape) :
    (u.readNext a).1 = (s.readNext a).1 ∧ (u.readNext a).2.tape = (s.readNext a).2.tape := by
  refine ⟨?_, by rw [tape_readNext, tape_readNext, htape]⟩
  rw [readNext, readNext, htape]
  cases s.tape.roster.use a.cursor <;> rfl

theorem readText_congr (htape : u.tape = s.tape) (chars : List Char) (c : Lookahead) :
    (u.readText a chars c).1 = (s.readText a chars c).1 ∧
      (u.readText a chars c).2.tape = (s.readText a chars c).2.tape := by
  induction chars generalizing s u c with
  | nil => exact ⟨rfl, htape⟩
  | cons expected chars ih =>
    obtain ⟨hresult, hnext⟩ := readNext_congr (a := a) htape
    rw [readText, readText]
    split
    · generalize s.readNext a = r at hresult hnext ⊢
      generalize u.readNext a = r' at hresult hnext ⊢
      obtain ⟨o, s₁⟩ := r
      obtain ⟨o', s₁'⟩ := r'
      obtain rfl : o' = o := hresult
      cases o' with
      | error e => exact ⟨rfl, hnext⟩
      | ok next => exact ih hnext next
    · exact ⟨rfl, htape⟩

theorem readFor_congr (htape : u.tape = s.tape) (symbol : Symbol) :
    (u.readFor a symbol).tape = (s.readFor a symbol).tape := by
  cases symbol with
  | terminal t => exact (readText_congr htape _ _).2
  | charClass k =>
    rw [readFor, readFor]
    split
    · exact (readNext_congr htape).2
    · exact htape
  | nonTerminal | endOfInput => exact htape

/-! ### How far a step fills the tape -/

theorem tape_descendAll {name : String} {c : Lookahead} (forks : List (Nat × Nat × Flat.Rule)) :
    (descendAll node name c forks s).2.tape = s.tape := by
  induction forks generalizing s with
  | nil => rfl
  | cons f forks ih => exact ih

theorem filled_forkOver {name : String} {rules : List Flat.Rule} :
    (s.forkOver a node name rules).2.tape.filled = s.tape.filled := by
  rw [forkOver]
  split
  · rfl
  · change (descendAll node name a.lookahead _ _).2.tape.filled = _
    rw [tape_descendAll]
    exact Tape.filled_split

end Shared

namespace Machine

theorem filled_expand {name : String} :
    (m.expand a node name s).2.tape.filled = s.tape.filled := by
  rw [expand]
  split
  · rfl
  · rfl
  · exact Shared.filled_forkOver

theorem filled_consume (symbol : Symbol) :
    (m.consume a node symbol s).2.tape.filled = (s.readFor a symbol).tape.filled := by
  cases symbol with
  | nonTerminal name => exact filled_expand
  | endOfInput =>
    rw [consume]
    split <;> rfl
  | charClass k =>
    rw [consume, Shared.readFor]
    cases hlook : a.lookahead with
    | none => rfl
    | some c =>
      -- The leaf is added before the next character is read.
      obtain ⟨-, hnext⟩ := Shared.readNext_congr (a := a) (s := s)
        (u := s.addLeaf a node ⟨.charClass k, String.singleton c⟩) rfl
      dsimp only
      split
      · rw [← hnext]
        generalize (s.addLeaf a node ⟨.charClass k, String.singleton c⟩).readNext a = r
        obtain ⟨_ | next, s₁⟩ := r <;> rfl
      · rfl
  | terminal t =>
    rw [consume, Shared.readFor]
    generalize s.readText a t.chars a.lookahead = r
    obtain ⟨_ | _ | next, s₁⟩ := r <;> rfl

/-- A step fills the tape as far as its reads do. -/
theorem filled_step : (m.step a s).2.tape.filled = (s.readOn a).tape.filled := by
  have hsite : ∀ node, Shared.site? { s with transitions := s.transitions + 1 } node =
      s.site? node := fun _ => rfl
  have hread := Shared.readFor_congr (a := a) (s := s)
    (u := { s with transitions := s.transitions + 1 }) rfl
  rw [step, Shared.readOn, Shared.standpoint]
  dsimp only
  cases s.grove.marker a.tree with
  | error e => rfl
  | ok node =>
    dsimp only
    rw [hsite]
    cases s.site? node with
    | none => rfl
    | some site =>
      dsimp only
      cases site.agenda (s.grove.visibleCount a.tree node) with
      | overflow => rfl
      | complete =>
        dsimp only
        split <;> rfl
      | symbol symbol =>
        exact (filled_consume symbol).trans (congrArg Tape.filled (hread symbol))

/-- A step is logged with the calls that it takes. -/
theorem logged_next (hf : origin.Fed w s.tape) (hlog : s.tape.Logged log) (state : State) :
    (m.next state s).2.tape.Logged (log ++ [calls state s]) := by
  cases state with
  | running a => exact (hlog.snoc (Shared.draws_readOn hf)).congr filled_step
  | accepted | failed => exact hlog.snoc_zero

theorem fed_next (hf : origin.Fed w s.tape) (state : State) :
    origin.Fed w (m.next state s).2.tape :=
  -- A world agrees with itself.
  ((m.lockstep origin origin w).next ⟨⟨hf, hf, rfl, rfl⟩, rfl, rfl, rfl⟩).2.tape.fed

/-- The tape of a parse is filled as far as the log of all calls asks for. -/
theorem lockstep_logging (m : Machine) (origin : Tape σ Char) (w : List Char) :
    Search.Lockstep (m.automaton.logging calls)
      (m.automaton : Search.Automaton State (Shared σ) Fault)
      fun logged s => logged.1 = s ∧ origin.Fed w s.tape ∧ s.tape.Logged logged.2 :=
  .logging (I := fun (s : Shared σ) log => origin.Fed w s.tape ∧ s.tape.Logged log)
    fun ⟨hf, hlog⟩ => ⟨fed_next hf _, logged_next hf hlog _⟩

end Machine

/-- The first character is the first to be read. -/
theorem begin_logged {produce : σ → Option Char × σ} {source : σ} {start : Symbol}
    (hw : Tape.Yields produce w source)
    (hbegin : begin start (.new produce source) 0 = .ok (a, s)) :
    s.tape.Logged [s.tape.readsOf a.cursor] := by
  rw [begin_new] at hbegin
  obtain ⟨rfl, rfl⟩ := Prod.mk.inj (Except.ok.inj hbegin)
  exact Tape.logged_new.snoc (.advance (Tape.fed_new hw) 0)

end Parse

end Ramify
