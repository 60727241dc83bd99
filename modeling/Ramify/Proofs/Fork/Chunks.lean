import Mathlib.Logic.Function.Iterate
import Ramify.Proofs.Fork.Reading

/-!
# How far a tape is filled

A tape asks its producer for a chunk of elements at once. So the number of places
that are filled is a multiple of the chunk size, and the producer has been asked once
for each of them, until it ended the sequence. All that it has been asked so far tells
the state that it is in (`Producer.Stems`, `Tape.Fed`).

How many places are filled depends on the cursor that was read most often alone: if a
cursor draws from a tape, the tape gets just the chunks that are needed for the number
of times that the cursor has been read (`Tape.Draws`).
-/

namespace Ramify.Fork

variable {σ α : Type}

/-! ### The state of a producer -/

namespace Producer

variable {p origin : Producer σ α}

/-- The state of a producer after it was asked a number of times. -/
def asked (p : Producer σ α) (count : Nat) : σ := (fun s => (p.produce s).2)^[count] p.state

theorem asked_succ {count : Nat} : p.asked (count + 1) = (p.produce (p.asked count)).2 :=
  Function.iterate_succ_apply' _ _ _

/-- A producer has come from one that was not asked yet. -/
structure Stems (origin p : Producer σ α) : Prop where
  produce : p.produce = origin.produce
  state : p.state = origin.asked p.calls

theorem Stems.ask (h : origin.Stems p) : origin.Stems p.ask.2 := by
  cases hex : p.exhausted with
  | true =>
    rw [ask_of_exhausted hex]
    exact h
  | false =>
    rw [ask_of_going hex]
    refine ⟨h.produce, ?_⟩
    dsimp only
    rw [asked_succ, ← h.state, h.produce]

theorem Stems.askFor (h : origin.Stems p) (count : Nat) : origin.Stems (p.askFor count).2 := by
  induction count generalizing p with
  | zero => exact h
  | succ count ih => exact ih h.ask

end Producer

namespace Tape

variable {t t' t'' origin : Tape σ α} {w : List α} {h k : Nat} {c : Cursor}

/-- How many times a cursor was read, by itself or before it was forked off; none if
    it cannot be used. -/
def readsOf (t : Tape σ α) (h : Nat) : Nat :=
  match t.roster.use h with
  | .ok c => c.reads
  | .error _ => 0

theorem chunkSize_dvd_filled : chunkSize ∣ t.filled := Nat.dvd_mul_right _ _

/-- The producer of a tape is asked for a chunk at once, if at all. -/
theorem stems_nextChunk (hs : origin.Stems t.toProducer) (i : Nat) :
    origin.Stems (t.nextChunk i).2.toProducer := by
  rw [nextChunk]
  split
  · exact hs
  · exact hs.askFor chunkSize

theorem stems_turn (hs : origin.Stems t.toProducer) :
    origin.Stems (t.turn c).2.toProducer := by
  rw [turn]
  split
  · exact stems_nextChunk hs c.chunk
  · exact hs

/-- A tape that tells a list was filled beginning with a tape of which nothing was
    filled. -/
structure Fed (origin : Tape σ α) (w : List α) (t : Tape σ α) : Prop where
  tells : t.Tells w
  stems : origin.Stems t.toProducer

theorem fed_new {produce : σ → Option α × σ} {s : σ} (hs : Yields produce w s) :
    (new produce s).Fed w (new produce s) :=
  ⟨tells_new hs, rfl, rfl⟩

namespace Fed

/-- The producer was asked for each place, up to the first one behind the list. -/
theorem state_eq (hf : origin.Fed w t) :
    t.state = origin.asked (min t.filled (w.length + 1)) := by
  rw [hf.stems.state, hf.tells.producer.calls]

theorem advance (hf : origin.Fed w t) (h : Nat) : origin.Fed w (t.advance h).2 := by
  cases hu : t.roster.use h with
  | error e =>
    rw [advance_of_error hu]
    exact hf
  | ok c =>
    refine ⟨hf.tells.advance hu, ?_⟩
    rw [hf.tells.advance_eq hu]
    exact stems_turn hf.stems

/-- Reading several places in a row, a cursor gets just as far. -/
theorem read {count : Nat} {items : List (Option α)} (hf : origin.Fed w t)
    (hu : t.roster.use h = .ok c) (hread : t.read h count = .ok (items, t')) :
    origin.Fed w t' ∧ ∃ d, t'.roster.use h = .ok d ∧ d.reads = c.reads + count := by
  induction count generalizing t c items with
  | zero =>
    rw [Tape.read] at hread
    cases hread
    exact ⟨hf, c, hu, rfl⟩
  | succ count ih =>
    obtain ⟨d, hd, hreads⟩ := hf.tells.use_advance_self hu
    rw [Tape.read, Tape.next, hu] at hread
    dsimp only at hread
    split at hread
    · cases hread
    · rename_i hrest
      cases hread
      obtain ⟨hf', d', hd', hreads'⟩ := ih (hf.advance h) hd hrest
      exact ⟨hf', d', hd', by omega⟩

theorem drop (hf : origin.Fed w t) (h : Nat) : origin.Fed w (t.drop h) :=
  ⟨hf.tells.drop h, hf.stems⟩

theorem split (hf : origin.Fed w t) (hu : t.roster.use h = .ok c) (count : Nat) :
    origin.Fed w (t.split h count).2 :=
  ⟨hf.tells.split hu count, hf.stems⟩

theorem readsOf_le (hf : origin.Fed w t) (h : Nat) : t.readsOf h ≤ t.filled := by
  rw [readsOf]
  split
  · rename_i c hu
    exact hf.tells.reads hu
  · exact Nat.zero_le _

end Fed

/-! ### Drawing from a tape -/

/-- A tape has got just the chunks that a cursor needed which was read on. -/
structure Draws (h : Nat) (t t' : Tape σ α) : Prop where
  le : t.readsOf h ≤ t'.readsOf h
  filled : ∀ n, chunkSize ∣ n → (n < t'.filled ↔ n < t.filled ∨ n < t'.readsOf h)

namespace Draws

theorem refl (hf : origin.Fed w t) (h : Nat) : Draws h t t where
  le := Nat.le_refl _
  filled _ _ := (or_iff_left_of_imp fun hn => Nat.lt_of_lt_of_le hn (hf.readsOf_le h)).symm

theorem trans (h₁ : Draws h t t') (h₂ : Draws h t' t'') : Draws h t t'' where
  le := Nat.le_trans h₁.le h₂.le
  filled n hn := by
    have hle := h₂.le
    rw [h₂.filled n hn, h₁.filled n hn]
    omega

/-- A cursor is read once. -/
theorem advance (hf : origin.Fed w t) (h : Nat) : Draws h t (t.advance h).2 := by
  cases hu : t.roster.use h with
  | error e =>
    rw [advance_of_error hu]
    exact .refl hf h
  | ok c =>
    obtain ⟨d, hd, hreads⟩ := hf.tells.use_advance_self hu
    have hbefore : t.readsOf h = c.reads := by rw [readsOf, hu]
    have hafter : (t.advance h).2.readsOf h = c.reads + 1 := by
      rw [readsOf, hd]
      exact hreads
    have hle := hf.tells.reads hu
    refine ⟨by omega, fun n hn => ?_⟩
    rw [hafter, hf.tells.filled_advance hu]
    split
    · -- The cursor stands at the end of what is filled, which is a multiple.
      obtain ⟨i, rfl⟩ := hn
      obtain ⟨j, hj⟩ := t.chunkSize_dvd_filled
      rw [chunkSize] at hj ⊢
      omega
    · omega

end Draws

/-! ### Tapes of different producers -/

section Agrees

variable {τ : Type} {origin' : Tape τ α} {u : Tape τ α}

/-- Two tapes tell the same list, are filled as far, and have the same cursors. They
    differ in nothing but their producers. -/
structure Agrees (origin : Tape σ α) (origin' : Tape τ α) (w : List α) (t : Tape σ α)
    (u : Tape τ α) : Prop where
  fed : origin.Fed w t
  fed' : origin'.Fed w u
  filled : u.filled = t.filled
  roster : u.roster = t.roster

namespace Agrees

variable (ha : Agrees origin origin' w t u)

include ha

/-- A cursor reads the same on both tapes. -/
theorem advance (h : Nat) : (t.advance h).1 = (u.advance h).1 ∧
    Agrees origin origin' w (t.advance h).2 (u.advance h).2 := by
  cases hu : t.roster.use h with
  | error e =>
    rw [advance_of_error hu, advance_of_error (ha.roster ▸ hu)]
    exact ⟨rfl, ha⟩
  | ok c =>
    have hu' : u.roster.use h = .ok c := ha.roster ▸ hu
    have ht := ha.fed.tells
    have ht' := ha.fed'.tells
    refine ⟨by rw [ht.advance_fst hu, ht'.advance_fst hu'], ha.fed.advance h, ha.fed'.advance h,
      ?_, ?_⟩
    · rw [ht.filled_advance hu, ht'.filled_advance hu', ha.filled]
    · rw [ht.roster_advance hu, ht'.roster_advance hu', ha.roster]

theorem drop (h : Nat) : Agrees origin origin' w (t.drop h) (u.drop h) :=
  ⟨ha.fed.drop h, ha.fed'.drop h, ha.filled, congrArg (Roster.drop h) ha.roster⟩

theorem split (hu : t.roster.use h = .ok c) (count : Nat) : (t.split h count).1 =
    (u.split h count).1 ∧ Agrees origin origin' w (t.split h count).2 (u.split h count).2 := by
  have hu' : u.roster.use h = .ok c := ha.roster ▸ hu
  refine ⟨?_, ha.fed.split hu count, ha.fed'.split hu' count, ha.filled, ?_⟩
  · rw [Tape.split, Tape.split, ha.roster]
  · rw [Tape.split, Tape.split, ha.roster]

end Agrees

theorem agrees_new {produce : σ → Option α × σ} {produce' : τ → Option α × τ} {s : σ} {s' : τ}
    (hs : Yields produce w s) (hs' : Yields produce' w s') :
    Agrees (new produce s) (new produce' s') w (new produce s) (new produce' s') :=
  ⟨fed_new hs, fed_new hs', rfl, rfl⟩

end Agrees

end Tape

end Ramify.Fork
