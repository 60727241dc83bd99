import Ramify.Proofs.Fork.Chain

/-!
# What a cursor reads

A cursor of a tape that tells a list reads the elements of the list in order, and then
nothing, however far other cursors have read (`Tells.advance_fst`). When it is read it is
turned to the place in question, and then passes it (`Tells.advance_eq`); no other cursor
moves, and the tape goes on telling the list, as it does when cursors are forked or given
up.
-/

namespace Ramify.Fork.Tape

variable {σ α : Type} {t : Tape σ α} {w : List α} {h k : Nat} {c d : Cursor}

theorem use_new {produce : σ → Option α × σ} {s : σ} :
    (new produce s).roster.use 0 = .ok .start := rfl

theorem split_fst {count : Nat} (hu : t.roster.use h = .ok c) :
    (t.split h count).1 = List.range' t.roster.size count := by
  rw [Tape.split, Roster.split_of_use hu]

theorem advance_of_error {e : ForkError} (hu : t.roster.use h = .error e) :
    t.advance h = (none, t) := by
  rw [advance, hu]

namespace Tells

/-! ### Reading -/

variable (ht : t.Tells w)

include ht

/-- No cursor is ahead of the chunks that were made. -/
theorem reads (hu : t.roster.use h = .ok c) : c.reads ≤ t.filled := by
  obtain ⟨hlt, -, hle⟩ := ht.fits h c hu
  exact Nat.le_trans hle (Nat.mul_le_mul_left chunkSize (Nat.le_sub_one_of_lt hlt))

/-- A read gives what is at the place of the cursor, which passes it. -/
theorem advance_eq (hu : t.roster.use h = .ok c) : t.advance h = (w[c.reads]?,
    { (t.turn c).2 with roster := t.roster.update h fun _ => c.turned.pass w[c.reads]? }) := by
  obtain ⟨hcursor, htells, hroster, hsize⟩ := ht.turn (ht.fits h c hu)
  have hitem : ((t.turn c).2.itemsOf c.turned.chunk)[c.turned.index]?.join = w[c.reads]? := by
    rw [htells.itemsOf (by omega)]
    exact getElem?_segment w c.reads
  rw [Tape.advance, hu]
  dsimp only
  rw [hcursor, hitem, hroster]

theorem advance_fst (hu : t.roster.use h = .ok c) : (t.advance h).1 = w[c.reads]? := by
  rw [ht.advance_eq hu]

theorem roster_advance (hu : t.roster.use h = .ok c) :
    (t.advance h).2.roster = t.roster.update h fun _ => c.turned.pass w[c.reads]? := by
  rw [ht.advance_eq hu]

/-- A chunk is made if the cursor is behind all that were made before. -/
theorem filled_advance (hu : t.roster.use h = .ok c) :
    (t.advance h).2.filled = if t.filled ≤ c.reads then t.filled + chunkSize else t.filled := by
  obtain ⟨-, -, -, hsize⟩ := ht.turn (ht.fits h c hu)
  have hle := ht.reads hu
  have hpos := ht.pos
  have hfilled : (t.advance h).2.filled =
      chunkSize * (max t.chunks.size (c.turned.chunk + 1) - 1) := by
    rw [ht.advance_eq hu, filled, hsize]
  by_cases hlast : t.filled ≤ c.reads
  · rw [if_pos hlast, hfilled]
    dsimp only [filled, Cursor.turned, chunkSize] at hle hlast ⊢
    omega
  · rw [if_neg hlast, hfilled]
    dsimp only [filled, Cursor.turned, chunkSize] at hlast ⊢
    omega

theorem advance (hu : t.roster.use h = .ok c) : (t.advance h).2.Tells w := by
  obtain ⟨-, ⟨hstands, hpos, hchained, hfits⟩, hroster, hsize⟩ := ht.turn (ht.fits h c hu)
  rw [ht.advance_eq hu]
  refine ⟨hstands, hpos, hchained, fun k d hd => ?_⟩
  dsimp only at hd ⊢
  obtain ⟨b, hb, rfl⟩ := Roster.use_update.1 hd
  split
  · exact Cursor.fits_pass (by omega) _
  · exact hfits k b (by rwa [hroster])

/-- The cursor moves on, and no other does. -/
theorem use_advance_self (hu : t.roster.use h = .ok c) :
    ∃ d, (t.advance h).2.roster.use h = .ok d ∧ d.reads = c.reads + 1 := by
  rw [ht.roster_advance hu]
  exact ⟨_, Roster.use_update.2 ⟨c, hu, (if_pos rfl).symm⟩, rfl⟩

theorem use_advance_of_ne (hu : t.roster.use h = .ok c) (hk : k ≠ h)
    (hd : t.roster.use k = .ok d) : (t.advance h).2.roster.use k = .ok d := by
  rw [ht.roster_advance hu]
  exact Roster.use_update.2 ⟨d, hd, (if_neg (Ne.symm hk)).symm⟩

/-- Reading several places gives the elements there, and then nothing. -/
theorem read (hu : t.roster.use h = .ok c) (count : Nat) :
    ∃ t', t.read h count = .ok ((List.range count).map fun i => w[c.reads + i]?, t') := by
  induction count generalizing t c with
  | zero => exact ⟨t, rfl⟩
  | succ count ih =>
    obtain ⟨d, hd, hreads⟩ := ht.use_advance_self hu
    obtain ⟨t', ht'⟩ := ih (ht.advance hu) hd
    have hnext : t.next h = .ok (t.advance h) := by
      rw [Tape.next, hu]
    refine ⟨t', ?_⟩
    rw [Tape.read, hnext]
    dsimp only
    rw [ht', ht.advance_fst hu, List.range_succ_eq_map, List.map_cons, List.map_map, hreads]
    simp only [Nat.add_zero, Function.comp_def, Nat.succ_eq_add_one, Nat.add_assoc, Nat.add_comm 1]

/-! ### Forking and dropping -/

theorem split (hu : t.roster.use h = .ok c) (count : Nat) : (t.split h count).2.Tells w where
  producer := ht.producer
  pos := ht.pos
  chained := ht.chained
  fits k d hk := by
    rcases (Roster.use_split hu).1 hk with ⟨-, -, rfl⟩ | ⟨-, hk⟩
    · exact ht.fits h d hu
    · exact ht.fits k d hk

theorem drop (h : Nat) : (t.drop h).Tells w where
  producer := ht.producer
  pos := ht.pos
  chained := ht.chained
  fits k d hk := ht.fits k d (Roster.use_drop.1 hk).2

end Tells

end Ramify.Fork.Tape
