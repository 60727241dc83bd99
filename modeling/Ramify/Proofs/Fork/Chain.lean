import Mathlib.Data.List.Basic
import Ramify.Fork.Tape
import Ramify.Proofs.Fork.Handles

/-!
# The chain of chunks

A producer that yields finitely many elements and then ends the sequence stands for
the list of these elements (`Tape.Yields`). A tape of such a producer *tells* that
list (`Tape.Tells`): each chunk that was made holds its part of the list and knows the
next one (`Chained`), and each cursor is where its reads have got it (`Cursor.Fits`).

* `Producer.Stands.askFor`: a producer of a list gives the next elements of it, and
  then nothing;
* `Tape.Tells.nextChunk_of_lt`: the chunk behind a chunk is made only once, and
  `Tape.Tells.nextChunk`: whoever moves on there finds the next part of the list,
  whether it was made before or not;
* `Tape.Tells.turn`: so a cursor that was read `r` times finds the place `r % 10` of
  chunk `r / 10 + 1` in front of it.
-/

namespace Ramify.Fork

variable {σ α : Type} {w : List α} {n i : Nat}

/-- A producer yields the elements of a list in order and then ends. -/
def Tape.Yields (produce : σ → Option α × σ) : List α → σ → Prop
  | [], s => (produce s).1 = none
  | a :: as, s => (produce s).1 = some a ∧ Tape.Yields produce as (produce s).2

theorem Tape.yields_fromList (w : List α) : Yields fromList w w := by
  induction w with
  | nil => rfl
  | cons a as ih => exact ⟨rfl, ih⟩

/-! ### Producers -/

namespace Producer

variable {p : Producer σ α}

/-- A producer of a list was asked for the first places of it, but not again once it
    had ended the sequence. -/
structure Stands (p : Producer σ α) (w : List α) (n : Nat) : Prop where
  /-- It has ended the sequence if it was asked for a place behind the list. -/
  exhausted : p.exhausted = true ↔ w.length < n
  /-- Otherwise it goes on with the rest of the list. -/
  yields : p.exhausted = false → Tape.Yields p.produce (w.drop n) p.state
  /-- It was asked once for each place, up to the first one behind the list. -/
  calls : p.calls = min n (w.length + 1)

theorem ask_of_exhausted (hex : p.exhausted = true) : p.ask = (none, p) := by
  rw [ask, if_pos hex]

theorem ask_of_going (hex : p.exhausted = false) : p.ask = ((p.produce p.state).1,
    ⟨p.produce, (p.produce p.state).2, (p.produce p.state).1.isNone, p.calls + 1⟩) := by
  rw [ask, hex, if_neg Bool.false_ne_true]

/-- The producer goes on where it stands, so what it gives is what the next place of
    the list holds. -/
theorem Stands.ask (h : p.Stands w n) : p.ask.1 = w[n]? ∧ p.ask.2.Stands w (n + 1) := by
  have hcalls := h.calls
  cases hex : p.exhausted with
  | true =>
    have hlt := h.exhausted.1 hex
    rw [ask_of_exhausted hex]
    refine ⟨(List.getElem?_eq_none (Nat.le_of_lt hlt)).symm, ⟨?_, ?_, ?_⟩⟩
    · exact iff_of_true hex (Nat.lt_succ_of_lt hlt)
    · exact fun hgoing => absurd (hex.symm.trans hgoing) Bool.noConfusion
    · dsimp only
      omega
  | false =>
    have hy := h.yields hex
    have hle : n ≤ w.length := by
      rw [← Nat.not_lt, ← h.exhausted, hex]
      exact Bool.false_ne_true
    rw [ask_of_going hex]
    rcases Nat.lt_or_eq_of_le hle with hlt | rfl
    · rw [List.drop_eq_getElem_cons hlt] at hy
      obtain ⟨hhead, htail⟩ := hy
      refine ⟨hhead.trans (List.getElem?_eq_getElem hlt).symm, ⟨?_, fun _ => htail, ?_⟩⟩
      · dsimp only
        rw [hhead]
        exact iff_of_false Bool.false_ne_true (Nat.not_lt_of_le hlt)
      · dsimp only
        omega
    · rw [List.drop_length] at hy
      have hnone : (p.produce p.state).1 = none := hy
      refine ⟨hnone.trans (List.getElem?_eq_none (Nat.le_refl _)).symm, ⟨?_, ?_, ?_⟩⟩
      · dsimp only
        rw [hnone]
        exact iff_of_true rfl (Nat.lt_succ_self _)
      · dsimp only
        rw [hnone]
        exact fun hgoing => nomatch hgoing
      · dsimp only
        omega

theorem Stands.askFor (h : p.Stands w n) (count : Nat) :
    (p.askFor count).1 = (List.range' n count).map (w[·]?) ∧
      (p.askFor count).2.Stands w (n + count) := by
  induction count generalizing p n with
  | zero => exact ⟨rfl, h⟩
  | succ count ih =>
    obtain ⟨hitem, hp⟩ := h.ask
    obtain ⟨hitems, hp'⟩ := ih hp
    rw [Producer.askFor, List.range'_succ, List.map_cons, ← hitem, ← hitems]
    refine ⟨rfl, ?_⟩
    rw [← Nat.add_assoc, Nat.add_right_comm]
    exact hp'

end Producer

/-! ### Chunks -/

/-- What the places of a chunk hold: its part of a list, or nothing behind the end. The
    first chunk has no places. -/
def segment (w : List α) : Nat → List (Option α)
  | 0 => []
  | i + 1 => (List.range' (chunkSize * i) chunkSize).map (w[·]?)

/-- Chunks hold a list, one part behind the other, and each knows the next one. -/
def Chained (w : List α) (chunks : Array (Chunk α)) : Prop :=
  ∀ i < chunks.size, chunks[i]? =
    some ⟨segment w i, if i + 1 < chunks.size then some (i + 1) else none⟩

/-- The chain goes on behind the last chunk. -/
theorem Chained.push {chunks : Array (Chunk α)} (hc : Chained w chunks)
    (hlast : i + 1 = chunks.size) :
    Chained w ((chunks.modify i fun chunk => { chunk with next := some (i + 1) }).push
      ⟨segment w (i + 1), none⟩) := by
  intro j hj
  rw [Array.size_push, Array.size_modify] at hj ⊢
  rw [Array.getElem?_push, Array.size_modify]
  by_cases hnew : j = chunks.size
  · rw [if_pos hnew, if_neg (by omega), hnew, ← hlast]
  · rw [if_neg hnew, if_pos (by omega), Array.getElem?_modify, hc j (by omega)]
    by_cases hij : i = j
    · rw [if_pos hij, hij]
      rfl
    · rw [if_neg hij, if_pos (by omega)]

theorem length_segment_succ : (segment w (i + 1)).length = chunkSize := by
  rw [segment, List.length_map, List.length_range']

theorem getElem?_segment (w : List α) (r : Nat) :
    (segment w (r / chunkSize + 1))[r % chunkSize]?.join = w[r]? := by
  have hlt : r % chunkSize < chunkSize := Nat.mod_lt _ (by decide)
  rw [segment, List.getElem?_map, List.getElem?_range' hlt, Option.map_some, Option.join_some,
    Nat.one_mul, Nat.div_add_mod]

/-! ### Cursors -/

namespace Cursor

variable {c : Cursor} {chunks : Nat}

/-- A cursor is in a chain of chunks, at the place up to which it was read. -/
structure Fits (c : Cursor) (chunks : Nat) : Prop where
  /-- Its chunk was made. -/
  lt : c.chunk < chunks
  /-- It has read the places in front of its own. -/
  reads_eq : c.reads = chunkSize * (c.chunk - 1) + c.index
  /-- It is not beyond the end of its chunk. -/
  reads_le : c.reads ≤ chunkSize * c.chunk

/-- The cursor in front of the place that it reads next. -/
def turned (c : Cursor) : Cursor :=
  { c with chunk := c.reads / chunkSize + 1, index := c.reads % chunkSize }

theorem Fits.length_segment_le_iff (hc : c.Fits chunks) :
    (segment w c.chunk).length ≤ c.index ↔ c.reads = chunkSize * c.chunk := by
  obtain ⟨-, heq, hle⟩ := hc
  cases hi : c.chunk with
  | zero =>
    rw [hi] at hle
    exact iff_of_true (Nat.zero_le _) (Nat.le_zero.1 hle)
  | succ i =>
    rw [hi, Nat.add_sub_cancel] at heq
    rw [hi, Nat.mul_succ] at hle
    rw [length_segment_succ, Nat.mul_succ]
    omega

/-- A cursor in the middle of a chunk is in front of the place that it reads next. -/
theorem Fits.turned_eq (hc : c.Fits chunks) (hne : c.reads ≠ chunkSize * c.chunk) :
    c.turned = c := by
  obtain ⟨i, hi⟩ : ∃ i, c.chunk = i + 1 := by
    refine Nat.exists_eq_succ_of_ne_zero fun hzero => hne ?_
    have hle := hc.reads_le
    rw [hzero] at hle ⊢
    exact Nat.le_zero.1 hle
  obtain ⟨-, heq, hle⟩ := hc
  obtain ⟨chunk, index, position, reads⟩ := c
  dsimp only at hi heq hle hne
  subst hi
  rw [Nat.add_sub_cancel] at heq
  have hlt : index < chunkSize := by
    rw [Nat.mul_succ] at hle hne
    omega
  rw [turned, heq, Nat.mul_add_div (by decide), Nat.div_eq_of_lt hlt, Nat.mul_add_mod,
    Nat.mod_eq_of_lt hlt]

/-- So is one behind a chunk, once it has moved on to the next one. -/
theorem turned_of_eq (heq : c.reads = chunkSize * c.chunk) :
    c.turned = { c with chunk := c.chunk + 1, index := 0 } := by
  rw [turned, heq, Nat.mul_div_cancel_left _ (by decide), Nat.mul_mod_right]

/-- A cursor that has read on fits as well. -/
theorem fits_pass (hlt : c.turned.chunk < chunks) (item : Option α) :
    (c.turned.pass item).Fits chunks := by
  refine ⟨hlt, ?_, ?_⟩
  · dsimp only [pass, turned]
    rw [Nat.add_sub_cancel, ← Nat.add_assoc, Nat.div_add_mod]
  · dsimp only [pass, turned]
    exact Nat.lt_mul_div_succ _ (by decide)

end Cursor

/-! ### Tapes -/

namespace Tape

variable {t : Tape σ α} {c : Cursor}

/-- The number of places of all chunks of a tape. -/
def filled (t : Tape σ α) : Nat := chunkSize * (t.chunks.size - 1)

/-- A tape tells a list: what was produced of it is in the chunks. -/
structure Tells (t : Tape σ α) (w : List α) : Prop where
  /-- The producer goes on where the chunks end. -/
  producer : t.toProducer.Stands w t.filled
  /-- There is a first chunk. -/
  pos : 0 < t.chunks.size
  /-- The chunks hold the list. -/
  chained : Chained w t.chunks
  /-- The cursors are in the chunks. -/
  fits : ∀ h c, t.roster.use h = .ok c → c.Fits t.chunks.size

@[simp] theorem filled_new {produce : σ → Option α × σ} {s : σ} : (new produce s).filled = 0 := rfl

@[simp] theorem filled_split {h count : Nat} : (t.split h count).2.filled = t.filled := rfl

theorem tells_new {produce : σ → Option α × σ} {s : σ} (hs : Yields produce w s) :
    (new produce s).Tells w where
  producer := by
    rw [filled_new]
    exact ⟨iff_of_false Bool.false_ne_true (Nat.not_lt_zero _), fun _ => hs, (Nat.zero_min _).symm⟩
  pos := Nat.one_pos
  chained i hi := by
    obtain rfl := Nat.lt_one_iff.1 hi
    rfl
  fits h c hu := by
    rcases Roster.use_add.1 hu with ⟨-, rfl⟩ | hu
    · exact ⟨Nat.one_pos, rfl, Nat.le_refl _⟩
    · simp [Roster.use, Roster.empty] at hu

namespace Tells

theorem itemsOf (ht : t.Tells w) (hi : i < t.chunks.size) : t.itemsOf i = segment w i := by
  rw [Tape.itemsOf, ht.chained i hi]

/-- The chunk behind a chunk is not made again. -/
theorem nextChunk_of_lt (ht : t.Tells w) (hi : i + 1 < t.chunks.size) :
    t.nextChunk i = (i + 1, t) := by
  rw [Tape.nextChunk, ht.chained i (Nat.lt_of_succ_lt hi), if_pos hi]
  rfl

theorem nextChunk_of_eq (ht : t.Tells w) (hi : i + 1 = t.chunks.size) : t.nextChunk i =
    (i + 1, ⟨(t.askFor chunkSize).2, (t.chunks.modify i fun chunk =>
      { chunk with next := some (i + 1) }).push ⟨(t.askFor chunkSize).1, none⟩, t.roster⟩) := by
  rw [Tape.nextChunk, ht.chained i (by omega), if_neg (by omega), hi]
  rfl

/-- Behind each chunk there is the next one, with the next part of the list. -/
theorem nextChunk (ht : t.Tells w) (hi : i < t.chunks.size) :
    (t.nextChunk i).1 = i + 1 ∧ (t.nextChunk i).2.Tells w ∧
      (t.nextChunk i).2.roster = t.roster ∧
      (t.nextChunk i).2.chunks.size = max t.chunks.size (i + 2) := by
  rcases Nat.lt_or_eq_of_le (Nat.succ_le_of_lt hi) with hlt | heq
  · rw [ht.nextChunk_of_lt hlt]
    exact ⟨rfl, ht, rfl, (Nat.max_eq_left hlt).symm⟩
  · obtain ⟨hitems, hstands⟩ := ht.producer.askFor chunkSize
    have hfilled : t.filled = chunkSize * i := by
      rw [filled, ← heq, Nat.succ_sub_one]
    have hsegment : (t.askFor chunkSize).1 = segment w (i + 1) := by
      rw [hitems, hfilled]
      rfl
    rw [ht.nextChunk_of_eq heq, hsegment]
    refine ⟨rfl, ⟨?_, ?_, ht.chained.push heq, fun h c hu => ?_⟩, rfl, ?_⟩
    · simpa [filled, ← heq, Nat.mul_succ] using hstands
    · simp
    · obtain ⟨hlt, hreads, hle⟩ := ht.fits h c hu
      exact ⟨by simpa using Nat.lt_succ_of_lt hlt, hreads, hle⟩
    · simp
      omega

/-- A cursor is turned to the place that it reads next, in a chunk that was made before or
    is made now. -/
theorem turn (ht : t.Tells w) (hc : c.Fits t.chunks.size) :
    (t.turn c).1 = c.turned ∧ (t.turn c).2.Tells w ∧ (t.turn c).2.roster = t.roster ∧
      (t.turn c).2.chunks.size = max t.chunks.size (c.turned.chunk + 1) := by
  rw [Tape.turn, ht.itemsOf hc.lt]
  by_cases heq : c.reads = chunkSize * c.chunk
  · obtain ⟨hnext, htells, hroster, hsize⟩ := ht.nextChunk hc.lt
    rw [if_pos (hc.length_segment_le_iff.2 heq), Cursor.turned_of_eq heq, ← hnext]
    exact ⟨rfl, htells, hroster, hnext ▸ hsize⟩
  · rw [if_neg (mt hc.length_segment_le_iff.1 heq), hc.turned_eq heq]
    exact ⟨rfl, ht, rfl, (Nat.max_eq_left hc.lt).symm⟩

end Tells

end Tape

end Ramify.Fork
