import Mathlib.Algebra.Order.Floor.Div
import Mathlib.Data.Set.Finite.Lemmas
import Mathlib.GroupTheory.GroupAction.Ring
import Mathlib.Logic.Function.Basic
import Ramify.Proofs.Fork.Chunks

/-!
# What was read along a lineage

A forked cursor stands where the cursor it was forked off stood. So what the one has
read belongs to the *lineage* of the other. A `History` is made of nothing but calls and
the answers that were given to them: it tells which cursors came into being, which of
them were forked, and what was read along the lineage of each.

Whatever has been called for, by however many cursors and in whatever order, the history
is that of one list which everybody reads from its beginning, and the producer was asked
for so many elements as the most diligent lineage needs, rounded up to chunks
(`History.Matches.play`, `Tape.reads_one_list`).
-/

namespace Ramify.Fork

namespace Tape

/-- What users do with cursors. -/
inductive Call where
  /-- Reads the place in front of a cursor. -/
  | next (h : Nat)
  /-- Asks how many elements a cursor got. -/
  | position (h : Nat)
  /-- Forks a cursor. -/
  | fork (h count : Nat)

/-- The cursor that a call is about. -/
def Call.cursor : Call → Nat
  | next h | position h | fork h _ => h

/-- What a call is answered. -/
inductive Answer (α : Type) where
  /-- An element, or nothing at the end. -/
  | item (a : Option α)
  /-- A number of elements. -/
  | position (n : Nat)
  /-- New cursors. -/
  | cursors (hs : List Nat)

variable {σ α : Type} {t : Tape σ α} {w : List α} {c : Cursor} {h : Nat}

/-- The answer to a call, and the tape it leaves. -/
def Call.run : Call → Tape σ α → Except ForkError (Answer α × Tape σ α)
  | next h, t => (t.next h).map fun (a, t) => (.item a, t)
  | position h, t => (t.position h).map fun n => (.position n, t)
  | fork h count, t => (t.fork h count).map fun (hs, t) => (.cursors hs, t)

theorem next_of_use (hu : t.roster.use h = .ok c) : t.next h = .ok (t.advance h) := by
  rw [next, hu]

theorem position_of_use (hu : t.roster.use h = .ok c) : t.position h = .ok c.position := by
  rw [position, hu]
  rfl

theorem fork_of_use (hu : t.roster.use h = .ok c) (count : Nat) :
    t.fork h count = .ok (t.split h count) := by
  rw [fork, hu]

/-- A cursor that cannot be used refuses every call. -/
theorem Call.run_of_error {e : ForkError} {call : Call} (hu : t.roster.use call.cursor = .error e) :
    call.run t = .error e := by
  cases call with
  | next h =>
    rw [cursor] at hu
    rw [run, Tape.next, hu]
    rfl
  | position h =>
    rw [cursor] at hu
    rw [run, Tape.position, hu]
    rfl
  | fork h count =>
    rw [cursor] at hu
    rw [run, Tape.fork, hu]
    rfl

end Tape

open Tape (Call Answer)

/-- What is known from calls and answers. -/
structure History (α : Type) where
  /-- The cursors that came into being. -/
  cursors : List Nat
  /-- Those that were forked. -/
  forked : List Nat
  /-- What was read along the lineage of a cursor: by itself or before it was forked
      off. -/
  read : Nat → List (Option α)

namespace History

variable {σ α : Type} {p : History α} {t t' origin : Tape σ α} {w : List α} {h k n count : Nat}

/-- Nothing has been read by the first cursor. -/
def start : History α := ⟨[0], [], fun _ => []⟩

/-- A call was answered. -/
def note (p : History α) : Call → Answer α → History α
  | .next h, .item a => { p with read := Function.update p.read h (p.read h ++ [a]) }
  | .fork h _, .cursors hs =>
    ⟨p.cursors ++ hs, p.forked ++ [h], fun k => if k ∈ hs then p.read h else p.read k⟩
  | _, _ => p

theorem read_note_next_self (a : Option α) :
    (p.note (.next h) (.item a)).read h = p.read h ++ [a] :=
  Function.update_self ..

theorem read_note_next_of_ne (hk : k ≠ h) (a : Option α) :
    (p.note (.next h) (.item a)).read k = p.read k :=
  Function.update_of_ne hk ..

theorem read_note_fork_of_mem {hs : List Nat} (hk : k ∈ hs) :
    (p.note (.fork h count) (.cursors hs)).read k = p.read h :=
  if_pos hk

theorem read_note_fork_of_not_mem {hs : List Nat} (hk : k ∉ hs) :
    (p.note (.fork h count) (.cursors hs)).read k = p.read k :=
  if_neg hk

/-- What is known and what there is after calls, one after the other. A call that is
    refused changes nothing. -/
def play : List Call → History α × Tape σ α → History α × Tape σ α
  | [], x => x
  | c :: calls, (p, t) =>
    match c.run t with
    | .ok (a, t) => play calls (p.note c a, t)
    | .error _ => play calls (p, t)

/-- A tape of a list bears a history out. -/
structure Matches (origin : Tape σ α) (w : List α) (p : History α) (t : Tape σ α) : Prop where
  fed : origin.Fed w t
  /-- What was read are the first elements of the list. -/
  read : ∀ h, p.read h = (List.range (p.read h).length).map (w[·]?)
  first : 0 ∈ p.cursors
  cursors : ∀ h, h ∈ p.cursors ↔ h < t.roster.size
  forked : ∀ h, h ∈ p.forked ↔ t.roster.isBlocked h
  /-- A cursor stands where its lineage has read to. -/
  use : ∀ h ∈ p.cursors, h ∉ p.forked → ∃ c, t.roster.use h = .ok c ∧
    c.reads = (p.read h).length ∧ c.position = (p.read h).countP (·.isSome)
  /-- The tape holds the chunks that some lineage has read from, and no others. -/
  filled : ∀ n, chunkSize ∣ n → (n < t.filled ↔ ∃ h ∈ p.cursors, n < (p.read h).length)

namespace Matches

theorem start {produce : σ → Option α × σ} {s : σ} (hs : Tape.Yields produce w s) :
    Matches (.new produce s) w History.start (.new produce s) where
  fed := Tape.fed_new hs
  read _ := rfl
  first := List.mem_cons_self
  cursors h := by simp [History.start, Tape.new]
  forked h := by
    rw [Tape.new, Roster.isBlocked_add]
    exact iff_of_false List.not_mem_nil Bool.false_ne_true
  use h hh _ := by
    obtain rfl := List.mem_singleton.1 hh
    exact ⟨_, Tape.use_new, rfl, rfl⟩
  filled n _ := by simp [History.start]

variable (hm : Matches origin w p t)

include hm

/-- A cursor that can be used was not forked, and stands where its lineage has read to. -/
theorem of_use {c : Cursor} (hu : t.roster.use h = .ok c) : h ∈ p.cursors ∧ h ∉ p.forked ∧
    c.reads = (p.read h).length ∧ c.position = (p.read h).countP (·.isSome) := by
  have hmem : h ∈ p.cursors := (hm.cursors h).2 (Roster.lt_size_of_use hu)
  have hfree : h ∉ p.forked := fun hforked => by
    rw [Roster.use_of_isBlocked ((hm.forked h).1 hforked)] at hu
    cases hu
  obtain ⟨d, hd, hstands⟩ := hm.use h hmem hfree
  obtain rfl := Except.ok.inj (hu.symm.trans hd)
  exact ⟨hmem, hfree, hstands⟩

/-- What was read next belongs to the lineage. -/
theorem next {c : Cursor} (hu : t.roster.use h = .ok c) :
    Matches origin w (p.note (.next h) (.item (t.advance h).1)) (t.advance h).2 := by
  obtain ⟨hmem, -, hread, hposition⟩ := hm.of_use hu
  have hroster := hm.fed.tells.roster_advance hu
  have hitem := hm.fed.tells.advance_fst hu
  have hdraws := Tape.Draws.advance hm.fed h
  have hreads : (t.advance h).2.readsOf h = (p.read h).length + 1 := by
    obtain ⟨d, hd, hreads⟩ := hm.fed.tells.use_advance_self hu
    rw [Tape.readsOf, hd]
    exact hread ▸ hreads
  refine
    { fed := hm.fed.advance h
      read := fun k => ?read
      first := hm.first
      cursors := fun k => ?cursors
      forked := fun k => ?forked
      use := fun k hk hfree => ?use
      filled := fun n hn => ?filled }
  case read =>
    by_cases hkh : k = h
    · subst hkh
      rw [read_note_next_self, List.length_append, List.length_singleton, List.range_succ,
        List.map_append, List.map_singleton, ← hm.read k, hitem, hread]
    · rw [read_note_next_of_ne hkh]
      exact hm.read k
  case cursors =>
    rw [hroster, Roster.size_update]
    exact hm.cursors k
  case forked =>
    rw [hroster, Roster.isBlocked_update]
    exact hm.forked k
  case use =>
    obtain ⟨d, hd, hstands⟩ := hm.use k hk hfree
    rw [hroster]
    refine ⟨_, Roster.use_update.2 ⟨d, hd, rfl⟩, ?_⟩
    by_cases hkh : k = h
    · subst hkh
      rw [read_note_next_self, if_pos rfl, List.length_append, List.length_singleton,
        List.countP_append, List.countP_singleton, hitem, ← hread, ← hposition]
      refine ⟨rfl, ?_⟩
      dsimp only [Cursor.pass, Cursor.turned]
      split <;> rfl
    · rw [read_note_next_of_ne hkh, if_neg (Ne.symm hkh)]
      exact hstands
  case filled =>
    rw [hdraws.filled n hn, hm.filled n hn, hreads]
    have hself : ((p.note (.next h) (.item (t.advance h).1)).read h).length =
        (p.read h).length + 1 := by
      rw [read_note_next_self, List.length_append, List.length_singleton]
    constructor
    · rintro (⟨k, hk, hlt⟩ | hlt)
      · refine ⟨k, hk, ?_⟩
        by_cases hkh : k = h
        · subst hkh
          omega
        · rwa [read_note_next_of_ne hkh]
      · exact ⟨h, hmem, hself ▸ hlt⟩
    · rintro ⟨k, hk, hlt⟩
      by_cases hkh : k = h
      · subst hkh
        exact .inr (hself ▸ hlt)
      · rw [read_note_next_of_ne hkh] at hlt
        exact .inl ⟨k, hk, hlt⟩

/-- What has been read by a cursor belongs to the lineages of its forks. -/
theorem fork {c : Cursor} (hu : t.roster.use h = .ok c) (count : Nat) :
    Matches origin w (p.note (.fork h count) (.cursors (t.split h count).1))
      (t.split h count).2 := by
  obtain ⟨hmem, hfree, hstands⟩ := hm.of_use hu
  have hnew : ∀ k, k ∈ (t.split h count).1 ↔ t.roster.size ≤ k ∧ k < t.roster.size + count :=
    fun k => by rw [Tape.split_fst hu, List.mem_range'_1]
  have hold : ∀ k ∈ p.cursors, k ∉ (t.split h count).1 := fun k hk hkn =>
    Nat.not_le_of_lt ((hm.cursors k).1 hk) ((hnew k).1 hkn).1
  have hroster : (t.split h count).2.roster = (t.roster.split h count).2 := rfl
  refine
    { fed := hm.fed.split hu count
      read := fun k => ?read
      first := List.mem_append_left _ hm.first
      cursors := fun k => ?cursors
      forked := fun k => ?forked
      use := fun k hk hkfree => ?use
      filled := fun n hn => ?filled }
  case read =>
    by_cases hk : k ∈ (t.split h count).1
    · rw [read_note_fork_of_mem hk]
      exact hm.read h
    · rw [read_note_fork_of_not_mem hk]
      exact hm.read k
  case cursors =>
    rw [hroster, Roster.size_split hu, note, List.mem_append, hm.cursors, hnew]
    omega
  case forked =>
    rw [hroster, Roster.isBlocked_split hu, note, List.mem_append, hm.forked, List.mem_singleton,
      or_comm]
  case use =>
    rw [hroster]
    rw [note, List.mem_append] at hk
    rw [note, List.mem_append, List.mem_singleton, not_or] at hkfree
    by_cases hkn : k ∈ (t.split h count).1
    · obtain ⟨hle, hlt⟩ := (hnew k).1 hkn
      rw [read_note_fork_of_mem hkn]
      exact ⟨c, (Roster.use_split hu).2 (.inl ⟨hle, hlt, rfl⟩), hstands⟩
    · obtain ⟨d, hd, hdstands⟩ := hm.use k (hk.resolve_right hkn) hkfree.1
      rw [read_note_fork_of_not_mem hkn]
      exact ⟨d, (Roster.use_split hu).2 (.inr ⟨hkfree.2, hd⟩), hdstands⟩
  case filled =>
    rw [Tape.filled_split, hm.filled n hn]
    constructor
    · rintro ⟨k, hk, hlt⟩
      exact ⟨k, List.mem_append_left _ hk, by rwa [read_note_fork_of_not_mem (hold k hk)]⟩
    · rintro ⟨k, hk, hlt⟩
      by_cases hkn : k ∈ (t.split h count).1
      · rw [read_note_fork_of_mem hkn] at hlt
        exact ⟨h, hmem, hlt⟩
      · rw [read_note_fork_of_not_mem hkn] at hlt
        exact ⟨k, (List.mem_append.1 hk).resolve_right hkn, hlt⟩

/-- An answer is noted. -/
theorem run {c : Call} {a : Answer α} (hrun : c.run t = .ok (a, t')) :
    Matches origin w (p.note c a) t' := by
  cases hu : t.roster.use c.cursor with
  | error e =>
    rw [Call.run_of_error hu] at hrun
    cases hrun
  | ok d =>
    cases c with
    | next h =>
      rw [Call.cursor] at hu
      rw [Call.run, Tape.next_of_use hu] at hrun
      cases hrun
      exact hm.next hu
    | position h =>
      rw [Call.cursor] at hu
      rw [Call.run, Tape.position_of_use hu] at hrun
      cases hrun
      exact hm
    | fork h count =>
      rw [Call.cursor] at hu
      rw [Call.run, Tape.fork_of_use hu] at hrun
      cases hrun
      exact hm.fork hu count

/-- So it is after any number of calls. -/
theorem play (calls : List Call) :
    Matches origin w (History.play calls (p, t)).1 (History.play calls (p, t)).2 := by
  induction calls generalizing p t with
  | nil => exact hm
  | cons c calls ih =>
    rw [History.play]
    split
    · rename_i hrun
      exact ih (hm.run hrun)
    · exact ih hm

/-- The producer was asked for the chunks that the most diligent lineage needs. -/
theorem calls_eq : ∃ most, IsGreatest {n | ∃ h ∈ p.cursors, n = (p.read h).length} most ∧
    t.calls = min (10 * (most ⌈/⌉ 10)) (w.length + 1) := by
  obtain ⟨h, hh, hmost⟩ := Set.exists_max_image {h | h ∈ p.cursors} (fun h => (p.read h).length)
    (List.finite_toSet p.cursors) ⟨0, hm.first⟩
  refine ⟨(p.read h).length, ⟨⟨h, hh, rfl⟩, ?_⟩, ?_⟩
  · rintro _ ⟨k, hk, rfl⟩
    exact hmost k hk
  · have hfilled : ∀ n, 10 ∣ n → (n < t.filled ↔ n < (p.read h).length) := fun n hn => by
      rw [hm.filled n hn]
      constructor
      · rintro ⟨k, hk, hlt⟩
        exact Nat.lt_of_lt_of_le hlt (hmost k hk)
      · exact fun hlt => ⟨h, hh, hlt⟩
    have hcalls := hm.fed.tells.producer.calls
    -- The tape is filled up to the first multiple of the chunk size that is enough.
    obtain ⟨i, hi⟩ := t.chunkSize_dvd_filled
    rw [chunkSize] at hi
    have henough := hfilled (10 * i) (Nat.dvd_mul_right 10 i)
    have hneeded := hfilled (10 * (i - 1)) (Nat.dvd_mul_right 10 _)
    rw [hcalls, Nat.ceilDiv_eq_add_pred_div]
    omega

end Matches

/-- All that a cursor which was not forked is told. -/
structure Serves (w : List α) (p : History α) (t : Tape σ α) (h : Nat) : Prop where
  /-- The element at the place to which its lineage has read. -/
  next : (t.next h).map (·.1) = .ok w[(p.read h).length]?
  /-- The number of elements that its lineage got. -/
  position : t.position h = .ok ((p.read h).countP (·.isSome))
  /-- As many new cursors as it is forked into. -/
  fork : ∀ count, ∃ hs t', t.fork h count = .ok (hs, t') ∧ hs.length = count ∧ hs.Nodup ∧
    ∀ k ∈ hs, k ∉ p.cursors

theorem Matches.serves (hm : Matches origin w p t) (hh : h ∈ p.cursors) (hfree : h ∉ p.forked) :
    Serves w p t h := by
  obtain ⟨c, hu, hreads, hposition⟩ := hm.use h hh hfree
  refine ⟨?_, hposition ▸ Tape.position_of_use hu, fun count =>
    ⟨(t.split h count).1, (t.split h count).2, Tape.fork_of_use hu count, ?_⟩⟩
  · rw [Tape.next_of_use hu, Except.map, hm.fed.tells.advance_fst hu, hreads]
  · rw [Tape.split_fst hu]
    refine ⟨List.length_range', List.nodup_range', fun k hk hmem => ?_⟩
    exact Nat.not_le_of_lt ((hm.cursors k).1 hmem) (List.mem_range'_1.1 hk).1

/-- A cursor that was forked is refused everything, and nothing comes of trying. -/
theorem Matches.refuses (hm : Matches origin w p t) {c : Call} (hc : c.cursor ∈ p.forked) :
    c.run t = .error .alreadyForked ∧ History.play [c] (p, t) = (p, t) := by
  have hrun : c.run t = .error .alreadyForked :=
    Call.run_of_error (Roster.use_of_isBlocked ((hm.forked _).1 hc))
  refine ⟨hrun, ?_⟩
  rw [History.play, hrun]
  rfl

end History

namespace Tape

variable {σ α : Type} {produce : σ → Option α × σ} {s : σ} {w : List α}

/-- All cursors of a tape read one list from its beginning. Whatever calls were made, by
    however many cursors and in whatever order,

    * what was read along a lineage are the first elements of the list, and nothing
      behind its end;
    * a cursor that was not forked is told so, and how many elements its lineage got;
    * a cursor that was forked is refused everything, and nothing comes of trying;
    * the producer was asked for the chunks of ten that the most diligent lineage needs,
      but not again once it has ended the list. -/
theorem reads_one_list (hs : Yields produce w s) (calls : List Call) :
    let p := (History.play calls (.start, new produce s)).1
    let t := (History.play calls (.start, new produce s)).2
    (∀ h, p.read h = (List.range (p.read h).length).map (w[·]?)) ∧
    (∀ h ∈ p.cursors, h ∉ p.forked → p.Serves w t h) ∧
    (∀ c : Call, c.cursor ∈ p.forked →
      c.run t = .error .alreadyForked ∧ History.play [c] (p, t) = (p, t)) ∧
    (∀ h, t.roster.isBlocked h ↔ h ∈ p.forked) ∧
    ∃ most, IsGreatest {n | ∃ h ∈ p.cursors, n = (p.read h).length} most ∧
      t.calls = min (10 * (most ⌈/⌉ 10)) (w.length + 1) := by
  have hm := (History.Matches.start hs).play calls
  exact ⟨hm.read, fun h => hm.serves, fun c => hm.refuses, fun h => (hm.forked h).symm,
    hm.calls_eq⟩

/-- A cursor that is forked at the end of a chunk, and one of its forks reads beyond the
    end of the list. -/
def overreading : List Call :=
  List.replicate 10 (.next 0) ++ [.fork 0 2] ++ List.replicate 4 (.next 1) ++
    [.position 1, .next 0, .next 2]

theorem reads_one_list_overreading : Yields fromList (List.range 12) (List.range 12) ∧
    let p := (History.play overreading (.start, ofList (List.range 12))).1
    let t := (History.play overreading (.start, ofList (List.range 12))).2
    (p.read 1).length = 14 ∧ t.calls = 13 ∧ p.Serves (List.range 12) t 2 := by
  have hs : Yields fromList (List.range 12) (List.range 12) := yields_fromList _
  obtain ⟨-, hserves, -⟩ := reads_one_list hs overreading
  exact ⟨hs, by decide +kernel, by decide +kernel,
    hserves 2 (by decide +kernel) (by decide +kernel)⟩

end Tape

end Ramify.Fork
