import Ramify.Proofs.Search.Crew
import Ramify.Proofs.Search.Lockstep

/-!
# What steps keep up

What every step of a machine keeps up in its world (`Automaton.Keeps`) holds wherever a
search stops that began with it: a search generation by generation (`Keeps.run`), and the
search by a crew, whatever the schedule (`Keeps.schedule`, `Keeps.search`). No turn changes
the world but that of a worker that computes the successors of its state.
-/

namespace Ramify.Search

variable {σ ω ε : Type} {a : Automaton σ ω ε} {I : ω → Prop} {w : ω} {limit : Nat} {s : σ}
  {c : Crew σ ω ε}

/-- Every step of a machine keeps something up in its world. -/
def Automaton.Keeps (a : Automaton σ ω ε) (I : ω → Prop) : Prop := ∀ s w, I w → I (a.next s w).2

namespace Automaton.Keeps

/-- A machine is in lockstep with itself. -/
theorem lockstep (h : a.Keeps I) : Lockstep a a fun w v => w = v ∧ I w where
  kind := rfl
  next := by
    rintro s w _ ⟨rfl, hI⟩
    exact ⟨rfl, rfl, h s w hI⟩

theorem run (h : a.Keeps I) (hI : I w) : I (Breadth.run a limit s w).2 :=
  (h.lockstep.run ⟨rfl, hI⟩).2.2

/-! ### Crews -/

theorem step (h : a.Keeps I) (hI : I c.world) (turn : Turn) : I (Crew.step a c turn).world := by
  cases turn with
  | coordinator =>
    rw [Crew.step, Crew.held_coordinate_le.2]
    exact hI
  | worker i =>
    rw [Crew.step]
    cases hw : c.workers[i]? with
    | none => exact hI
    | some worker =>
      by_cases hcompute : ∃ s, worker = .compute s
      · obtain ⟨s, rfl⟩ := hcompute
        have hnext := h s c.world hI
        dsimp only
        rw [Crew.work]
        generalize a.next s c.world = r at hnext ⊢
        obtain ⟨_ | _, _⟩ := r
        · exact hnext
        · exact hnext
      · dsimp only
        rw [(Crew.held_work_le hw fun s hs => hcompute ⟨s, hs⟩).2]
        exact hI

theorem schedule (h : a.Keeps I) (hI : I c.world) (schedule : List Turn) :
    I (Crew.run a schedule c).world := by
  induction schedule generalizing c with
  | nil => exact hI
  | cons turn schedule ih => exact ih (h.step hI turn)

theorem turns (h : a.Keeps I) (hI : I c.world) (patience : Nat) :
    I (Crew.turns a patience limit c).2 := by
  induction limit generalizing c with
  | zero => exact hI
  | succ limit ih =>
    obtain ⟨schedule, hschedule⟩ :=
      Crew.exists_follow_eq (a := a) 0 ⟨List.replicate c.workers.length patience⟩ c
    have hfollow := h.schedule hI schedule
    rw [Crew.turns, hschedule]
    split
    · exact hfollow
    · exact ih hfollow

theorem search (h : a.Keeps I) (hI : I w) (threads : Nat) :
    I (Crew.search a threads limit s w).2 := by
  rw [Crew.search]
  split
  · exact hI
  · exact hI
  · exact h.turns hI _

end Automaton.Keeps

end Ramify.Search
