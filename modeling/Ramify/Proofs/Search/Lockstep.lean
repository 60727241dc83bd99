import Ramify.Search.Breadth

/-!
# Searches side by side

When a search generation by generation is the same as another one:

* a search that was not stopped goes on as before with a higher limit
  (`Breadth.run_eq_of_le`);
* machines whose states have the same successors, in worlds that stay related to each
  other, find the same (`Lockstep.run`). One of the worlds may hold a log of what the
  search did (`Automaton.logging`).
-/

namespace Ramify.Search

variable {σ ω υ ε : Type} {a : Automaton σ ω ε} {b : Automaton σ υ ε} {w : ω} {v : υ}
  {limit limit' : Nat} {s : σ} {states : List σ}

/-! ### Limits -/

namespace Breadth

theorem generations_eq_of_le (hle : limit ≤ limit')
    (hgoes : (generations a limit states w).1 ≠ .stopped) :
    generations a limit' states w = generations a limit states w := by
  induction limit generalizing limit' states w with
  | zero => exact absurd rfl hgoes
  | succ limit ih =>
    obtain ⟨limit', rfl⟩ := Nat.exists_eq_add_of_le' hle
    rw [Nat.add_succ, ← Nat.succ_eq_add_one, generations, generations] at *
    generalize generation a states [] w = r at hgoes ⊢
    obtain ⟨_ | _ | ⟨u, us⟩, w'⟩ := r
    · rfl
    · rfl
    · exact ih (Nat.le_add_left limit limit') hgoes

/-- A search that was not stopped has no use for a higher limit. -/
theorem run_eq_of_le (hle : limit ≤ limit') (hgoes : (run a limit s w).1 ≠ .stopped) :
    run a limit' s w = run a limit s w := by
  rw [run, run] at *
  split
  · rfl
  · rfl
  · rename_i hk
    rw [hk] at hgoes
    exact generations_eq_of_le hle hgoes

/-- Searches that are not stopped end in the same way, whatever their limits. -/
theorem run_eq_of_ne_stopped (h : (run a limit s w).1 ≠ .stopped)
    (h' : (run a limit' s w).1 ≠ .stopped) : run a limit s w = run a limit' s w := by
  rcases Nat.le_total limit limit' with hle | hle
  · exact (run_eq_of_le hle h).symm
  · exact run_eq_of_le hle h'

end Breadth

/-! ### Related worlds -/

/-- Two machines do the same in worlds that are related, and keep them so. -/
structure Lockstep (a : Automaton σ ω ε) (b : Automaton σ υ ε) (R : ω → υ → Prop) : Prop where
  kind : b.kind = a.kind
  next : ∀ {s w v}, R w v → (a.next s w).1 = (b.next s v).1 ∧ R (a.next s w).2 (b.next s v).2

namespace Lockstep

variable {R : ω → υ → Prop}

theorem firstSuccess (h : Lockstep a b R) : b.firstSuccess states = a.firstSuccess states := by
  rw [Automaton.firstSuccess, h.kind, Automaton.firstSuccess]

theorem unfinished (h : Lockstep a b R) : b.unfinished states = a.unfinished states := by
  rw [Automaton.unfinished, h.kind, Automaton.unfinished]

theorem generation (h : Lockstep a b R) (states gathered : List σ) (hR : R w v) :
    (Breadth.generation a states gathered w).1 = (Breadth.generation b states gathered v).1 ∧
      R (Breadth.generation a states gathered w).2 (Breadth.generation b states gathered v).2 := by
  induction states generalizing gathered w v with
  | nil => exact ⟨rfl, hR⟩
  | cons s states ih =>
    obtain ⟨hfst, hsnd⟩ := h.next (s := s) hR
    rw [Breadth.generation, Breadth.generation]
    generalize a.next s w = r at hfst hsnd ⊢
    generalize b.next s v = r' at hfst hsnd ⊢
    obtain ⟨o, w'⟩ := r
    obtain ⟨o', v'⟩ := r'
    obtain rfl : o = o' := hfst
    cases o with
    | error e => exact ⟨rfl, hsnd⟩
    | ok ts =>
      dsimp only
      rw [h.firstSuccess, h.unfinished]
      split
      · exact ⟨rfl, hsnd⟩
      · exact ih _ hsnd

theorem generations (h : Lockstep a b R) (hR : R w v) :
    (Breadth.generations a limit states w).1 = (Breadth.generations b limit states v).1 ∧
      R (Breadth.generations a limit states w).2 (Breadth.generations b limit states v).2 := by
  induction limit generalizing states w v with
  | zero => exact ⟨rfl, hR⟩
  | succ limit ih =>
    obtain ⟨hfst, hsnd⟩ := h.generation states [] hR
    rw [Breadth.generations, Breadth.generations]
    generalize Breadth.generation a states [] w = r at hfst hsnd ⊢
    generalize Breadth.generation b states [] v = r' at hfst hsnd ⊢
    obtain ⟨progress, w'⟩ := r
    obtain ⟨progress', v'⟩ := r'
    obtain rfl : progress = progress' := hfst
    rcases progress with _ | _ | ⟨u, us⟩
    · exact ⟨rfl, hsnd⟩
    · exact ⟨rfl, hsnd⟩
    · exact ih hsnd

/-- Machines in lockstep find the same. -/
theorem run (h : Lockstep a b R) (hR : R w v) :
    (Breadth.run a limit s w).1 = (Breadth.run b limit s v).1 ∧
      R (Breadth.run a limit s w).2 (Breadth.run b limit s v).2 := by
  rw [Breadth.run, Breadth.run, h.kind]
  split
  · exact ⟨rfl, hR⟩
  · exact ⟨rfl, hR⟩
  · exact h.generations hR

end Lockstep

/-! ### Logs -/

/-- A machine that logs something of each state that is tried, in the world where it
    is tried. -/
def Automaton.logging {κ : Type} (a : Automaton σ ω ε) (measure : σ → ω → κ) :
    Automaton σ (ω × List κ) ε :=
  ⟨a.kind, fun s w => ((a.next s w.1).1, (a.next s w.1).2, w.2 ++ [measure s w.1])⟩

/-- A log makes no difference. What relates it to the world is kept up if each step
    keeps it up. -/
theorem Lockstep.logging {κ : Type} {measure : σ → ω → κ} {I : ω → List κ → Prop}
    (h : ∀ {s w log}, I w log → I (a.next s w).2 (log ++ [measure s w])) :
    Lockstep (a.logging measure) a fun logged w => logged.1 = w ∧ I w logged.2 where
  kind := rfl
  next := by
    rintro s ⟨w, log⟩ _ ⟨rfl, hI⟩
    exact ⟨rfl, rfl, h hI⟩

end Ramify.Search
