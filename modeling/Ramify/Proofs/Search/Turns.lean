import Mathlib.Data.List.Perm.Basic
import Mathlib.Logic.Relation
import Ramify.Proofs.Search.Paths
import Ramify.Search.Crew

/-!
# The turns of a crew

All that a turn can do, where a crew searches a pure machine: a worker is replaced
by others and sends reports (`Worker.Does`), or the coordinator reads the oldest
report, or ends the search (`Crew.Moves`). Every turn of a schedule is one of these
moves (`Crew.moves_step`). The moves are a little more liberal, as a worker may
overlook for a while that the search was called off.
-/

namespace Ramify.Search

variable {σ ε : Type} {kind : σ → Kind} {next : σ → Except ε (List σ)} {s : σ}
  {w : Worker σ ε} {out : List (Report σ ε)}

/-- What a worker does when it has its turn: the workers that take its place, and
    the reports it sends. `off` tells whether the search was called off, which a
    worker may overlook for a while. -/
inductive Worker.Does (kind : σ → Kind) (next : σ → Except ε (List σ)) (off : Bool) :
    Worker σ ε → List (Worker σ ε) → List (Report σ ε) → Prop
  | leave {s : σ} : off → Does kind next off (.poll s) [] []
  | stay {s : σ} : Does kind next off (.poll s) [.compute s] []
  | fail {s : σ} {e : ε} : next s = .error e →
    Does kind next off (.compute s) [.conclude (.aborted e)] []
  | succeed {s t : σ} {ts : List σ} : next s = .ok ts → t ∈ ts → kind t = .success →
    Does kind next off (.compute s) [.conclude (.succeeded t)] []
  | giveUp {s : σ} {ts : List σ} : next s = .ok ts → (∀ t ∈ ts, kind t = .fail) →
    Does kind next off (.compute s) [.conclude .failed] []
  | follow {s t : σ} {ts : List σ} : next s = .ok ts → (∀ u ∈ ts, kind u ≠ .success) →
    (∀ u, u ∈ [t] ↔ u ∈ ts ∧ kind u = .unfinished) → Does kind next off (.compute s) [.poll t] []
  | branch {s t : σ} {ts rest : List σ} : next s = .ok ts → (∀ u ∈ ts, kind u ≠ .success) →
    (∀ u, u ∈ t :: rest ↔ u ∈ ts ∧ kind u = .unfinished) →
    Does kind next off (.compute s) [.announce t rest] []
  | report {r : Report σ ε} : Does kind next off (.conclude r) [] [r]
  | announce {t : σ} {rest : List σ} :
    Does kind next off (.announce t rest) [.hire t rest] [.started rest.length]
  | hired {t : σ} : Does kind next off (.hire t []) [.poll t] []
  | hire {t u : σ} {rest : List σ} :
    Does kind next off (.hire t (u :: rest)) [.hire t rest, .poll u] []

theorem does_plan {off : Bool} {ts : List σ} (h : next s = .ok ts) :
    (Worker.compute s).Does kind next off [Crew.plan (.ofPure kind next) ts] [] := by
  rw [Crew.plan]
  cases hfirst : (Automaton.ofPure kind next).firstSuccess ts with
  | some t =>
    have ht : (Automaton.ofPure kind next).kind t = .success := by
      simpa using List.find?_some hfirst
    exact .succeed h (List.mem_of_find?_eq_some hfirst) ht
  | none =>
    have hnone : ∀ u ∈ ts, kind u ≠ .success := fun u hu hk =>
      List.find?_eq_none.1 hfirst u hu (decide_eq_true hk)
    have hmem : ∀ u, u ∈ (Automaton.ofPure kind next).unfinished ts ↔
        u ∈ ts ∧ kind u = .unfinished := fun u => Breadth.mem_unfinished_ofPure
    dsimp only
    match hopen : (Automaton.ofPure kind next).unfinished ts with
    | [] =>
      rw [hopen] at hmem
      refine .giveUp h fun u hu => ?_
      cases hk : kind u with
      | fail => rfl
      | success => exact absurd hk (hnone u hu)
      | unfinished => exact absurd ((hmem u).2 ⟨hu, hk⟩) List.not_mem_nil
    | [t] => exact .follow h hnone (hopen ▸ hmem)
    | t :: u :: rest => exact .branch h hnone (hopen ▸ hmem)

namespace Crew

variable {c c' : Crew σ Unit ε}

/-- What a turn does to a crew. The order of the workers is of no concern. -/
inductive Moves (kind : σ → Kind) (next : σ → Except ε (List σ)) (c : Crew σ Unit ε) :
    Crew σ Unit ε → Prop
  | idle : Moves kind next c c
  | work {w : Worker σ ε} {new rest : List (Worker σ ε)} {out : List (Report σ ε)}
    {c' : Crew σ Unit ε} : c.workers.Perm (w :: rest) → w.Does kind next c.verdict.isSome new out →
    c'.workers.Perm (new ++ rest) → c'.inbox = c.inbox ++ out → c'.active = c.active →
    c'.verdict = c.verdict → Moves kind next c c'
  | read {r : Report σ ε} {rs : List (Report σ ε)} : c.verdict = none → c.inbox = r :: rs →
    Moves kind next c (read r { c with inbox := rs })
  | quit : c.verdict = none → c.inbox = [] → c.workers = [] →
    Moves kind next c { c with verdict := some .exhausted }

/-- The worker at a place is replaced by others. -/
theorem Moves.set {i : Nat} {w' : Worker σ ε} (hw : c.workers[i]? = some w)
    (hdoes : w.Does kind next c.verdict.isSome [w'] out) :
    Moves kind next c { c with workers := c.workers.set i w', inbox := c.inbox ++ out } := by
  obtain ⟨hi, rfl⟩ := List.getElem?_eq_some_iff.1 hw
  exact .work (List.getElem_cons_eraseIdx_perm hi).symm hdoes (List.set_perm_cons_eraseIdx hi w')
    rfl rfl rfl

theorem Moves.erase {i : Nat} (hw : c.workers[i]? = some w)
    (hdoes : w.Does kind next c.verdict.isSome [] out) :
    Moves kind next c { c with workers := c.workers.eraseIdx i, inbox := c.inbox ++ out } := by
  obtain ⟨hi, rfl⟩ := List.getElem?_eq_some_iff.1 hw
  exact .work (List.getElem_cons_eraseIdx_perm hi).symm hdoes (.refl _) rfl rfl rfl

theorem moves_work {i : Nat} (hw : c.workers[i]? = some w) :
    Moves kind next c (work (.ofPure kind next) i w c) := by
  have hnil : c.inbox ++ [] = c.inbox := List.append_nil _
  have next_eq : ∀ s, (Automaton.ofPure kind next).next s c.world = (next s, c.world) :=
    fun _ => rfl
  cases w with
  | poll s =>
    rw [work]
    split
    · rename_i hoff
      have hleave : Moves kind next c _ := .erase hw (.leave hoff)
      simpa only [hnil] using hleave
    · simpa only [hnil] using Moves.set hw .stay
  | compute s =>
    cases hnext : next s with
    | error e =>
      have hwork : work (.ofPure kind next) i (.compute s) c =
          { c with workers := c.workers.set i (.conclude (.aborted e)) } := by
        rw [work, next_eq, hnext]
      rw [hwork]
      simpa only [hnil] using Moves.set hw (.fail hnext)
    | ok ts =>
      have hwork : work (.ofPure kind next) i (.compute s) c =
          { c with workers := c.workers.set i (plan (.ofPure kind next) ts) } := by
        rw [work, next_eq, hnext]
      rw [hwork]
      simpa only [hnil] using Moves.set hw (does_plan hnext)
  | conclude r => exact .erase hw .report
  | announce t rest => exact .set hw .announce
  | hire t rest =>
    cases rest with
    | nil =>
      rw [work]
      simpa only [hnil] using Moves.set hw .hired
    | cons u rest =>
      obtain ⟨hi, hwi⟩ := List.getElem?_eq_some_iff.1 hw
      have hle : i + 1 ≤ (c.workers.set i (.hire t rest)).length := by
        rwa [List.length_set]
      have hperm : c.workers.Perm (.hire t (u :: rest) :: c.workers.eraseIdx i) := by
        rw [← hwi]
        exact (List.getElem_cons_eraseIdx_perm hi).symm
      refine .work hperm .hire ?_ hnil.symm rfl rfl
      refine (List.perm_insertIdx _ _ hle).trans ?_
      exact ((List.set_perm_cons_eraseIdx hi _).cons _).trans (.swap _ _ _)

theorem moves_step (turn : Turn) : Moves kind next c (step (.ofPure kind next) c turn) := by
  cases turn with
  | worker i =>
    rw [step]
    split
    · rename_i w hw
      exact moves_work hw
    · exact .idle
  | coordinator =>
    rw [step, coordinate]
    split
    · exact .idle
    · rename_i hverdict
      rw [Option.not_isSome_iff_eq_none] at hverdict
      split
      · rename_i r rs hinbox
        exact .read hverdict hinbox
      · rename_i hinbox
        split
        · rename_i hworkers
          exact .quit hverdict hinbox (List.isEmpty_iff.1 hworkers)
        · exact .idle

/-- A schedule is a sequence of moves. -/
theorem reaches_run (schedule : List Turn) (c : Crew σ Unit ε) :
    Relation.ReflTransGen (Moves kind next) c (run (.ofPure kind next) schedule c) := by
  induction schedule generalizing c with
  | nil => exact .refl
  | cons turn schedule ih => exact .head (moves_step turn) (ih _)

end Crew

end Ramify.Search
