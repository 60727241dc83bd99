/-!
# Bounded patience

Some tasks are worked off from the front of a list. A task may be gone on with
as long as there is *patience* with it, a number of rounds. A round uses up one
of them and leaves any number of tasks in the place of the one that was worked
on, each met with the patience that is left.

No number that is known beforehand bounds the rounds, for nobody knows how many
tasks a round will leave. Still they come to an end (`Patience.wf_spent`): the
patience with the tasks in one place only ever shrinks, and the tasks behind
have to wait.
-/

namespace Ramify.Search

/-- The patience with each task of a list. -/
structure Patience where
  /-- The number of rounds for each task. -/
  rounds : List Nat

namespace Patience

/-- What may become of the patience with a list of tasks. -/
inductive Spent : Patience → Patience → Prop
  /-- A round with the first task left `count` tasks. -/
  | round (count : Nat) {n : Nat} {rest : List Nat} :
    Spent ⟨List.replicate count n ++ rest⟩ ⟨(n + 1) :: rest⟩
  /-- The first task is left alone. -/
  | leave {n : Nat} {rest : List Nat} : Spent ⟨rest⟩ ⟨n :: rest⟩

theorem acc_cons {n : Nat} {rest : List Nat} (h : Acc Spent ⟨rest⟩) : Acc Spent ⟨n :: rest⟩ := by
  induction n generalizing rest with
  | zero =>
    refine ⟨_, fun p hp => ?_⟩
    cases hp with
    | leave => exact h
  | succ n ih =>
    refine ⟨_, fun p hp => ?_⟩
    cases hp with
    | leave => exact h
    | round count =>
      induction count with
      | zero => exact h
      | succ count more => exact ih more

/-- Patience comes to an end. -/
theorem wf_spent : WellFounded Spent := by
  refine ⟨fun ⟨rounds⟩ => ?_⟩
  induction rounds with
  | nil => exact ⟨_, fun p hp => by cases hp⟩
  | cons n rest ih => exact acc_cons ih

instance : WellFoundedRelation Patience := ⟨Spent, wf_spent⟩

end Patience

end Ramify.Search
