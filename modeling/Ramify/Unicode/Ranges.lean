/-!
# Runs of code points

A property of characters is kept as the list of the runs of code points that
have it, each given by its first and last member. The runs are disjoint and in
ascending order, so that a search (`Unicode.within`) can stop at the first run
that starts beyond the code point looked for.
-/

namespace Ramify.Unicode

/-- Whether `n` lies in one of the runs, which are in ascending order. -/
def within : List (Nat × Nat) → Nat → Bool
  | [], _ => false
  | (lo, hi) :: runs, n => if n < lo then false else n ≤ hi || within runs n

/-- The runs are disjoint, in ascending order and none is empty. -/
def Ascending : List (Nat × Nat) → Prop
  | [] => True
  | (lo, hi) :: runs => lo ≤ hi ∧ (∀ run ∈ runs, hi < run.1) ∧ Ascending runs

/-- It is enough to compare neighbours. -/
theorem ascending_cons_cons {lo hi lo' hi' : Nat} {runs : List (Nat × Nat)} :
    Ascending ((lo, hi) :: (lo', hi') :: runs) ↔
      lo ≤ hi ∧ hi < lo' ∧ Ascending ((lo', hi') :: runs) := by
  constructor
  · rintro ⟨hle, hbelow, hrest⟩
    exact ⟨hle, hbelow _ List.mem_cons_self, hrest⟩
  · rintro ⟨hle, hlt, hrest⟩
    refine ⟨hle, fun run hrun => ?_, hrest⟩
    rcases List.mem_cons.1 hrun with rfl | hrun
    · exact hlt
    · exact Nat.lt_trans (Nat.lt_of_lt_of_le hlt hrest.1) (hrest.2.1 run hrun)

instance decidableAscending : DecidablePred Ascending
  | [] => isTrue trivial
  | [(lo, hi)] => decidable_of_iff (lo ≤ hi) (by simp [Ascending])
  | (_, _) :: (lo, hi) :: runs =>
    have := decidableAscending ((lo, hi) :: runs)
    decidable_of_iff _ ascending_cons_cons.symm

/-- A search of ascending runs finds exactly their members. -/
theorem within_iff {runs : List (Nat × Nat)} (h : Ascending runs) (n : Nat) :
    within runs n = true ↔ ∃ run ∈ runs, run.1 ≤ n ∧ n ≤ run.2 := by
  induction runs with
  | nil => simp [within]
  | cons run runs ih =>
    obtain ⟨lo, hi⟩ := run
    obtain ⟨_, below, rest⟩ := h
    simp only [within, List.mem_cons, exists_eq_or_imp]
    split
    · rename_i hlo
      -- Every later run starts beyond `n`, as the first one does.
      simp only [Bool.false_eq_true, false_iff, not_or, not_exists, not_and]
      exact ⟨fun _ => by omega, fun run' h' hn => by have := below run' h'; omega⟩
    · rename_i hlo
      simp only [Bool.or_eq_true, decide_eq_true_eq, ih rest]
      constructor
      · rintro (h | h)
        · exact .inl ⟨by omega, h⟩
        · exact .inr h
      · rintro (h | h)
        · exact .inl h.2
        · exact .inr h

end Ramify.Unicode
