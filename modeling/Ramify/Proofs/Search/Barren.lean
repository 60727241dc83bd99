import Mathlib.Data.Set.Finite.Lattice
import Ramify.Proofs.Search.Paths

/-!
# Searching in vain

The states that can be reached through unfinished ones form a tree. A place in it
is told by the successors that are taken on the way, and the state that lies
there is the end of a path (`Lies`). There is nothing to be found below a state
that is *barren*: the successors of all unfinished states can be computed, and
none of them is a success. As this is an inductive definition, the tree of the
unfinished states comes to an end (`Barren.finite`).
-/

namespace Ramify.Search

variable {σ ε : Type} {kind : σ → Kind} {next : σ → Except ε (List σ)} {s t u : σ} {k : Nat}
  {path : List Nat}

/-- A state lies at a place below another one. The place is told by which of the
    successors is taken at each step. -/
inductive Lies (kind : σ → Kind) (next : σ → Except ε (List σ)) : List Nat → σ → σ → Prop
  | root (s : σ) : Lies kind next [] s s
  | onward {i : Nat} {path : List Nat} {s t u : σ} {ts : List σ} : kind s = .unfinished →
    next s = .ok ts → ts[i]? = some t → Lies kind next path t u → Lies kind next (i :: path) s u

theorem Lies.leads (h : Lies kind next path s u) : Leads kind next path.length s u := by
  induction h with
  | root => exact .refl _
  | onward hs hnext ht _ ih => exact .step hs hnext (List.mem_of_getElem? ht) ih

/-- Nothing lies below a finished state. -/
theorem Lies.eq_of_finished (h : Lies kind next path s u) (hs : kind s ≠ .unfinished) : u = s :=
  h.leads.eq_of_finished hs

/-- There is neither a success nor a failure to be found below a state. -/
inductive Barren (kind : σ → Kind) (next : σ → Except ε (List σ)) : σ → Prop
  | intro {s : σ} {ts : List σ} : next s = .ok ts → (∀ t ∈ ts, kind t ≠ .success) →
    (∀ t ∈ ts, kind t = .unfinished → Barren kind next t) → Barren kind next s

namespace Barren

theorem exists_next (h : Barren kind next s) :
    ∃ ts, next s = .ok ts ∧ ∀ t ∈ ts, kind t ≠ .success := by
  cases h with
  | intro hnext hnone _ => exact ⟨_, hnext, hnone⟩

/-- The unfinished states below a barren state are barren. -/
theorem of_leads (h : Barren kind next s) (hlead : Leads kind next k s u)
    (hu : kind u = .unfinished) : Barren kind next u := by
  induction hlead with
  | refl => exact h
  | @step _ s t u ts hs hnext ht hlead ih =>
    cases h with
    | intro hnext' _ hbelow =>
      obtain rfl := Except.ok.inj (hnext.symm.trans hnext')
      by_cases hopen : kind t = .unfinished
      · exact ih (hbelow t ht hopen) hu
      · rw [hlead.eq_of_finished hopen] at hu
        exact absurd hu hopen

/-- No success can be reached from a barren state. -/
theorem ne_success (h : Barren kind next s) (hs : kind s = .unfinished)
    (hlead : Leads kind next k s u) : kind u ≠ .success := by
  induction hlead with
  | refl => simp [hs]
  | @step _ s t u ts _ hnext ht hlead ih =>
    cases h with
    | intro hnext' hnone hbelow =>
      obtain rfl := Except.ok.inj (hnext.symm.trans hnext')
      by_cases hopen : kind t = .unfinished
      · exact ih (hbelow t ht hopen) hopen
      · rw [hlead.eq_of_finished hopen]
        exact hnone t ht

/-- The tree of the unfinished states below a barren state is finite. -/
theorem finite (h : Barren kind next s) :
    {path | ∃ u, Lies kind next path s u ∧ kind u = .unfinished}.Finite := by
  induction h with
  | @intro s ts hnext _ _ ih =>
    -- The places below the `i`-th successor.
    have hbelow : ∀ i : Nat,
        {path | ∃ t u, ts[i]? = some t ∧ Lies kind next path t u ∧ kind u = .unfinished}.Finite := by
      intro i
      cases ht : ts[i]? with
      | none => simp
      | some t =>
        simp only [Option.some.injEq, exists_and_left, exists_eq_left']
        by_cases hopen : kind t = .unfinished
        · exact ih t (List.mem_of_getElem? ht) hopen
        · refine Set.Finite.subset Set.finite_empty fun path hpath => ?_
          obtain ⟨u, hlies, hu⟩ := hpath
          rw [hlies.eq_of_finished hopen] at hu
          exact hopen hu
    refine Set.Finite.subset (Set.Finite.insert [] (Set.Finite.biUnion
      (Set.finite_lt_nat ts.length) fun i _ => (hbelow i).image (i :: ·))) ?_
    intro path hpath
    obtain ⟨u, hlies, hu⟩ := hpath
    cases hlies with
    | root => exact Set.mem_insert _ _
    | @onward i path _ t _ ts' _ hnext' ht hlies =>
      obtain rfl := Except.ok.inj (hnext.symm.trans hnext')
      obtain ⟨hi, -⟩ := List.getElem?_eq_some_iff.1 ht
      refine Set.mem_insert_of_mem _ (Set.mem_biUnion hi ?_)
      exact ⟨path, ⟨t, u, ht, hlies, hu⟩, rfl⟩

end Barren

end Ramify.Search
