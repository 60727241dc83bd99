import Ramify.Search.Breadth

/-!
# Paths of a pure machine

A machine without a world is a function from states to their successors. What
a search of it finds can be told from its *paths* (`Leads`): sequences of states,
each a successor of the one before, that go on through unfinished states only.
Generation by generation, a breadth-first search meets the states in the order
of the lengths of the paths that lead to them. So how it ends says something
about the paths, whichever way it ends, and what it finds is as near as any
success (`Breadth.ended_run`).
-/

namespace Ramify.Search

variable {σ ε : Type} {kind : σ → Kind} {next : σ → Except ε (List σ)} {s t u : σ} {k l : Nat}

/-- A number of steps leads from one state to another. -/
inductive Leads (kind : σ → Kind) (next : σ → Except ε (List σ)) : Nat → σ → σ → Prop
  | refl (s : σ) : Leads kind next 0 s s
  | step {k : Nat} {s t u : σ} {ts : List σ} : kind s = .unfinished → next s = .ok ts → t ∈ ts →
    Leads kind next k t u → Leads kind next (k + 1) s u

namespace Leads

theorem single {ts : List σ} (hs : kind s = .unfinished) (hnext : next s = .ok ts) (ht : t ∈ ts) :
    Leads kind next 1 s t :=
  .step hs hnext ht (.refl t)

theorem trans (h : Leads kind next k s t) (h' : Leads kind next l t u) :
    Leads kind next (k + l) s u := by
  induction h with
  | refl => rwa [Nat.zero_add]
  | step hs hnext ht _ ih =>
    rw [Nat.succ_add]
    exact .step hs hnext ht (ih h')

/-- Nothing leads on from a finished state. -/
theorem eq_of_finished (h : Leads kind next k s t) (hs : kind s ≠ .unfinished) : t = s := by
  cases h with
  | refl => rfl
  | step hs' => exact absurd hs' hs

/-- What every step preserves holds at the end of a path. -/
theorem preserves {P : σ → Prop} (h : Leads kind next k s t)
    (hstep : ∀ s ts t, P s → kind s = .unfinished → next s = .ok ts → t ∈ ts → P t) (hs : P s) :
    P t := by
  induction h with
  | refl => exact hs
  | step hk hnext ht _ ih => exact ih (hstep _ _ _ hs hk hnext ht)

/-- A figure that every step lowers bounds the length of paths. -/
theorem length_le {P : Nat → σ → Prop} {n : Nat} (h : Leads kind next k s t)
    (hstep : ∀ n s ts t, P n s → kind s = .unfinished → next s = .ok ts → t ∈ ts →
      ∃ n' < n, P n' t)
    (hs : P n s) : k ≤ n := by
  induction h generalizing n with
  | refl => exact Nat.zero_le n
  | step hk hnext ht _ ih =>
    obtain ⟨n', hlt, hn'⟩ := hstep _ _ _ _ hs hk hnext ht
    exact Nat.le_trans (Nat.succ_le_succ (ih hn')) hlt

end Leads

namespace Breadth

/-- A success takes at least `n` steps from any of some states. -/
def Apart (kind : σ → Kind) (next : σ → Except ε (List σ)) (n : Nat) (states : List σ) : Prop :=
  ∀ s ∈ states, ∀ k u, Leads kind next k s u → kind u = .success → n ≤ k

/-- What a search of at most `limit` generations, beginning with some states,
    says about their paths by the way it ended. What it finds is a nearest
    success. -/
inductive Ended (kind : σ → Kind) (next : σ → Except ε (List σ)) (limit : Nat) (states : List σ) :
    Outcome σ ε → Prop
  | found {k : Nat} {s u : σ} : s ∈ states → k ≤ limit → Leads kind next k s u →
    kind u = .success → Apart kind next k states → Ended kind next limit states (.found u)
  | exhausted : (∀ s ∈ states, ∀ k u, Leads kind next k s u → kind u ≠ .success) →
    Ended kind next limit states .exhausted
  | failed {k : Nat} {s u : σ} {e : ε} : s ∈ states → Leads kind next k s u →
    kind u = .unfinished → next u = .error e → Ended kind next limit states (.failed e)
  | stopped {s u : σ} : s ∈ states → Leads kind next limit s u →
    Apart kind next (limit + 1) states → Ended kind next limit states .stopped

/-- What trying the states of a generation comes to: a success, a failure, or
    the next generation, which the states gathered before are part of. -/
inductive Tried (kind : σ → Kind) (next : σ → Except ε (List σ)) (states gathered : List σ) :
    Progress σ ε → Prop
  | found {s u : σ} {ts : List σ} : s ∈ states → next s = .ok ts → u ∈ ts → kind u = .success →
    Tried kind next states gathered (.over (.found u))
  | failed {s : σ} {e : ε} : s ∈ states → next s = .error e →
    Tried kind next states gathered (.over (.failed e))
  | next {us : List σ} : (∀ s ∈ states, ∃ ts, next s = .ok ts ∧ ∀ u ∈ ts, kind u ≠ .success) →
    (∀ u, u ∈ us ↔ u ∈ gathered ∨
      ∃ s ∈ states, ∃ ts, next s = .ok ts ∧ u ∈ ts ∧ kind u = .unfinished) →
    Tried kind next states gathered (.next us)

theorem next_ofPure : (Automaton.ofPure kind next).next s () = (next s, ()) := rfl

theorem mem_unfinished_ofPure {ts : List σ} :
    u ∈ (Automaton.ofPure kind next).unfinished ts ↔ u ∈ ts ∧ kind u = .unfinished := by
  rw [Automaton.unfinished, List.mem_filter, decide_eq_true_iff]
  rfl

theorem tried_generation (states gathered : List σ) :
    Tried kind next states gathered (generation (.ofPure kind next) states gathered ()).1 := by
  induction states generalizing gathered with
  | nil => exact .next (fun s hs => absurd hs List.not_mem_nil) fun u => by simp
  | cons s states ih =>
    rw [generation, next_ofPure]
    cases hnext : next s with
    | error e => exact .failed List.mem_cons_self hnext
    | ok ts =>
      dsimp only
      cases hfirst : (Automaton.ofPure kind next).firstSuccess ts with
      | some u =>
        have hu : (Automaton.ofPure kind next).kind u = .success := by
          simpa using List.find?_some hfirst
        exact .found List.mem_cons_self hnext (List.mem_of_find?_eq_some hfirst) hu
      | none =>
        have hnone : ∀ u ∈ ts, kind u ≠ .success := fun u hu hk =>
          List.find?_eq_none.1 hfirst u hu (decide_eq_true hk)
        -- The successors join what was gathered before.
        have htried := ih (((Automaton.ofPure kind next).unfinished ts).reverse ++ gathered)
        dsimp only
        generalize (generation (.ofPure kind next) states
          (((Automaton.ofPure kind next).unfinished ts).reverse ++ gathered) ()).1 = o at htried ⊢
        cases htried with
        | found hs' hnext' hu hsucc => exact .found (List.mem_cons_of_mem s hs') hnext' hu hsucc
        | failed hs' hnext' => exact .failed (List.mem_cons_of_mem s hs') hnext'
        | next hall hmem =>
          refine .next (List.forall_mem_cons.2 ⟨⟨ts, hnext, hnone⟩, hall⟩) fun u => ?_
          rw [hmem, List.mem_append, List.mem_reverse, mem_unfinished_ofPure]
          simp only [List.mem_cons, exists_eq_or_imp, hnext, Except.ok.injEq, exists_eq_left']
          rw [or_assoc, or_left_comm]

/-- A path to a success goes on through the next generation. -/
theorem Tried.onward {states us : List σ} (h : Tried kind next states [] (.next us))
    (hs : s ∈ states) (hk : kind s = .unfinished) (hlead : Leads kind next k s u)
    (hu : kind u = .success) : ∃ t ∈ us, ∃ l, k = l + 1 ∧ Leads kind next l t u := by
  cases h with
  | next hall hmem =>
    obtain ⟨ts, hts, hnone⟩ := hall s hs
    cases hlead with
    | refl => exact nomatch hk.symm.trans hu
    | @step k s t u ts' _ hts' ht hlead' =>
      obtain rfl : ts = ts' := Except.ok.inj (hts.symm.trans hts')
      refine ⟨t, (hmem t).2 (.inr ⟨s, hs, ts, hts, ht, ?_⟩), k, rfl, hlead'⟩
      -- Had it ended there, the success would have been found already.
      refine Decidable.byContradiction fun hfin => ?_
      rw [hlead'.eq_of_finished hfin] at hu
      exact hnone t ht hu

/-- The next generation consists of successors. -/
theorem Tried.back {states us : List σ} (h : Tried kind next states [] (.next us)) (ht : t ∈ us) :
    kind t = .unfinished ∧ ∃ s ∈ states, ∃ ts, next s = .ok ts ∧ t ∈ ts := by
  cases h with
  | next _ hmem =>
    obtain ⟨s, hs, ts, hts, ht, hk⟩ := ((hmem t).1 ht).resolve_left List.not_mem_nil
    exact ⟨hk, s, hs, ts, hts, ht⟩

/-- A success takes at least one step from unfinished states. -/
theorem apart_one {states : List σ} (hstates : ∀ s ∈ states, kind s = .unfinished) :
    Apart kind next 1 states := by
  intro s hs k u hlead hu
  cases hlead with
  | refl => exact nomatch (hstates s hs).symm.trans hu
  | step => exact Nat.le_add_left 1 _

/-- It takes one step more than from the next generation. -/
theorem Tried.apart {n : Nat} {states us : List σ} (h : Tried kind next states [] (.next us))
    (hstates : ∀ s ∈ states, kind s = .unfinished) (hus : Apart kind next n us) :
    Apart kind next (n + 1) states := by
  intro s hs k u hlead hu
  obtain ⟨t, ht, l, rfl, hlead'⟩ := h.onward hs (hstates s hs) hlead hu
  exact Nat.succ_le_succ (hus t ht l u hlead' hu)

theorem ended_generations {limit : Nat} {states : List σ} (hne : states ≠ [])
    (hstates : ∀ s ∈ states, kind s = .unfinished) :
    Ended kind next limit states (generations (.ofPure kind next) limit states ()).1 := by
  induction limit generalizing states with
  | zero =>
    obtain ⟨s, hs⟩ := List.exists_mem_of_ne_nil states hne
    exact .stopped hs (.refl s) (apart_one hstates)
  | succ limit ih =>
    have htried : Tried kind next states [] (generation (.ofPure kind next) states [] ()).1 :=
      tried_generation states []
    rw [generations]
    generalize generation (.ofPure kind next) states [] () = r at htried ⊢
    obtain ⟨progress, ⟨⟩⟩ := r
    cases htried with
    | found hs hnext hu hsucc =>
      exact .found hs (Nat.le_add_left 1 limit) (.single (hstates _ hs) hnext hu) hsucc
        (apart_one hstates)
    | failed hs hnext => exact .failed hs (.refl _) (hstates _ hs) hnext
    | @next us hall hmem =>
      have hnext : Tried kind next states [] (.next us) := .next hall hmem
      cases us with
      | nil =>
        refine .exhausted fun s hs k u hlead hu => ?_
        obtain ⟨t, ht, -⟩ := hnext.onward hs (hstates s hs) hlead hu
        exact List.not_mem_nil ht
      | cons t us =>
        have hgo := ih (List.cons_ne_nil t us) fun s hs => (hnext.back hs).1
        -- Paths from the next generation are one step longer from this one.
        dsimp only
        generalize (generations (.ofPure kind next) limit (t :: us) ()).1 = o at hgo ⊢
        cases hgo with
        | found hs hle hlead hu hapart =>
          obtain ⟨-, s', hs', ts, hts, ht⟩ := hnext.back hs
          exact .found hs' (Nat.succ_le_succ hle) (.step (hstates s' hs') hts ht hlead) hu
            (hnext.apart hstates hapart)
        | exhausted hnone =>
          refine .exhausted fun s hs k u hlead hu => ?_
          obtain ⟨t, ht, l, -, hlead'⟩ := hnext.onward hs (hstates s hs) hlead hu
          exact hnone t ht l u hlead' hu
        | failed hs hlead hu herr =>
          obtain ⟨-, s', hs', ts, hts, ht⟩ := hnext.back hs
          exact .failed hs' (.step (hstates s' hs') hts ht hlead) hu herr
        | stopped hs hlead hapart =>
          obtain ⟨-, s', hs', ts, hts, ht⟩ := hnext.back hs
          exact .stopped hs' (.step (hstates s' hs') hts ht hlead) (hnext.apart hstates hapart)

/-- How a search from an unfinished state ends. -/
theorem ended_run {limit : Nat} (hs : kind s = .unfinished) :
    Ended kind next limit [s] (run (.ofPure kind next) limit s ()).1 := by
  have hrun : run (.ofPure kind next) limit s () =
      generations (.ofPure kind next) limit [s] () := by
    rw [run, show (Automaton.ofPure kind next).kind s = .unfinished from hs]
  rw [hrun]
  refine ended_generations (List.cons_ne_nil s []) fun t ht => ?_
  rw [List.mem_singleton.1 ht, hs]

end Breadth

end Ramify.Search
