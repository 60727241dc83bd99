import Mathlib.Data.List.Perm.Subperm
import Ramify.Proofs.Search.Paths

/-!
# Simulating a pure machine

States that point into a world say nothing on their own. What they mean is
told by the states of a pure machine, which carry all that belongs to them. A
*simulation* (`Simulates`) relates the states a search holds, all at once, to
the pure states they stand for, in the world as it is at the moment; a step of
any one of them leaves the others what they were.

A breadth-first search of the machine in its world then ends as the search of
the pure machine does (`Simulates.run`). The pure machine may as well have a
little world of its own, such as a counter, that keeps up with the other one
(`Simulates.run_beside`).
-/

namespace Ramify.Search

variable {σ τ ω ε : Type} {a : Automaton σ ω ε} {kind : τ → Kind} {next : τ → Except ε (List τ)}
  {R : ω → List (σ × τ) → Prop} {w w' : ω} {s : σ} {t : τ}

/-- In a world, states stand for states of a pure machine. -/
structure Simulates (a : Automaton σ ω ε) (kind : τ → Kind) (next : τ → Except ε (List τ))
    (R : ω → List (σ × τ) → Prop) : Prop where
  /-- A state is of the kind of the state it stands for. -/
  kinds : ∀ {w pairs p}, R w pairs → p ∈ pairs → a.kind p.1 = kind p.2
  /-- States can be forgotten, and their order does not matter. -/
  thin : ∀ {w pairs pairs'}, R w pairs → pairs'.Subperm pairs → R w pairs'
  /-- Both machines fail in the same way. -/
  fails : ∀ {w s t pairs e}, R w ((s, t) :: pairs) → kind t = .unfinished → next t = .error e →
    (a.next s w).1 = .error e
  /-- The successors stand for the successors, and all other states for what
      they stood for before. -/
  goesOn : ∀ {w s t pairs ts}, R w ((s, t) :: pairs) → kind t = .unfinished → next t = .ok ts →
    ∃ new w', a.next s w = (.ok (new.map (·.1)), w') ∧ new.map (·.2) = ts ∧ R w' (new ++ pairs)

namespace Simulates

/-- Two searches that end in the same way. -/
inductive Agree (R : ω → List (σ × τ) → Prop) (w : ω) : Outcome σ ε → Outcome τ ε → Prop
  | found {s : σ} {t : τ} : R w [(s, t)] → Agree R w (.found s) (.found t)
  | exhausted : Agree R w .exhausted .exhausted
  | failed {e : ε} : Agree R w (.failed e) (.failed e)
  | stopped : Agree R w .stopped .stopped

/-- Two generations that end in the same way. -/
inductive Keep (kind : τ → Kind) (R : ω → List (σ × τ) → Prop) (w : ω) :
    Breadth.Progress σ ε → Breadth.Progress τ ε → Prop
  | ended {o : Outcome σ ε} {o' : Outcome τ ε} : Agree R w o o' → Keep kind R w (.over o) (.over o')
  | next {pairs : List (σ × τ)} : R w pairs → (∀ p ∈ pairs, kind p.2 = .unfinished) →
    Keep kind R w (.next (pairs.map (·.1))) (.next (pairs.map (·.2)))

theorem filter_fst {pairs : List (σ × τ)} {k : Kind}
    (hkinds : ∀ p ∈ pairs, a.kind p.1 = kind p.2) :
    (pairs.map (·.1)).filter (a.kind · = k) = (pairs.filter (kind ·.2 = k)).map (·.1) := by
  rw [List.filter_map]
  refine congrArg (List.map _) (List.filter_congr fun p hp => ?_)
  rw [Function.comp, hkinds p hp]

theorem filter_snd {pairs : List (σ × τ)} {k : Kind} :
    (pairs.map (·.2)).filter (kind · = k) = (pairs.filter (kind ·.2 = k)).map (·.2) := by
  rw [List.filter_map]
  rfl

theorem firstSuccess_fst {pairs : List (σ × τ)} (hkinds : ∀ p ∈ pairs, a.kind p.1 = kind p.2) :
    a.firstSuccess (pairs.map (·.1)) = (pairs.find? (kind ·.2 = .success)).map (·.1) := by
  rw [Automaton.firstSuccess, ← List.head?_filter, filter_fst hkinds, List.head?_map,
    List.head?_filter]

/-- A machine does in its world what the pure machine does, and its world keeps
    up with that of another machine. -/
structure KeepsUp {υ : Type} (a : Automaton σ ω ε) (b : Automaton τ υ ε) (kind : τ → Kind)
    (next : τ → Except ε (List τ)) (T : ω → υ → Prop) : Prop where
  kinds : b.kind = kind
  steps : ∀ t v, (b.next t v).1 = next t
  pace : ∀ {s t w v}, a.kind s = .unfinished → T w v → T (a.next s w).2 (b.next t v).2

section Run

variable {υ : Type} {b : Automaton τ υ ε} {T : ω → υ → Prop} {v : υ}

theorem KeepsUp.firstSuccess (hb : KeepsUp a b kind next T) {pairs : List (σ × τ)} :
    b.firstSuccess (pairs.map (·.2)) = (pairs.find? (kind ·.2 = .success)).map (·.2) := by
  rw [Automaton.firstSuccess, List.find?_map, hb.kinds]
  rfl

theorem KeepsUp.ofPure (a : Automaton σ ω ε) (kind : τ → Kind) (next : τ → Except ε (List τ)) :
    KeepsUp a (.ofPure kind next) kind next fun _ _ => True :=
  ⟨rfl, fun _ _ => rfl, fun _ _ => trivial⟩

variable (hsim : Simulates a kind next R)

section Beside

variable (hb : KeepsUp a b kind next T)

include hsim hb

/-- Trying a generation: the pairs still to be tried and those gathered, the
    last one first, are all that the search holds. -/
theorem generation (todo gathered : List (σ × τ)) (hR : R w (todo ++ gathered))
    (hopen : ∀ p ∈ todo ++ gathered, kind p.2 = .unfinished) (hT : T w v) :
    Keep kind R (Breadth.generation a (todo.map (·.1)) (gathered.map (·.1)) w).2
        (Breadth.generation a (todo.map (·.1)) (gathered.map (·.1)) w).1
        (Breadth.generation b (todo.map (·.2)) (gathered.map (·.2)) v).1 ∧
      T (Breadth.generation a (todo.map (·.1)) (gathered.map (·.1)) w).2
        (Breadth.generation b (todo.map (·.2)) (gathered.map (·.2)) v).2 := by
  induction todo generalizing gathered w v with
  | nil =>
    simp only [List.map_nil, Breadth.generation, ← List.map_reverse]
    refine ⟨.next (hsim.thin hR (List.reverse_perm gathered).subperm) fun p hp => ?_, hT⟩
    exact hopen p (List.mem_reverse.1 hp)
  | cons p todo ih =>
    obtain ⟨s, t⟩ := p
    have ht : kind t = .unfinished := hopen (s, t) List.mem_cons_self
    have hs : a.kind s = .unfinished := (hsim.kinds hR List.mem_cons_self).trans ht
    have hsteps := hb.steps t v
    have hpace : T (a.next s w).2 (b.next t v).2 := hb.pace hs hT
    simp only [List.map_cons, Breadth.generation]
    generalize b.next t v = r' at hsteps hpace ⊢
    obtain ⟨_, v'⟩ := r'
    cases hsteps
    cases hnext : next t with
    | error e =>
      -- A failure ends both searches.
      have herr := hsim.fails hR ht hnext
      generalize a.next s w = r at herr hpace
      obtain ⟨_, w'⟩ := r
      cases herr
      exact ⟨.ended .failed, hpace⟩
    | ok ts =>
      obtain ⟨new, w', hs, rfl, hR'⟩ := hsim.goesOn hR ht hnext
      have hkinds : ∀ p ∈ new, a.kind p.1 = kind p.2 := fun p hp =>
        hsim.kinds hR' (List.mem_append_left _ hp)
      rw [hs] at hpace ⊢
      dsimp only
      rw [firstSuccess_fst hkinds, hb.firstSuccess]
      cases hfind : new.find? (kind ·.2 = .success) with
      | some p =>
        refine ⟨.ended (.found (hsim.thin hR' ?_)), hpace⟩
        exact (List.singleton_sublist.2
          (List.mem_append_left _ (List.mem_of_find?_eq_some hfind))).subperm
      | none =>
        dsimp only [Option.map_none]
        rw [Automaton.unfinished, Automaton.unfinished, filter_fst hkinds, ← List.map_reverse,
          ← List.map_append, hb.kinds, filter_snd, ← List.map_reverse, ← List.map_append]
        -- All that is held after the step is what is gathered and what is still to
        -- be tried, but for the successors that failed.
        refine ih _ (hsim.thin hR' ?_) (fun p hp => ?_) hpace
        · refine (List.perm_append_comm_assoc _ _ _).subperm.trans ?_
          refine ((List.reverse_perm _).append_right _).subperm.trans ?_
          exact (List.filter_sublist.append_right _).subperm
        · rcases List.mem_append.1 hp with hp | hp
          · exact hopen p (List.mem_cons_of_mem _ (List.mem_append_left _ hp))
          · rcases List.mem_append.1 hp with hp | hp
            · exact of_decide_eq_true (List.mem_filter.1 (List.mem_reverse.1 hp)).2
            · exact hopen p (List.mem_cons_of_mem _ (List.mem_append_right _ hp))

theorem generations {limit : Nat} {pairs : List (σ × τ)} (hR : R w pairs)
    (hopen : ∀ p ∈ pairs, kind p.2 = .unfinished) (hT : T w v) :
    Agree R (Breadth.generations a limit (pairs.map (·.1)) w).2
        (Breadth.generations a limit (pairs.map (·.1)) w).1
        (Breadth.generations b limit (pairs.map (·.2)) v).1 ∧
      T (Breadth.generations a limit (pairs.map (·.1)) w).2
        (Breadth.generations b limit (pairs.map (·.2)) v).2 := by
  induction limit generalizing pairs w v with
  | zero => exact ⟨.stopped, hT⟩
  | succ limit ih =>
    have hkeep := hsim.generation hb pairs [] (by rwa [List.append_nil])
      (by rwa [List.append_nil]) hT
    simp only [List.map_nil] at hkeep
    rw [Breadth.generations, Breadth.generations]
    generalize Breadth.generation a (pairs.map (·.1)) [] w = r at hkeep ⊢
    generalize Breadth.generation b (pairs.map (·.2)) [] v = r' at hkeep ⊢
    obtain ⟨progress, w'⟩ := r
    obtain ⟨progress', v'⟩ := r'
    obtain ⟨hkeep, hT'⟩ := hkeep
    cases hkeep with
    | ended hagree => exact ⟨hagree, hT'⟩
    | @next pairs' hR' hopen' =>
      cases pairs' with
      | nil => exact ⟨.exhausted, hT'⟩
      | cons p pairs' => exact ih hR' hopen' hT'

/-- A search in the world ends as the search of the pure machine does, and the
    worlds keep up with each other. -/
theorem run_beside {limit : Nat} (hR : R w [(s, t)]) (hT : T w v) :
    Agree R (Breadth.run a limit s w).2 (Breadth.run a limit s w).1
        (Breadth.run b limit t v).1 ∧
      T (Breadth.run a limit s w).2 (Breadth.run b limit t v).2 := by
  have hkind : a.kind s = kind t := hsim.kinds hR List.mem_cons_self
  rw [Breadth.run, Breadth.run, hkind, hb.kinds]
  cases ht : kind t with
  | unfinished =>
    refine hsim.generations hb hR (fun p hp => ?_) hT
    rw [List.mem_singleton.1 hp, ht]
  | success => exact ⟨.found hR, hT⟩
  | fail => exact ⟨.exhausted, hT⟩

end Beside

include hsim

/-- A search in the world ends as the search of the pure machine does. -/
theorem run {limit : Nat} (hR : R w [(s, t)]) :
    Agree R (Breadth.run a limit s w).2 (Breadth.run a limit s w).1
      (Breadth.run (.ofPure kind next) limit t ()).1 :=
  (hsim.run_beside (.ofPure a kind next) hR trivial).1

end Run

end Simulates

end Ramify.Search
