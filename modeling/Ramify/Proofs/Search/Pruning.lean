import Ramify.Proofs.Search.Simulation

/-!
# Leaving out what is doomed

A state is *doomed* if no path leads from it to a success (`Doomed`). A machine
that leaves out successors of another one is none the worse for it, as long as
they are doomed (`Prunes`): going through the states generation by generation,
both find the same state in the same generation, as all others are met in the
same order. Only if there is nothing to be found, the machine that leaves out
states may come to the end sooner. And it never takes more steps
(`Prunes.run`).
-/

namespace Ramify.Search

variable {τ ε : Type} {kind : τ → Kind} {step full pruned : τ → Except ε (List τ)}
  {D P : τ → Prop} {t u : τ} {ts us vs xs : List τ}

/-- No path leads from a state to a success. -/
def Doomed (kind : τ → Kind) (step : τ → Except ε (List τ)) (t : τ) : Prop :=
  ∀ k u, Leads kind step k t u → kind u ≠ .success

theorem Doomed.next (h : Doomed kind step t) (ht : kind t = .unfinished)
    (hts : step t = .ok ts) (hu : u ∈ ts) : Doomed kind step u :=
  fun k v hlead => h (k + 1) v (.step ht hts hu hlead)

/-! ### Thinning out -/

/-- A list with some elements left out, all of which have a property. -/
inductive Thins (D : τ → Prop) : List τ → List τ → Prop
  | nil : Thins D [] []
  | keep {t : τ} {ts us : List τ} : Thins D ts us → Thins D (t :: ts) (t :: us)
  | skip {u : τ} {ts us : List τ} : D u → Thins D ts us → Thins D ts (u :: us)

namespace Thins

theorem refl (ts : List τ) : Thins D ts ts := by
  induction ts with
  | nil => exact .nil
  | cons t ts ih => exact .keep ih

theorem of_forall (h : ∀ u ∈ us, D u) : Thins D [] us := by
  induction us with
  | nil => exact .nil
  | cons u us ih =>
    obtain ⟨hu, hus⟩ := List.forall_mem_cons.1 h
    exact .skip hu (ih hus)

theorem append (h : Thins D ts us) (h' : Thins D vs xs) : Thins D (ts ++ vs) (us ++ xs) := by
  induction h with
  | nil => exact h'
  | keep _ ih => exact .keep ih
  | skip hu _ ih => exact .skip hu ih

theorem reverse (h : Thins D ts us) : Thins D ts.reverse us.reverse := by
  induction h with
  | nil => exact .nil
  | keep _ ih =>
    rw [List.reverse_cons, List.reverse_cons]
    exact ih.append (.refl _)
  | skip hu _ ih =>
    rw [List.reverse_cons, ← List.append_nil (List.reverse _)]
    exact ih.append (.skip hu .nil)

/-- A filter leaves out what does not pass it. -/
theorem filter {α : Type} {p : α → Bool} {f : α → τ} {as : List α}
    (h : ∀ a ∈ as, ¬p a → D (f a)) : Thins D ((as.filter p).map f) (as.map f) := by
  induction as with
  | nil => exact .nil
  | cons a as ih =>
    obtain ⟨ha, has⟩ := List.forall_mem_cons.1 h
    by_cases hp : p a
    · rw [List.filter_cons_of_pos hp]
      exact .keep (ih has)
    · rw [List.filter_cons_of_neg hp]
      exact .skip (ha hp) (ih has)

end Thins

/-! ### Searching -/

/-- The pure machine with a counter of the steps that were taken. -/
def Automaton.counting (kind : τ → Kind) (step : τ → Except ε (List τ)) : Automaton τ Nat ε :=
  ⟨kind, fun t count => (step t, count + 1)⟩

theorem generation_counting {count : Nat} (hus : step t = .ok us) (gathered : List τ) :
    Breadth.generation (.counting kind step) (t :: ts) gathered count =
      match (Automaton.counting kind step).firstSuccess us with
      | some u => (.over (.found u), count + 1)
      | none => Breadth.generation (.counting kind step) ts
          (((Automaton.counting kind step).unfinished us).reverse ++ gathered) (count + 1) := by
  have hnext : (Automaton.counting kind step).next t count = (.ok us, count + 1) :=
    congrArg (·, count + 1) hus
  rewrite [Breadth.generation, hnext]
  rfl

/-- A machine leaves out doomed successors of another one, for states with a
    property that goes on to their successors. Neither of them fails. -/
def Prunes (kind : τ → Kind) (full pruned : τ → Except ε (List τ)) (P : τ → Prop) : Prop :=
  ∀ t, P t → kind t = .unfinished → ∃ ts us, pruned t = .ok ts ∧ full t = .ok us ∧
    (∀ u ∈ us, P u) ∧ ts.find? (kind · = .success) = us.find? (kind · = .success) ∧
    Thins (Doomed kind full) (ts.filter (kind · = .unfinished)) (us.filter (kind · = .unfinished))

/-- How a search ends that leaves out doomed states, and how the one ends that
    does not. -/
inductive Spared (kind : τ → Kind) (P : τ → Prop) : Outcome τ ε → Outcome τ ε → Prop
  | found {u : τ} : kind u = .success → P u → Spared kind P (.found u) (.found u)
  | exhausted : Spared kind P .exhausted .exhausted
  | stopped : Spared kind P .stopped .stopped
  /-- There is nothing to be found, which one of them has not noticed yet. -/
  | sooner : Spared kind P .exhausted .stopped

namespace Prunes

/-- How a generation ends where doomed states are left out, and how it ends where
    they are not. -/
inductive Parallel (kind : τ → Kind) (D P : τ → Prop) :
    Breadth.Progress τ ε → Breadth.Progress τ ε → Prop
  | found {u : τ} : kind u = .success → P u →
    Parallel kind D P (.over (.found u)) (.over (.found u))
  | next {ts us : List τ} : Thins D ts us → (∀ u ∈ us, kind u = .unfinished ∧ P u) →
    Parallel kind D P (.next ts) (.next us)

variable {limit count count' : Nat}

theorem firstSuccess_of_doomed (h : ∀ u ∈ us, Doomed kind step u) :
    (Automaton.counting kind step).firstSuccess us = none :=
  List.find?_eq_none.2 fun u hu hk => h u hu 0 u (.refl u) (of_decide_eq_true hk)

theorem mem_unfinished_counting : u ∈ (Automaton.counting kind step).unfinished us ↔
    u ∈ us ∧ kind u = .unfinished := by
  rw [Automaton.unfinished, List.mem_filter, decide_eq_true_iff]
  rfl

/-- What is gathered and what is still to be tried after a step. -/
theorem open_of_step {gathered : List τ} (hus : ∀ v ∈ us, P v)
    (hopen : ∀ v ∈ (u :: ts) ++ gathered, kind v = .unfinished ∧ P v) :
    ∀ v ∈ ts ++ (((Automaton.counting kind step).unfinished us).reverse ++ gathered),
      kind v = .unfinished ∧ P v := by
  intro v hv
  rcases List.mem_append.1 hv with hv | hv
  · exact hopen v (List.mem_append_left _ (List.mem_cons_of_mem _ hv))
  · rcases List.mem_append.1 hv with hv | hv
    · obtain ⟨hv, hk⟩ := mem_unfinished_counting.1 (List.mem_reverse.1 hv)
      exact ⟨hk, hus v hv⟩
    · exact hopen v (List.mem_append_right _ hv)

variable (h : Prunes kind full pruned P)

include h

theorem generation {gathered gathered' : List τ}
    (hts : Thins (Doomed kind full) ts us) (hgathered : Thins (Doomed kind full) gathered gathered')
    (hopen : ∀ u ∈ us ++ gathered', kind u = .unfinished ∧ P u) (hle : count ≤ count') :
    Parallel kind (Doomed kind full) P
        (Breadth.generation (.counting kind pruned) ts gathered count).1
        (Breadth.generation (.counting kind full) us gathered' count').1 ∧
      (Breadth.generation (.counting kind pruned) ts gathered count).2 ≤
        (Breadth.generation (.counting kind full) us gathered' count').2 := by
  induction hts generalizing gathered gathered' count count' with
  | nil => exact ⟨.next hgathered.reverse fun u hu => hopen u (List.mem_reverse.1 hu), hle⟩
  | @keep t ts us _ ih =>
    obtain ⟨ht, hPt⟩ := hopen t List.mem_cons_self
    obtain ⟨vs, xs, hvs, hxs, hP, hfind, hthins⟩ := h t hPt ht
    have hsame : (Automaton.counting kind pruned).firstSuccess vs =
        (Automaton.counting kind full).firstSuccess xs := hfind
    rw [generation_counting hvs, generation_counting hxs, hsame]
    cases hfirst : (Automaton.counting kind full).firstSuccess xs with
    | some u =>
      have hu : (Automaton.counting kind full).kind u = .success := by
        simpa using List.find?_some hfirst
      exact ⟨.found hu (hP u (List.mem_of_find?_eq_some hfirst)), Nat.succ_le_succ hle⟩
    | none =>
      exact ih (hthins.reverse.append hgathered) (open_of_step hP hopen) (Nat.succ_le_succ hle)
  | @skip u ts us hu _ ih =>
    -- Only one of the searches tries a doomed state. It gathers doomed states by it.
    obtain ⟨ht, hPu⟩ := hopen u List.mem_cons_self
    obtain ⟨-, xs, -, hxs, hP, -⟩ := h u hPu ht
    have hdoomed : ∀ v ∈ xs, Doomed kind full v := fun v hv => hu.next ht hxs hv
    rw [generation_counting hxs, firstSuccess_of_doomed hdoomed]
    have hskip : Thins (Doomed kind full) []
        ((Automaton.counting kind full).unfinished xs).reverse :=
      .of_forall fun v hv => hdoomed v (mem_unfinished_counting.1 (List.mem_reverse.1 hv)).1
    exact ih (hskip.append hgathered) (open_of_step hP hopen) (Nat.le_succ_of_le hle)

theorem generations (hts : Thins (Doomed kind full) ts us)
    (hopen : ∀ u ∈ us, kind u = .unfinished ∧ P u) (hle : count ≤ count') :
    Spared kind P (Breadth.generations (.counting kind pruned) limit ts count).1
        (Breadth.generations (.counting kind full) limit us count').1 ∧
      (Breadth.generations (.counting kind pruned) limit ts count).2 ≤
        (Breadth.generations (.counting kind full) limit us count').2 := by
  induction limit generalizing ts us count count' with
  | zero => exact ⟨.stopped, hle⟩
  | succ limit ih =>
    have hgen := h.generation hts .nil (by rwa [List.append_nil]) hle
    rw [Breadth.generations, Breadth.generations]
    generalize Breadth.generation (.counting kind pruned) ts [] count = r at hgen ⊢
    generalize Breadth.generation (.counting kind full) us [] count' = r' at hgen ⊢
    obtain ⟨progress, k⟩ := r
    obtain ⟨progress', k'⟩ := r'
    obtain ⟨hpar, hk⟩ := hgen
    cases hpar with
    | found hu hPu => exact ⟨.found hu hPu, hk⟩
    | @next vs xs hvs hxs =>
      have hgo := ih hvs hxs hk
      cases vs with
      | nil =>
        cases xs with
        | nil => exact ⟨.exhausted, hk⟩
        | cons x xs =>
          -- All that one of the searches goes on with is doomed.
          cases limit with
          | zero => exact ⟨.sooner, hk⟩
          | succ limit => exact hgo
      | cons v vs =>
        cases xs with
        | nil => cases hvs
        | cons x xs => exact hgo

/-- A search that leaves out doomed states finds the same as one that does not,
    in the same generation, and does not take more steps. -/
theorem run (ht : kind t = .unfinished) (hP : P t) (limit count : Nat) :
    Spared kind P (Breadth.run (.counting kind pruned) limit t count).1
        (Breadth.run (.counting kind full) limit t count).1 ∧
      (Breadth.run (.counting kind pruned) limit t count).2 ≤
        (Breadth.run (.counting kind full) limit t count).2 := by
  have hrun : ∀ step : τ → Except ε (List τ), Breadth.run (.counting kind step) limit t count =
      Breadth.generations (.counting kind step) limit [t] count := fun step => by
    rw [Breadth.run, show (Automaton.counting kind step).kind t = .unfinished from ht]
  rw [hrun, hrun]
  exact h.generations (.refl [t]) (List.forall_mem_singleton.2 ⟨ht, hP⟩) (Nat.le_refl count)

end Prunes

end Ramify.Search
