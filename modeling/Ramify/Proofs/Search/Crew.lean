import Mathlib.Algebra.Order.Group.Multiset
import Mathlib.Data.List.Perm.Basic
import Mathlib.Tactic.Abel
import Ramify.Proofs.Search.Simulation
import Ramify.Search.Crew

/-!
# What a crew holds

The states that workers are about to deal with, and the successes that were
found, are all that a crew holds (`Crew.held`). They are spread over workers,
reports and the verdict, but no turn adds to them, apart from that of a worker
that computes the successors of its state. So if they stand for states of a pure
machine, they go on doing so, whatever the schedule (`Crew.Stands.run`). What the
library itself does is one schedule of many (`Crew.search_eq`).
-/

namespace Ramify.Search

section Held

variable {σ ε : Type}

/-- The success a report tells of, and the kind it should be of. -/
def Report.held : Report σ ε → List (Kind × σ)
  | .succeeded s => [(.success, s)]
  | .started _ | .failed | .aborted _ => []

/-- The states a worker holds, and the kinds they should be of. -/
def Worker.held : Worker σ ε → List (Kind × σ)
  | .poll s | .compute s => [(.unfinished, s)]
  | .conclude r => r.held
  | .announce first rest | .hire first rest => (first :: rest).map (Kind.unfinished, ·)

/-- The success that ended a search, and the kind it should be of. -/
def Outcome.held : Outcome σ ε → List (Kind × σ)
  | .found s => [(.success, s)]
  | .exhausted | .failed _ | .stopped => []

end Held

namespace Crew

variable {σ τ ω ε : Type} {a : Automaton σ ω ε} {c c' : Crew σ ω ε} {i : Nat} {w : Worker σ ε}
  {ws : List (Worker σ ε)} {rs : List (Report σ ε)} {o : Option (Outcome σ ε)}

/-- All states that workers, reports and a verdict hold. -/
def holdings (ws : List (Worker σ ε)) (rs : List (Report σ ε)) (o : Option (Outcome σ ε)) :
    Multiset (Kind × σ) :=
  Multiset.ofList (ws.flatMap Worker.held) + Multiset.ofList (rs.flatMap Report.held) +
    Multiset.ofList (o.toList.flatMap Outcome.held)

/-- All states a crew holds, and the kinds they should be of. -/
def held (c : Crew σ ω ε) : Multiset (Kind × σ) := holdings c.workers c.inbox c.verdict

/-! ### Turns that compute nothing -/

theorem holdings_cons (w : Worker σ ε) :
    holdings (w :: ws) rs o = Multiset.ofList w.held + holdings ws rs o := by
  rw [holdings, List.flatMap_cons, ← Multiset.coe_add, add_assoc, add_assoc, holdings, add_assoc]

theorem holdings_perm {ws' : List (Worker σ ε)} (h : ws.Perm ws') :
    holdings ws rs o = holdings ws' rs o := by
  rw [holdings, Multiset.coe_eq_coe.2 (h.flatMap_right Worker.held), holdings]

theorem holdings_set (hw : ws[i]? = some w) (w' : Worker σ ε) :
    holdings (ws.set i w') rs o = Multiset.ofList w'.held + holdings (ws.eraseIdx i) rs o := by
  obtain ⟨hlt, -⟩ := List.getElem?_eq_some_iff.1 hw
  rw [holdings_perm (List.set_perm_cons_eraseIdx hlt w'), holdings_cons]

theorem holdings_eq (hw : ws[i]? = some w) :
    holdings ws rs o = Multiset.ofList w.held + holdings (ws.eraseIdx i) rs o := by
  obtain ⟨hlt, rfl⟩ := List.getElem?_eq_some_iff.1 hw
  rw [← holdings_set hw, List.set_getElem_self]

theorem holdings_report (r : Report σ ε) :
    holdings ws (rs ++ [r]) o = Multiset.ofList r.held + holdings ws rs o := by
  rw [holdings, List.flatMap_append, List.flatMap_singleton, ← Multiset.coe_add, holdings]
  abel

theorem holdings_cons_report (r : Report σ ε) :
    holdings ws (r :: rs) o = Multiset.ofList r.held + holdings ws rs o := by
  rw [holdings, List.flatMap_cons, ← Multiset.coe_add, holdings]
  abel

theorem holdings_verdict (o : Outcome σ ε) :
    holdings ws rs (some o) = Multiset.ofList o.held + holdings ws rs none := by
  rw [holdings, holdings, Option.toList_some, List.flatMap_singleton, Option.toList_none,
    List.flatMap_nil, Multiset.coe_nil]
  abel

/-- A turn of a worker that computes nothing. -/
theorem held_work_le (hw : c.workers[i]? = some w) (hcompute : ∀ s, w ≠ .compute s) :
    (work a i w c).held ≤ c.held ∧ (work a i w c).world = c.world := by
  rw [held, held, holdings_eq hw]
  cases w with
  | poll s =>
    rw [work]
    split
    · exact ⟨Multiset.le_add_left _ _, rfl⟩
    · exact ⟨le_of_eq (holdings_set hw _), rfl⟩
  | compute s => exact absurd rfl (hcompute s)
  | conclude r => exact ⟨le_of_eq (holdings_report r), rfl⟩
  | announce first rest =>
    refine ⟨le_of_eq ?_, rfl⟩
    rw [work]
    dsimp only
    rw [holdings_report, holdings_set hw]
    exact zero_add _
  | hire first rest =>
    cases rest with
    | nil => exact ⟨le_of_eq (holdings_set hw _), rfl⟩
    | cons s rest =>
      obtain ⟨hlt, -⟩ := List.getElem?_eq_some_iff.1 hw
      have hle : i + 1 ≤ (c.workers.set i (.hire first rest)).length := by
        rwa [List.length_set]
      -- The new worker takes over one of the states to be handed out.
      refine ⟨le_of_eq ?_, rfl⟩
      rw [work]
      dsimp only
      rw [holdings_perm (List.perm_insertIdx _ _ hle), holdings_cons, holdings_set hw, ← add_assoc]
      exact congrArg (· + _) (Multiset.coe_eq_coe.2 (List.Perm.swap _ _ _))

/-- A turn of the coordinator. -/
theorem held_coordinate_le : c.coordinate.held ≤ c.held ∧ c.coordinate.world = c.world := by
  rw [coordinate]
  split
  · exact ⟨le_refl _, rfl⟩
  · rename_i hverdict
    rw [Option.not_isSome_iff_eq_none] at hverdict
    -- A report that was read is held no longer.
    have hsub : ∀ (r : Report σ ε) rs,
        holdings c.workers rs none ≤ holdings c.workers (r :: rs) none :=
      fun r rs => by
        rw [holdings_cons_report]
        exact Multiset.le_add_left _ _
    split
    · rename_i r rs hinbox
      rw [held, held, hinbox, hverdict]
      cases r with
      | started count => exact ⟨hsub _ _, rfl⟩
      | failed =>
        rw [read]
        split
        · refine ⟨?_, rfl⟩
          rw [holdings_verdict]
          exact le_trans (le_of_eq (zero_add _)) (hsub _ _)
        · exact ⟨hsub _ _, rfl⟩
      | succeeded s =>
        refine ⟨le_of_eq ?_, rfl⟩
        rw [holdings_cons_report]
        exact holdings_verdict _
      | aborted e =>
        refine ⟨?_, rfl⟩
        rw [read, holdings_verdict]
        exact le_trans (le_of_eq (zero_add _)) (hsub _ _)
    · split
      · refine ⟨le_of_eq ?_, rfl⟩
        rw [held, held, hverdict, holdings_verdict]
        exact zero_add _
      · exact ⟨le_refl _, rfl⟩

/-- Where there is no success, a worker holds the unfinished successors. -/
theorem held_plan {successors : List σ} (h : a.firstSuccess successors = none) :
    (plan a successors : Worker σ ε).held = (a.unfinished successors).map (Kind.unfinished, ·) := by
  rw [plan, h]
  match a.unfinished successors with
  | [] => rfl
  | [t] => rfl
  | t :: u :: rest => rfl

/-! ### What is held stands for something -/

/-- What a crew holds stands for states of a pure machine that have some
    property. -/
def Stands (kind : τ → Kind) (R : ω → List (σ × τ) → Prop) (P : τ → Prop) (c : Crew σ ω ε) : Prop :=
  ∃ pairs, R c.world pairs ∧ (∀ p ∈ pairs, P p.2) ∧
    c.held ≤ Multiset.ofList (pairs.map fun p => (kind p.2, p.1))

section Run

variable {kind : τ → Kind} {next : τ → Except ε (List τ)} {R : ω → List (σ × τ) → Prop}
  {P : τ → Prop} (hsim : Simulates a kind next R)
  (hnext : ∀ t, P t → kind t = .unfinished → ∃ ts, next t = .ok ts ∧ ∀ u ∈ ts, P u)

theorem Stands.of_le (h : c.Stands kind R P) (hle : c'.held ≤ c.held ∧ c'.world = c.world) :
    c'.Stands kind R P := by
  obtain ⟨pairs, hR, hP, hheld⟩ := h
  exact ⟨pairs, hle.2 ▸ hR, hP, le_trans hle.1 hheld⟩

include hsim

/-- What a worker holds once it knows the successors of its state. -/
theorem held_plan_le {w : ω} {pairs new : List (σ × τ)} (hR : R w pairs)
    (hsub : ∀ p ∈ new, p ∈ pairs) : Multiset.ofList (plan a (new.map (·.1)) : Worker σ ε).held ≤
      Multiset.ofList (new.map fun p => (kind p.2, p.1)) := by
  have hkinds : ∀ p ∈ new, a.kind p.1 = kind p.2 := fun p hp => hsim.kinds hR (hsub p hp)
  rw [Multiset.coe_le]
  cases hfind : new.find? (kind ·.2 = .success) with
  | some p =>
    rw [plan, Simulates.firstSuccess_fst hkinds, hfind]
    have hp : kind p.2 = .success := by simpa using List.find?_some hfind
    have hmem : (Kind.success, p.1) ∈ new.map fun p => (kind p.2, p.1) :=
      List.mem_map.2 ⟨p, List.mem_of_find?_eq_some hfind, by rw [hp]⟩
    exact (List.singleton_sublist.2 hmem).subperm
  | none =>
    -- The worker keeps the unfinished ones only.
    have hall : (a.unfinished (new.map (·.1))).map (Kind.unfinished, ·) =
        (new.filter (kind ·.2 = .unfinished)).map fun p => (kind p.2, p.1) := by
      rw [Automaton.unfinished, Simulates.filter_fst hkinds, List.map_map]
      refine List.map_congr_left fun p hp => ?_
      have hk : kind p.2 = .unfinished := by simpa using (List.mem_filter.1 hp).2
      rw [hk]
      rfl
    have hnone : a.firstSuccess (new.map (·.1)) = none := by
      rw [Simulates.firstSuccess_fst hkinds, hfind, Option.map_none]
    rw [held_plan hnone, hall]
    exact (List.filter_sublist.map _).subperm

include hnext

/-- A worker computes the successors of its state. -/
theorem Stands.compute {s : σ} (h : c.Stands kind R P) (hw : c.workers[i]? = some (.compute s)) :
    (work a i (.compute s) c).Stands kind R P := by
  obtain ⟨pairs, hR, hP, hheld⟩ := h
  rw [held, holdings_eq hw] at hheld
  -- The state it computes is one of those that stand for something.
  have hmem : (Kind.unfinished, s) ∈ pairs.map fun p => (kind p.2, p.1) := by
    refine Multiset.mem_coe.1 (Multiset.mem_of_le hheld (Multiset.mem_add.2 (.inl ?_)))
    exact List.mem_singleton_self _
  obtain ⟨⟨s, t⟩, hp, heq⟩ := List.mem_map.1 hmem
  obtain ⟨ht, rfl⟩ := Prod.mk.inj heq
  obtain ⟨before, after, rfl⟩ := List.append_of_mem hp
  have hRs := hsim.thin hR List.perm_middle.symm.subperm
  obtain ⟨ts, hts, hPts⟩ := hnext t (hP _ hp) ht
  obtain ⟨new, w', hstep, rfl, hR'⟩ := hsim.goesOn hRs ht hts
  have hwork : work a i (.compute s) c =
      { c with workers := c.workers.set i (plan a (new.map (·.1))), world := w' } := by
    rw [work, hstep]
  rw [hwork]
  -- The successors take the place of the state, beside all others.
  refine ⟨new ++ (before ++ after), hR', fun p hp => ?_, ?_⟩
  · rcases List.mem_append.1 hp with hp | hp
    · exact hPts _ (List.mem_map.2 ⟨p, hp, rfl⟩)
    · refine hP p (List.mem_append.2 ?_)
      exact (List.mem_append.1 hp).imp_right (List.mem_cons_of_mem _)
  · have hplan := held_plan_le hsim hR' fun p hp => List.mem_append_left _ hp
    have hrest : holdings (c.workers.eraseIdx i) c.inbox c.verdict ≤
        Multiset.ofList ((before ++ after).map fun p => (kind p.2, p.1)) := by
      rw [Multiset.coe_eq_coe.2 (List.perm_middle.map _), List.map_cons] at hheld
      exact (Multiset.cons_le_cons_iff _).1 (ht ▸ hheld)
    rw [held, holdings_set hw, List.map_append, ← Multiset.coe_add]
    exact add_le_add hplan hrest

theorem Stands.step (h : c.Stands kind R P) (turn : Turn) : (step a c turn).Stands kind R P := by
  cases turn with
  | coordinator => exact h.of_le held_coordinate_le
  | worker i =>
    rw [Crew.step]
    split
    · rename_i w hw
      by_cases hcompute : ∃ s, w = .compute s
      · obtain ⟨s, rfl⟩ := hcompute
        exact h.compute hsim hnext hw
      · exact h.of_le (held_work_le hw fun s hs => hcompute ⟨s, hs⟩)
    · exact h

/-- Whatever the schedule, what a crew holds stands for something. -/
theorem Stands.run (h : c.Stands kind R P) (schedule : List Turn) :
    (run a schedule c).Stands kind R P := by
  induction schedule generalizing c with
  | nil => exact h
  | cons turn schedule ih => exact ih (h.step hsim hnext turn)

end Run

/-! ### The executor is one schedule -/

theorem run_append (schedule schedule' : List Turn) (c : Crew σ ω ε) :
    run a (schedule ++ schedule') c = run a schedule' (run a schedule c) :=
  List.foldl_append

theorem exists_loopOnce_eq (i : Nat) (c : Crew σ ω ε) :
    ∃ schedule, (loopOnce a i c).2 = run a schedule c := by
  rw [loopOnce]
  dsimp only
  split
  · exact ⟨_, rfl⟩
  · rename_i w _
    let c' := run a [.worker i, .worker i] c
    let c'' := run a (List.replicate (remaining w) (.worker i)) c'
    -- Two turns until the successors are known, as many as it takes to pass them
    -- on, and then the coordinator reads all reports.
    refine ⟨[.worker i, .worker i] ++ (List.replicate (remaining w) (.worker i) ++
      List.replicate (c''.inbox.length + 1) .coordinator), ?_⟩
    rw [run_append, run_append]

theorem exists_follow_eq (i : Nat) (patience : Patience) (c : Crew σ ω ε) :
    ∃ schedule, follow a i patience c = run a schedule c := by
  fun_induction follow a i patience c with
  | case1 | case2 => exact ⟨[], rfl⟩
  | case3 => assumption
  | case4 i c _ n rest count c' heq ih =>
    obtain ⟨schedule, hschedule⟩ := exists_loopOnce_eq (a := a) i c
    obtain ⟨schedule', hschedule'⟩ := ih
    refine ⟨schedule ++ schedule', ?_⟩
    rw [hschedule', run_append, ← hschedule, heq]

theorem turns_eq {patience limit : Nat} {o : Outcome σ ε} {world : ω}
    (h : turns a patience limit c = (o, world)) : o = .stopped ∨
      ∃ schedule, (run a schedule c).verdict = some o ∧ (run a schedule c).world = world := by
  induction limit generalizing c with
  | zero =>
    cases h
    exact .inl rfl
  | succ limit ih =>
    rw [turns] at h
    obtain ⟨schedule, hschedule⟩ :=
      exists_follow_eq (a := a) 0 ⟨List.replicate c.workers.length patience⟩ c
    rw [hschedule] at h
    split at h
    · rename_i hverdict
      cases h
      exact .inr ⟨schedule, hverdict, rfl⟩
    · refine (ih h).imp_right ?_
      rintro ⟨schedule', hschedule'⟩
      refine ⟨schedule ++ schedule', ?_⟩
      rwa [run_append]

/-- The library searches by a schedule, unless it is stopped by its limit. -/
theorem search_eq {threads limit : Nat} {s : σ} {w world : ω} {o : Outcome σ ε}
    (hs : a.kind s = .unfinished) (h : search a threads limit s w = (o, world)) :
    o = .stopped ∨ ∃ schedule, (run a schedule (start s w)).verdict = some o ∧
      (run a schedule (start s w)).world = world := by
  rw [search, hs] at h
  exact turns_eq h

end Crew

/-- A success that a crew has found, by whatever schedule, stands for a success
    of the pure machine. -/
theorem Simulates.of_verdict {σ τ ω ε : Type} {a : Automaton σ ω ε} {kind : τ → Kind}
    {next : τ → Except ε (List τ)} {R : ω → List (σ × τ) → Prop} {P : τ → Prop}
    (hsim : Simulates a kind next R)
    (hnext : ∀ t, P t → kind t = .unfinished → ∃ ts, next t = .ok ts ∧ ∀ u ∈ ts, P u)
    {s u : σ} {t : τ} {w : ω} (hR : R w [(s, t)]) (ht : P t) (hk : kind t = .unfinished)
    {schedule : List Turn}
    (hverdict : (Crew.run a schedule (.start s w)).verdict = some (.found u)) :
    ∃ v, R (Crew.run a schedule (.start s w)).world [(u, v)] ∧ P v ∧ kind v = .success := by
  have hstart : (Crew.start s w : Crew σ ω ε).Stands kind R P := by
    refine ⟨[(s, t)], hR, List.forall_mem_singleton.2 ht, le_of_eq ?_⟩
    rw [List.map_singleton, hk]
    rfl
  -- The verdict holds the success, so it is one of the states that stand for
  -- something.
  obtain ⟨pairs, hR', hP, hheld⟩ := hstart.run hsim hnext schedule
  have hmem : (Kind.success, u) ∈ pairs.map fun p => (kind p.2, p.1) := by
    refine Multiset.mem_coe.1 (Multiset.mem_of_le hheld ?_)
    rw [Crew.held, hverdict, Crew.holdings_verdict]
    exact Multiset.mem_add.2 (.inl (List.mem_singleton_self _))
  obtain ⟨⟨u, v⟩, hp, heq⟩ := List.mem_map.1 hmem
  obtain ⟨hv, rfl⟩ := Prod.mk.inj heq
  exact ⟨v, hsim.thin hR' (List.singleton_sublist.2 hp).subperm, hP _ hp, hv⟩

end Ramify.Search
