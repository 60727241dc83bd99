import Ramify.Proofs.Search.Simulation

/-!
# Searching in any order

Generation by generation is one way to go through the states that can be
reached. A search may also take up any state it holds, whenever it likes, and
give states up. What it does is then a list of *picks* (`Pick`), and playing them
gives the states that are held in the end (`Automaton.play`).

* `Simulates.play`: as a simulation is about all states that are held at a
  moment, it carries over to any order. The states stand for those the pure
  machine holds when the same picks are played.
* `comesUp_iff`: if no unfinished state is given up, and none is left in the
  end, then the finished states that come up on the way are those that a path
  leads to. So they are the same for every such order.
-/

namespace Ramify.Search

/-- What is done with the states that are held. -/
inductive Pick where
  /-- The state at a position takes a step, and its successors take its place. -/
  | step (i : Nat)
  /-- The state at a position is given up. -/
  | drop (i : Nat)

/-- The position of the state that is picked. -/
def Pick.position : Pick → Nat
  | step i | drop i => i

/-- Some elements in the place of the one at a position. -/
def splice {α : Type} (xs : List α) (i : Nat) (new : List α) : List α :=
  xs.take i ++ (new ++ xs.drop (i + 1))

section Splice

variable {α β : Type} {xs before after new : List α} {x : α} {i : Nat}

@[simp] theorem splice_append :
    splice (before ++ x :: after) before.length new = before ++ (new ++ after) := by
  simp [splice]

theorem exists_eq_append (h : xs[i]? = some x) :
    ∃ before after, xs = before ++ x :: after ∧ before.length = i := by
  obtain ⟨hi, rfl⟩ := List.getElem?_eq_some_iff.1 h
  refine ⟨xs.take i, xs.drop (i + 1), ?_, List.length_take_of_le (Nat.le_of_lt hi)⟩
  rw [List.getElem_cons_drop, List.take_append_drop]

theorem getElem?_append_self : (before ++ x :: after)[before.length]? = some x := by
  rw [List.getElem?_append_right (Nat.le_refl _), Nat.sub_self, List.getElem?_cons_zero]

end Splice

namespace Automaton

variable {σ ω ε : Type} (a : Automaton σ ω ε) (release : σ → ω → ω)

/-- Plays a pick. Finished states have no step to take. When a state is given
    up, so is what it has in the world. -/
def pick (p : Pick) (states : List σ) (w : ω) : Except ε (List σ × ω) :=
  match states[p.position]? with
  | none => .ok (states, w)
  | some s =>
    match p with
    | .step i =>
      if a.kind s = .unfinished then
        match a.next s w with
        | (.error e, _) => .error e
        | (.ok new, w) => .ok (splice states i new, w)
      else .ok (states, w)
    | .drop i => .ok (splice states i [], release s w)

/-- Plays picks in a row. -/
def play : List Pick → List σ → ω → Except ε (List σ × ω)
  | [], states, w => .ok (states, w)
  | p :: picks, states, w =>
    match a.pick release p states w with
    | .error e => .error e
    | .ok (states, w) => play picks states w

/-- A pick does not give up an unfinished state. -/
def Spares (p : Pick) (states : List σ) : Prop :=
  ∀ i s, p = .drop i → states[i]? = some s → a.kind s ≠ .unfinished

/-- Playing picks, no unfinished state is given up, and none is left in the end. -/
inductive Thorough : List Pick → List σ → ω → Prop
  | done {states : List σ} {w : ω} : (∀ s ∈ states, a.kind s ≠ .unfinished) →
    Thorough [] states w
  | pick {p : Pick} {picks : List Pick} {states states' : List σ} {w w' : ω} :
    a.Spares p states → a.pick release p states w = .ok (states', w') →
    Thorough picks states' w' → Thorough (p :: picks) states w

/-- Playing picks, a state comes up in a world. -/
inductive ComesUp (s : σ) (w' : ω) : List Pick → List σ → ω → Prop
  | here {picks : List Pick} {states : List σ} : s ∈ states → ComesUp s w' picks states w'
  | later {p : Pick} {picks : List Pick} {states states' : List σ} {w₀ w : ω} :
    a.pick release p states w₀ = .ok (states', w) → ComesUp s w' picks states' w →
    ComesUp s w' (p :: picks) states w₀

variable {a release} {p : Pick} {picks : List Pick} {states states' before after : List σ}
  {s t : σ} {w w' : ω} {i : Nat}

theorem pick_of_none (h : states[p.position]? = none) :
    a.pick release p states w = .ok (states, w) := by
  rw [pick, h]

theorem pick_step (hs : a.kind s = .unfinished) :
    a.pick release (.step before.length) (before ++ s :: after) w =
      match a.next s w with
      | (.error e, _) => .error e
      | (.ok new, w) => .ok (before ++ (new ++ after), w) := by
  rw [pick, Pick.position, getElem?_append_self]
  dsimp only
  rw [if_pos hs]
  simp only [splice_append]

theorem pick_step_of_finished (hs : a.kind s ≠ .unfinished) :
    a.pick release (.step before.length) (before ++ s :: after) w =
      .ok (before ++ s :: after, w) := by
  rw [pick, Pick.position, getElem?_append_self]
  dsimp only
  rw [if_neg hs]

theorem pick_drop :
    a.pick release (.drop before.length) (before ++ s :: after) w =
      .ok (before ++ after, release s w) := by
  rw [pick, Pick.position, getElem?_append_self]
  dsimp only
  rw [splice_append, List.nil_append]

/-- All that a pick can do to the states that are held. -/
theorem pick_eq_ok (h : a.pick release p states w = .ok (states', w')) :
    (states' = states ∧ w' = w) ∨
      (∃ before s after, p = .drop before.length ∧ states = before ++ s :: after ∧
        states' = before ++ after ∧ w' = release s w) ∨
      ∃ before s after new, p = .step before.length ∧ states = before ++ s :: after ∧
        states' = before ++ (new ++ after) ∧ a.kind s = .unfinished ∧
        a.next s w = (.ok new, w') := by
  cases hx : states[p.position]? with
  | none =>
    rw [pick_of_none hx] at h
    cases h
    exact .inl ⟨rfl, rfl⟩
  | some s =>
    obtain ⟨before, after, rfl, hlen⟩ := exists_eq_append hx
    cases p with
    | drop i =>
      obtain rfl : before.length = i := hlen
      rw [pick_drop] at h
      cases h
      exact .inr (.inl ⟨before, s, after, rfl, rfl, rfl, rfl⟩)
    | step i =>
      obtain rfl : before.length = i := hlen
      by_cases hs : a.kind s = .unfinished
      · rw [pick_step hs] at h
        rcases hnext : a.next s w with ⟨e | new, w₁⟩
        · rw [hnext] at h
          cases h
        · rw [hnext] at h
          cases h
          exact .inr (.inr ⟨before, s, after, new, rfl, rfl, rfl, hs, hnext⟩)
      · rw [pick_step_of_finished hs] at h
        cases h
        exact .inl ⟨rfl, rfl⟩

end Automaton

/-! ### What comes up -/

section Pure

open Automaton (ofPure Thorough ComesUp Spares)

variable {τ ε : Type} {kind : τ → Kind} {next : τ → Except ε (List τ)} {p : Pick}
  {picks : List Pick} {ts us : List τ} {t u : τ}

/-- There is nothing to give up where there is no world. -/
def keep {τ : Type} (_ : τ) (w : Unit) : Unit := w

/-- What can be done to the states of a pure machine. -/
inductive Picked (kind : τ → Kind) (next : τ → Except ε (List τ)) : Pick → List τ → List τ → Prop
  | idle {p : Pick} {ts : List τ} : Picked kind next p ts ts
  | step {before after new : List τ} {t : τ} : kind t = .unfinished → next t = .ok new →
    Picked kind next (.step before.length) (before ++ t :: after) (before ++ (new ++ after))
  | drop {before after : List τ} {t : τ} :
    Picked kind next (.drop before.length) (before ++ t :: after) (before ++ after)

theorem picked_of_pick (h : (ofPure kind next).pick keep p ts () = .ok (us, ())) :
    Picked kind next p ts us := by
  rcases Automaton.pick_eq_ok h with ⟨rfl, -⟩ | ⟨before, t, after, rfl, rfl, rfl, -⟩ |
    ⟨before, t, after, new, rfl, rfl, rfl, ht, hnew⟩
  · exact .idle
  · exact .drop
  · exact .step ht (Prod.mk.inj hnew).1

/-- What is held after a pick was held before, or is a successor. -/
theorem Picked.back (h : Picked kind next p ts us) (hu : u ∈ us) :
    u ∈ ts ∨ ∃ t ∈ ts, Leads kind next 1 t u := by
  cases h with
  | idle => exact .inl hu
  | @step before after new t ht hnext =>
    simp only [List.mem_append, List.mem_cons] at hu ⊢
    rcases hu with hu | hu | hu
    · exact .inl (.inl hu)
    · exact .inr ⟨t, .inr (.inl rfl), .single ht hnext hu⟩
    · exact .inl (.inr (.inr hu))
  | drop =>
    simp only [List.mem_append, List.mem_cons] at hu ⊢
    rcases hu with hu | hu
    · exact .inl (.inl hu)
    · exact .inl (.inr (.inr hu))

/-- A path from what is held to a finished state goes on after a pick, or is at
    its end. -/
theorem Picked.onward {k : Nat} (h : Picked kind next p ts us)
    (hspares : (ofPure kind next : Automaton τ Unit ε).Spares p ts) (ht : t ∈ ts)
    (hlead : Leads kind next k t u) (hu : kind u ≠ .unfinished) :
    u = t ∨ ∃ t' ∈ us, ∃ l, Leads kind next l t' u := by
  cases h with
  | idle => exact .inr ⟨t, ht, k, hlead⟩
  | @step before after new s hs hnext =>
    have hstays : t ∈ before ∨ t ∈ after → t ∈ before ++ (new ++ after) := by
      rintro (ht | ht)
      · exact List.mem_append_left _ ht
      · exact List.mem_append_right _ (List.mem_append_right _ ht)
    rcases List.mem_append.1 ht with ht | ht
    · exact .inr ⟨t, hstays (.inl ht), k, hlead⟩
    · rcases List.mem_cons.1 ht with rfl | ht
      · cases hlead with
        | refl => exact .inl rfl
        | @step _ _ t' _ _ _ hnext' ht' hlead' =>
          obtain rfl := Except.ok.inj (hnext.symm.trans hnext')
          exact .inr ⟨t', List.mem_append_right _ (List.mem_append_left _ ht'), _, hlead'⟩
      · exact .inr ⟨t, hstays (.inr ht), k, hlead⟩
  | @drop before after s =>
    have hs : kind s ≠ .unfinished := hspares before.length s rfl getElem?_append_self
    rcases List.mem_append.1 ht with ht | ht
    · exact .inr ⟨t, List.mem_append_left _ ht, k, hlead⟩
    · rcases List.mem_cons.1 ht with rfl | ht
      · exact .inl (hlead.eq_of_finished hs)
      · exact .inr ⟨t, List.mem_append_right _ ht, k, hlead⟩

theorem leads_of_comesUp (h : ComesUp (ofPure kind next) keep t () picks ts ()) :
    ∃ s ∈ ts, ∃ k, Leads kind next k s t := by
  generalize hw : () = w at h
  induction h with
  | here ht => exact ⟨t, ht, 0, .refl t⟩
  | later hpick _ ih =>
    obtain ⟨s, hs, k, hlead⟩ := ih rfl
    rcases (picked_of_pick hpick).back hs with hs | ⟨s', hs', hstep⟩
    · exact ⟨s, hs, k, hlead⟩
    · exact ⟨s', hs', 1 + k, hstep.trans hlead⟩

/-- When picks are thorough, all finished states come up that a path leads to,
    and no others. -/
theorem comesUp_iff (h : Thorough (ofPure kind next) keep picks ts ()) (hu : kind u ≠ .unfinished) :
    ComesUp (ofPure kind next) keep u () picks ts () ↔
      ∃ t ∈ ts, ∃ k, Leads kind next k t u := by
  refine ⟨leads_of_comesUp, ?_⟩
  generalize hw : () = w at h
  induction h with
  | done hfin =>
    rintro ⟨t, ht, k, hlead⟩
    rw [hlead.eq_of_finished (hfin t ht)]
    exact .here ht
  | pick hspares hpick _ ih =>
    rintro ⟨t, ht, k, hlead⟩
    rcases (picked_of_pick hpick).onward hspares ht hlead hu with rfl | hgo
    · exact .here ht
    · exact .later hpick (ih rfl hgo)

end Pure

/-! ### Any order of a simulation -/

namespace Simulates

open Automaton (ofPure Thorough ComesUp)

variable {σ τ ω ε : Type} {a : Automaton σ ω ε} {kind : τ → Kind} {next : τ → Except ε (List τ)}
  {R : ω → List (σ × τ) → Prop} {release : σ → ω → ω} {P : τ → Prop} {w w' : ω} {s : σ} {t : τ}
  {pairs : List (σ × τ)} {picks : List Pick}

/-- What a search in any order relies on: states can be given up, and the pure
    machine never fails. -/
structure Steady (kind : τ → Kind) (next : τ → Except ε (List τ)) (R : ω → List (σ × τ) → Prop)
    (release : σ → ω → ω) (P : τ → Prop) : Prop where
  release : ∀ {w s t pairs}, R w ((s, t) :: pairs) → R (release s w) pairs
  next : ∀ {t}, P t → kind t = .unfinished → ∃ ts, next t = .ok ts ∧ ∀ u ∈ ts, P u

theorem spares_iff {p : Pick} (hkinds : ∀ x ∈ pairs, a.kind x.1 = kind x.2) :
    a.Spares p (pairs.map (·.1)) ↔
      (ofPure kind next : Automaton τ Unit ε).Spares p (pairs.map (·.2)) := by
  simp only [Automaton.Spares, List.getElem?_map]
  constructor
  · rintro h i t rfl ht
    obtain ⟨x, hx, rfl⟩ := Option.map_eq_some_iff.1 ht
    have hopen := h i x.1 rfl (by rw [hx]; rfl)
    rwa [hkinds x (List.mem_of_getElem? hx)] at hopen
  · rintro h i s rfl hs
    obtain ⟨x, hx, rfl⟩ := Option.map_eq_some_iff.1 hs
    rw [hkinds x (List.mem_of_getElem? hx)]
    exact h i x.2 rfl (by rw [hx]; rfl)

section

variable (hsim : Simulates a kind next R) (hsteady : Steady kind next R release P)

include hsim hsteady

/-- A pick is played by both machines, and what is held goes on standing for
    what the pure machine holds. -/
theorem pick (p : Pick) (hR : R w pairs) (hP : ∀ x ∈ pairs, P x.2) :
    ∃ pairs' w', a.pick release p (pairs.map (·.1)) w = .ok (pairs'.map (·.1), w') ∧
      (ofPure kind next).pick keep p (pairs.map (·.2)) () = .ok (pairs'.map (·.2), ()) ∧
      R w' pairs' ∧ ∀ x ∈ pairs', P x.2 := by
  cases hx : pairs[p.position]? with
  | none =>
    refine ⟨pairs, w, Automaton.pick_of_none ?_, Automaton.pick_of_none ?_, hR, hP⟩
    · rw [List.getElem?_map, hx, Option.map_none]
    · rw [List.getElem?_map, hx, Option.map_none]
  | some x =>
    obtain ⟨s, t⟩ := x
    obtain ⟨before, after, rfl, hlen⟩ := exists_eq_append hx
    -- Any state can be seen as the first one.
    have hfront : R w ((s, t) :: (before ++ after)) := hsim.thin hR List.perm_middle.symm.subperm
    have hfst : before.length = (before.map (·.1)).length := (List.length_map _).symm
    have hsnd : before.length = (before.map (·.2)).length := (List.length_map _).symm
    have hrest : ∀ x ∈ before ++ after, P x.2 := fun x hx => hP x (by
      rcases List.mem_append.1 hx with hx | hx <;> simp [hx])
    have ht : P t := hP (s, t) (by simp)
    rw [List.map_append, List.map_append, List.map_cons, List.map_cons]
    cases p with
    | drop i =>
      obtain rfl : before.length = i := hlen
      refine ⟨before ++ after, release s w, ?_, ?_, hsteady.release hfront, hrest⟩
      · rw [hfst, Automaton.pick_drop, List.map_append]
      · rw [hsnd, Automaton.pick_drop, List.map_append]
    | step i =>
      obtain rfl : before.length = i := hlen
      have hkind : a.kind s = kind t := hsim.kinds hfront List.mem_cons_self
      by_cases hopen : kind t = .unfinished
      · obtain ⟨ts, hts, hPts⟩ := hsteady.next ht hopen
        obtain ⟨new, w', hs, rfl, hR'⟩ := hsim.goesOn hfront hopen hts
        refine ⟨before ++ (new ++ after), w', ?_, ?_, hsim.thin hR' ?_, fun x hx => ?_⟩
        · rw [hfst, Automaton.pick_step (hkind.trans hopen), hs, List.map_append, List.map_append]
        · rw [hsnd, Automaton.pick_step hopen, Breadth.next_ofPure, hts, List.map_append,
            List.map_append]
        · exact (List.perm_append_comm_assoc _ _ _).subperm
        · rcases List.mem_append.1 hx with hx | hx
          · exact hrest x (List.mem_append_left _ hx)
          · rcases List.mem_append.1 hx with hx | hx
            · exact hPts x.2 (List.mem_map_of_mem hx)
            · exact hrest x (List.mem_append_right _ hx)
      · refine ⟨before ++ (s, t) :: after, w, ?_, ?_, hR, hP⟩
        · rw [hfst, Automaton.pick_step_of_finished (hkind ▸ hopen), List.map_append, List.map_cons]
        · rw [hsnd, Automaton.pick_step_of_finished hopen, List.map_append, List.map_cons]

/-- Whatever is picked, what is held stands for what the pure machine holds. -/
theorem play (picks : List Pick) (hR : R w pairs) (hP : ∀ x ∈ pairs, P x.2) :
    ∃ pairs' w', a.play release picks (pairs.map (·.1)) w = .ok (pairs'.map (·.1), w') ∧
      (ofPure kind next).play keep picks (pairs.map (·.2)) () = .ok (pairs'.map (·.2), ()) ∧
      R w' pairs' ∧ ∀ x ∈ pairs', P x.2 := by
  induction picks generalizing pairs w with
  | nil => exact ⟨pairs, w, rfl, rfl, hR, hP⟩
  | cons p picks ih =>
    obtain ⟨pairs₁, w₁, hpick, hpick', hR₁, hP₁⟩ := hsim.pick hsteady p hR hP
    rw [Automaton.play, Automaton.play, hpick, hpick']
    exact ih hR₁ hP₁

/-- Being thorough means the same to both machines. -/
theorem thorough_iff (hR : R w pairs) (hP : ∀ x ∈ pairs, P x.2) :
    Thorough a release picks (pairs.map (·.1)) w ↔
      Thorough (ofPure kind next) keep picks (pairs.map (·.2)) () := by
  have hkinds : ∀ x ∈ pairs, a.kind x.1 = kind x.2 := fun x hx => hsim.kinds hR hx
  induction picks generalizing pairs w with
  | nil =>
    have hopen : (∀ s ∈ pairs.map (·.1), a.kind s ≠ .unfinished) ↔
        ∀ t ∈ pairs.map (·.2), kind t ≠ .unfinished := by
      rw [List.forall_mem_map, List.forall_mem_map]
      exact forall₂_congr fun x hx => by rw [hkinds x hx]
    constructor
    · rintro ⟨hfin⟩
      exact .done (hopen.1 hfin)
    · rintro ⟨hfin⟩
      exact .done (hopen.2 hfin)
  | cons p picks ih =>
    obtain ⟨pairs₁, w₁, hpick, hpick', hR₁, hP₁⟩ := hsim.pick hsteady p hR hP
    have hrest := ih hR₁ hP₁ fun x hx => hsim.kinds hR₁ hx
    have hspares : a.Spares p (pairs.map (·.1)) ↔
        (ofPure kind next).Spares p (pairs.map (·.2)) := spares_iff hkinds
    constructor
    · intro h
      cases h with
      | pick hp hstep hgo =>
        cases hpick.symm.trans hstep
        exact .pick (hspares.1 hp) hpick' (hrest.1 hgo)
    · intro h
      cases h with
      | pick hp hstep hgo =>
        cases hpick'.symm.trans hstep
        exact .pick (hspares.2 hp) hpick (hrest.2 hgo)

/-- What comes up stands for what comes up when the pure machine is played. -/
theorem comesUp (hR : R w pairs) (hP : ∀ x ∈ pairs, P x.2)
    (h : ComesUp a release s w' picks (pairs.map (·.1)) w) :
    ∃ t, R w' [(s, t)] ∧ ComesUp (ofPure kind next) keep t () picks (pairs.map (·.2)) () := by
  generalize hstates : pairs.map (·.1) = states at h
  induction h generalizing pairs with
  | here hs =>
    subst hstates
    obtain ⟨⟨s, t⟩, hx, rfl⟩ := List.mem_map.1 hs
    exact ⟨t, hsim.thin hR (List.singleton_sublist.2 hx).subperm,
      .here (List.mem_map_of_mem hx)⟩
  | later hstep _ ih =>
    subst hstates
    obtain ⟨pairs₁, w₁, hpick, hpick', hR₁, hP₁⟩ := hsim.pick hsteady _ hR hP
    cases hpick.symm.trans hstep
    obtain ⟨t, ht, hgo⟩ := ih hR₁ hP₁ rfl
    exact ⟨t, ht, .later hpick' hgo⟩

/-- What comes up when the pure machine is played is stood for. -/
theorem exists_comesUp (hR : R w pairs) (hP : ∀ x ∈ pairs, P x.2)
    (h : ComesUp (ofPure kind next) keep t () picks (pairs.map (·.2)) ()) :
    ∃ s w', R w' [(s, t)] ∧ ComesUp a release s w' picks (pairs.map (·.1)) w := by
  generalize hstates : pairs.map (·.2) = states at h
  generalize hunit : () = u at h
  induction h generalizing pairs w with
  | here ht =>
    subst hstates
    obtain ⟨⟨s, t⟩, hx, rfl⟩ := List.mem_map.1 ht
    exact ⟨s, w, hsim.thin hR (List.singleton_sublist.2 hx).subperm,
      .here (List.mem_map_of_mem hx)⟩
  | later hstep _ ih =>
    subst hstates
    obtain ⟨pairs₁, w₁, hpick, hpick', hR₁, hP₁⟩ := hsim.pick hsteady _ hR hP
    cases hpick'.symm.trans hstep
    obtain ⟨s, w', hs, hgo⟩ := ih hR₁ hP₁ rfl rfl
    exact ⟨s, w', hs, .later hpick hgo⟩

end

end Simulates

end Ramify.Search
