import Ramify.Proofs.Search.Layers
import Ramify.Proofs.Search.Order

/-!
# Places

States that point into a world do not show where they come from. Here each of them is held
together with its place (`Automaton.placed`): the successors of the state at a place lie right
below it, in order.

* Places are a mere addition: without them, the same picks do the same (`play_placed`).
* No two states that are held have the same place, as none lies below another
  (`abreast_play`).
* In a simulation, what a state stands for lies at its place (`Simulates.placed`).

A pure machine never comes to the same state twice, by whichever way, if it can be run
backwards (`Reversible.place_eq`).
-/

namespace Ramify.Search

variable {σ τ ω ε : Type} {a : Automaton σ ω ε} {kind : τ → Kind} {next : τ → Except ε (List τ)}
  {R : ω → List (σ × τ) → Prop} {release : σ → ω → ω} {P : τ → Prop} {s t u : τ}
  {p q place : List Nat} {w w' : ω} {xs ys : List (List Nat × σ)} {pick : Pick} {picks : List Pick}

/-- States in the places right below a place, in order. -/
def spread {σ : Type} (place : List Nat) (states : List σ) : List (List Nat × σ) :=
  states.zipIdx.map fun x => (place ++ [x.2], x.1)

/-- A machine whose states are held together with their places. -/
def Automaton.placed (a : Automaton σ ω ε) : Automaton (List Nat × σ) ω ε where
  kind x := a.kind x.2
  next x w := ((a.next x.2 w).1.map (spread x.1), (a.next x.2 w).2)

/-! ### Places right below a place -/

@[simp] theorem map_snd_spread (place : List Nat) (states : List σ) :
    (spread place states).map (·.2) = states := by
  rw [spread, List.map_map]
  exact List.zipIdx_map_fst 0 states

theorem map_fst_spread {states : List σ} :
    (spread place states).map (·.1) = (List.range states.length).map fun i => place ++ [i] := by
  rw [spread, List.map_map, List.range_eq_range', ← List.zipIdx_map_snd 0 states, List.map_map]
  rfl

theorem mem_spread {states : List σ} {state : σ} :
    (p, state) ∈ spread place states ↔ ∃ i, states[i]? = some state ∧ p = place ++ [i] := by
  simp only [spread, List.mem_map, Prod.exists, Prod.mk.injEq, List.mk_mem_zipIdx_iff_getElem?]
  constructor
  · rintro ⟨state', i, hi, rfl, rfl⟩
    exact ⟨i, hi, rfl⟩
  · rintro ⟨i, hi, rfl⟩
    exact ⟨state, i, hi, rfl, rfl⟩

theorem spread_map {β : Type} {f : σ → β} {states : List σ} :
    spread place (states.map f) = (spread place states).map fun x => (x.1, f x.2) := by
  rw [spread, spread, List.zipIdx_map, List.map_map, List.map_map]
  rfl

/-! ### Playing with places -/

section Playing

/-- A pick does the same without the places. -/
theorem pick_placed : a.pick release pick (xs.map (·.2)) w =
    (a.placed.pick (fun x => release x.2) pick xs w).map fun r => (r.1.map (·.2), r.2) := by
  cases hx : xs[pick.position]? with
  | none =>
    rw [Automaton.pick_of_none hx, Automaton.pick_of_none (by rw [List.getElem?_map, hx]; rfl)]
    rfl
  | some x =>
    obtain ⟨before, after, rfl, hlen⟩ := exists_eq_append hx
    have hmap : before.length = (before.map (·.2)).length := (List.length_map _).symm
    rw [List.map_append, List.map_cons]
    cases pick with
    | drop i =>
      obtain rfl : before.length = i := hlen
      rw [Automaton.pick_drop, hmap, Automaton.pick_drop, ← List.map_append]
      rfl
    | step i =>
      obtain rfl : before.length = i := hlen
      by_cases hopen : a.kind x.2 = .unfinished
      · rw [Automaton.pick_step (a := a.placed) hopen, hmap, Automaton.pick_step hopen]
        dsimp only [Automaton.placed]
        rcases a.next x.2 w with ⟨e | new, w'⟩
        · rfl
        · dsimp only [Except.map]
          rw [List.map_append, List.map_append, map_snd_spread]
      · rw [Automaton.pick_step_of_finished (a := a.placed) hopen, hmap,
          Automaton.pick_step_of_finished hopen, ← List.map_cons, ← List.map_append]
        rfl

/-- Playing does the same without the places. -/
theorem play_placed (picks : List Pick) (xs : List (List Nat × σ)) (w : ω) :
    a.play release picks (xs.map (·.2)) w =
      (a.placed.play (fun x => release x.2) picks xs w).map fun r => (r.1.map (·.2), r.2) := by
  induction picks generalizing xs w with
  | nil => rfl
  | cons pick picks ih =>
    rw [Automaton.play, Automaton.play, pick_placed]
    cases a.placed.pick (fun x => release x.2) pick xs w with
    | error e => rfl
    | ok r => exact ih r.1 r.2

/-- None of some places lies below another one. -/
def Abreast (places : List (List Nat)) : Prop := places.Pairwise fun p q => ¬p <+: q ∧ ¬q <+: p

theorem Abreast.nodup {places : List (List Nat)} (h : Abreast places) : places.Nodup := by
  refine h.imp ?_
  rintro p q ⟨hpq, -⟩ rfl
  exact hpq List.prefix_rfl

/-- A place can be replaced by those right below it. -/
theorem Abreast.descend {before after : List (List Nat)}
    (h : Abreast (before ++ place :: after)) (n : Nat) :
    Abreast (before ++ ((List.range n).map (fun i => place ++ [i]) ++ after)) := by
  obtain ⟨hbefore, hrest, hacross⟩ := List.pairwise_append.1 h
  obtain ⟨hplace, hafter⟩ := List.pairwise_cons.1 hrest
  -- What does not lie below the place, nor above it, is so for those right below it.
  have hbelow : ∀ {q : List Nat} (i : Nat), ¬place <+: q ∧ ¬q <+: place →
      ¬place ++ [i] <+: q ∧ ¬q <+: place ++ [i] := by
    rintro q i ⟨hpq, hqp⟩
    refine ⟨fun hlt => hpq ((List.prefix_append place [i]).trans hlt), fun hlt => ?_⟩
    rcases List.prefix_concat_iff.1 hlt with rfl | hlt
    · exact hpq (List.prefix_append place [i])
    · exact hqp hlt
  refine List.pairwise_append.2 ⟨hbefore, List.pairwise_append.2 ⟨?_, hafter, ?_⟩, ?_⟩
  · refine List.pairwise_map.2 (List.nodup_range.imp fun {i j} hij => ?_)
    have hne : ∀ {i j : Nat}, i ≠ j → ¬place ++ [i] <+: place ++ [j] := by
      intro i j hij hlt
      rw [List.prefix_append_right_inj, List.cons_prefix_cons] at hlt
      exact hij hlt.1
    exact ⟨hne hij, hne hij.symm⟩
  · intro x hx q hq
    obtain ⟨i, -, rfl⟩ := List.mem_map.1 hx
    exact hbelow i (hplace q hq)
  · intro q hq x hx
    rcases List.mem_append.1 hx with hx | hx
    · obtain ⟨i, -, rfl⟩ := List.mem_map.1 hx
      exact (hbelow i (hacross q hq place List.mem_cons_self).symm).symm
    · exact hacross q hq x (List.mem_cons_of_mem place hx)

/-- The places that are held stay abreast. -/
theorem abreast_pick (h : a.placed.pick (fun x => release x.2) pick xs w = .ok (ys, w'))
    (hxs : Abreast (xs.map (·.1))) : Abreast (ys.map (·.1)) := by
  rcases Automaton.pick_eq_ok h with ⟨rfl, -⟩ | ⟨before, x, after, -, rfl, rfl, -⟩ |
    ⟨before, x, after, new, -, rfl, rfl, -, hnew⟩
  · exact hxs
  · rw [List.map_append, List.map_cons] at hxs
    rw [List.map_append]
    exact hxs.sublist ((List.sublist_cons_self x.1 _).append_left _)
  · have hspread := (Prod.mk.inj hnew).1
    cases hnext : (a.next x.2 w).1 with
    | error e =>
      rw [hnext] at hspread
      cases hspread
    | ok states =>
      rw [hnext] at hspread
      cases hspread
      rw [List.map_append, List.map_cons] at hxs
      rw [List.map_append, List.map_append, map_fst_spread]
      exact hxs.descend states.length

theorem abreast_play (h : a.placed.play (fun x => release x.2) picks xs w = .ok (ys, w'))
    (hxs : Abreast (xs.map (·.1))) : Abreast (ys.map (·.1)) := by
  induction picks generalizing xs w with
  | nil =>
    cases h
    exact hxs
  | cons pick picks ih =>
    rw [Automaton.play] at h
    cases hpick : a.placed.pick (fun x => release x.2) pick xs w with
    | error e =>
      rw [hpick] at h
      cases h
    | ok r =>
      rw [hpick] at h
      exact ih h (abreast_pick hpick hxs)

end Playing

/-! ### What lies at a place -/

/-- States with places stand for states that lie there. -/
structure Placed (kind : τ → Kind) (next : τ → Except ε (List τ)) (R : ω → List (σ × τ) → Prop)
    (s : τ) (w : ω) (pairs : List ((List Nat × σ) × τ)) : Prop where
  /-- Without the places, they stand for the same. -/
  stands : R w (pairs.map fun x => (x.1.2, x.2))
  /-- The places are those of what they stand for. -/
  lies : ∀ x ∈ pairs, Lies kind next x.1.1 s x.2

namespace Simulates

/-- A simulation goes on with places. -/
theorem placed (hsim : Simulates a kind next R) (s : τ) :
    Simulates a.placed kind next (Placed kind next R s) where
  kinds h hx := hsim.kinds h.stands (List.mem_map_of_mem hx)
  thin {w pairs pairs'} h hsub := by
    obtain ⟨l, hperm, hsub⟩ := hsub
    refine ⟨hsim.thin h.stands ⟨_, hperm.map _, hsub.map _⟩, fun x hx => ?_⟩
    exact h.lies x (hsub.subset (hperm.mem_iff.2 hx))
  fails {w x t pairs e} h ht he := by
    have herr := hsim.fails h.stands ht he
    dsimp only [Automaton.placed] at herr ⊢
    generalize a.next x.2 w = r at herr ⊢
    obtain ⟨_, w'⟩ := r
    cases herr
    rfl
  goesOn {w x t pairs ts} h ht hts := by
    obtain ⟨new, w', hnew, rfl, hR⟩ := hsim.goesOn h.stands ht hts
    have hlies : Lies kind next x.1 s t := h.lies (x, t) List.mem_cons_self
    refine ⟨(spread x.1 new).map fun y => ((y.1, y.2.1), y.2.2), w', ?_, ?_, ?_, ?_⟩
    · dsimp only [Automaton.placed] at hnew ⊢
      rw [hnew]
      dsimp only [Except.map]
      rw [spread_map, List.map_map]
      rfl
    · rw [List.map_map, ← map_snd_spread x.1 (new.map (·.2)), spread_map, List.map_map]
      rfl
    · rw [List.map_append, List.map_map]
      have hforget : (spread x.1 new).map ((fun x => (x.1.2, x.2)) ∘
          fun y => ((y.1, y.2.1), y.2.2)) = new := map_snd_spread x.1 new
      rw [hforget]
      exact hR
    · rintro y hy
      rcases List.mem_append.1 hy with hy | hy
      · obtain ⟨⟨p, z⟩, hz, rfl⟩ := List.mem_map.1 hy
        obtain ⟨i, hi, rfl⟩ := mem_spread.1 hz
        refine lies_concat_iff.2 ⟨t, _, hlies, ht, hts, ?_⟩
        rw [List.getElem?_map, hi]
        rfl
      · exact h.lies y (List.mem_cons_of_mem _ hy)

/-- A steady search stays steady with places. -/
theorem Steady.placed (hsteady : Steady kind next R release P) (s : τ) :
    Steady kind next (Placed kind next R s) (fun x => release x.2) P where
  release h :=
    ⟨hsteady.release h.stands, fun y hy => h.lies y (List.mem_cons_of_mem _ hy)⟩
  next := hsteady.next

end Simulates

/-! ### Running backwards -/

/-- There is one state only at a place. -/
theorem Lies.unique (h : Lies kind next p s t) (h' : Lies kind next p s u) : t = u := by
  induction h with
  | root =>
    cases h'
    rfl
  | onward _ hnext ht _ ih =>
    cases h' with
    | onward _ hnext' ht' h' =>
      obtain rfl := Except.ok.inj (hnext.symm.trans hnext')
      obtain rfl := Option.some.inj (ht.symm.trans ht')
      exact ih h'

/-- A machine can be run backwards to a state, except from dead ends. -/
structure Reversible (kind : τ → Kind) (next : τ → Except ε (List τ)) (s : τ) : Prop where
  /-- The state is no successor. -/
  start : ∀ {u ts}, kind u = .unfinished → next u = .ok ts → s ∉ ts
  /-- A state is the successor of one state only. -/
  back : ∀ {u u' ts ts' t}, kind u = .unfinished → next u = .ok ts → t ∈ ts →
    kind u' = .unfinished → next u' = .ok ts' → t ∈ ts' → kind t ≠ .fail → u = u'
  /-- No state has the same successor twice. -/
  nodup : ∀ {u ts}, kind u = .unfinished → next u = .ok ts → ts.Nodup

/-- What lies at two places is a dead end. -/
theorem Reversible.place_eq (h : Reversible kind next s) (hp : Lies kind next p s t)
    (hq : Lies kind next q s t) (ht : kind t ≠ .fail) : p = q := by
  induction p using List.reverseRecOn generalizing q t with
  | nil =>
    cases hp
    rcases q.eq_nil_or_concat' with rfl | ⟨q, j, rfl⟩
    · rfl
    · obtain ⟨u, ts, -, hu, hnext, hj⟩ := lies_concat_iff.1 hq
      exact absurd (List.mem_of_getElem? hj) (h.start hu hnext)
  | append_singleton p i ih =>
    obtain ⟨u, ts, hlies, hu, hnext, hi⟩ := lies_concat_iff.1 hp
    rcases q.eq_nil_or_concat' with rfl | ⟨q, j, rfl⟩
    · cases hq
      exact absurd (List.mem_of_getElem? hi) (h.start hu hnext)
    · obtain ⟨u', ts', hlies', hu', hnext', hj⟩ := lies_concat_iff.1 hq
      -- Both come from one state, of which they are one and the same successor.
      obtain rfl :=
        h.back hu hnext (List.mem_of_getElem? hi) hu' hnext' (List.mem_of_getElem? hj) ht
      obtain rfl := Except.ok.inj (hnext.symm.trans hnext')
      obtain rfl := ih hlies hlies' (by rw [hu]; exact Kind.noConfusion)
      obtain ⟨hlt, heq⟩ := List.getElem?_eq_some_iff.1 hi
      obtain ⟨hlt', heq'⟩ := List.getElem?_eq_some_iff.1 hj
      rw [(h.nodup hu hnext).getElem_inj_iff.1 (heq.trans heq'.symm)]

end Ramify.Search
