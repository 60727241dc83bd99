import Mathlib.Data.List.Basic
import Mathlib.Logic.Relation
import Ramify.Flat.Follow
import Ramify.Proofs.Lookahead

/-!
# Walking against the flows

The FOLLOW-set of a name is gathered on a walk that keeps the names it has met apart from
those it still has to look at. However the flows between the names go round in circles, it
meets the names that can be reached against them (`Feeds`), and no others:

* `FollowSets.Walk.step_eq_some`: what one turn does;
* `FollowSets.Walk.Tracks`: what is known of a walk at any time, kept by each turn
  (`Tracks.step`) and so by all of them (`Tracks.run`);
* `FollowSets.Walk.load_step`: with each turn there is less left to do, so that the turns
  do not run out (`pending_run`);
* `FollowSets.Walk.Tracks.mem_seen_iff`: once nothing is left, the names that were met are
  those whose FOLLOW-set flows into that of the name;
* `FollowSets.admits_gather`: so the walk gathers what follows any of these directly.
-/

namespace Ramify.Flat.FollowSets

variable {directs : List (String × LookaheadSet)} {pairs : List (String × String)}
  {name m n p : String} {w w' : Walk} {c : Lookahead} {turns : Nat}

theorem mem_inherits : p ∈ inherits pairs n ↔ (p, n) ∈ pairs := by
  simp only [inherits, List.mem_filterMap, Prod.exists, Option.ite_none_right_eq_some, beq_iff_eq,
    Option.some.injEq]
  exact ⟨fun ⟨_, _, h, htarget, hsource⟩ => hsource ▸ htarget ▸ h, fun h => ⟨p, n, h, rfl, rfl⟩⟩

/-- The FOLLOW-set of a name is fed by that of another one: it is the same name, or there
    is a way from the first to the second against the flows. -/
def Feeds (pairs : List (String × String)) : String → String → Prop :=
  Relation.ReflTransGen fun n p => (p, n) ∈ pairs

namespace Walk

/-- The names that are known to a walk: those met, and those to be looked at. -/
def Knows (w : Walk) (n : String) : Prop := n ∈ w.seen ∨ n ∈ w.pending

/-- One turn passes over a name that has been met, or meets a name. -/
theorem step_eq_some (h : w.step directs pairs = some w') :
    ∃ n rest, w.pending = n :: rest ∧
      ((n ∈ w.seen ∧ w' = { w with pending := rest }) ∨
        (n ∉ w.seen ∧ w'.seen = n :: w.seen ∧
          w'.pending = (inherits pairs n).reverse ++ rest ∧
          ∀ c, w'.set.admits c ↔
            w.set.admits c ∨ ∃ own, directs.lookup n = some own ∧ own.admits c)) := by
  rw [step] at h
  split at h
  · cases h
  · rename_i n rest hpending
    refine ⟨n, rest, hpending, ?_⟩
    split at h
    · rename_i hseen
      exact .inl ⟨List.contains_iff_mem.1 hseen, (Option.some.inj h).symm⟩
    · rename_i hnew
      obtain rfl := Option.some.inj h
      refine .inr ⟨fun hseen => hnew (List.contains_iff_mem.2 hseen), rfl, rfl, fun c => ?_⟩
      cases directs.lookup n with
      | none => simp
      | some own => simp [LookaheadSet.admits_add]

theorem step_eq_none : w.step directs pairs = none ↔ w.pending = [] := by
  rw [step]
  split
  · exact iff_of_true rfl ‹_›
  · rename_i hpending
    refine iff_of_false (fun h => ?_) fun h => by simp [hpending] at h
    split at h <;> cases h

/-! ### What is known of a walk -/

/-- What is known of a walk that began at `name`. -/
structure Tracks (directs : List (String × LookaheadSet)) (pairs : List (String × String))
    (name : String) (w : Walk) : Prop where
  /-- The walk knows where it began. -/
  start : w.Knows name
  /-- It knows only names that feed this one. -/
  feeds : ∀ n, w.Knows n → Feeds pairs name n
  /-- It knows whatever flows into a name it has met. -/
  closed : ∀ n ∈ w.seen, ∀ p, (p, n) ∈ pairs → w.Knows p
  /-- It has gathered what follows the names it has met. -/
  admits_iff : ∀ c, w.set.admits c ↔
    ∃ n ∈ w.seen, ∃ own, directs.lookup n = some own ∧ own.admits c

theorem tracks_begin (directs : List (String × LookaheadSet)) (pairs : List (String × String))
    (name : String) : Tracks directs pairs name (begin name) where
  start := .inr List.mem_cons_self
  feeds n hn := by
    obtain rfl : n = name := by simpa [begin, Knows] using hn
    exact .refl
  closed n hn := absurd hn List.not_mem_nil
  admits_iff c := by simp [begin, LookaheadSet.admits_empty]

/-- A turn keeps what is known of a walk. -/
theorem Tracks.step (h : Tracks directs pairs name w) (hstep : w.step directs pairs = some w') :
    Tracks directs pairs name w' := by
  obtain ⟨n, rest, hpending, ⟨hseen, rfl⟩ | ⟨-, hseen, hrest, hset⟩⟩ := step_eq_some hstep
  · -- The name is known all the same.
    have hknows : ∀ m, ({ w with pending := rest } : Walk).Knows m ↔ w.Knows m := by
      intro m
      simp only [Knows, hpending, List.mem_cons]
      refine ⟨Or.imp_right .inr, ?_⟩
      rintro (hm | rfl | hm)
      exacts [.inl hm, .inl hseen, .inr hm]
    exact ⟨(hknows _).2 h.start, fun m hm => h.feeds m ((hknows m).1 hm),
      fun m hm p hp => (hknows p).2 (h.closed m hm p hp), h.admits_iff⟩
  · have hknows : ∀ m, w'.Knows m ↔ w.Knows m ∨ (m, n) ∈ pairs := by
      intro m
      simp only [Knows, hseen, hrest, hpending, List.mem_cons, List.mem_append, List.mem_reverse,
        mem_inherits]
      tauto
    have hn : Feeds pairs name n := h.feeds n (.inr (hpending ▸ List.mem_cons_self))
    refine ⟨(hknows _).2 (.inl h.start), fun m hm => ?_, fun m hm p hp => ?_, fun c => ?_⟩
    · rcases (hknows m).1 hm with hm | hm
      · exact h.feeds m hm
      · exact hn.tail hm
    · rw [hseen] at hm
      rcases List.mem_cons.1 hm with rfl | hm
      · exact (hknows p).2 (.inr hp)
      · exact (hknows p).2 (.inl (h.closed m hm p hp))
    · rw [hset, h.admits_iff, hseen]
      simp only [List.mem_cons, exists_eq_or_imp]
      exact or_comm

/-- So do all turns. -/
theorem Tracks.run (h : Tracks directs pairs name w) (turns : Nat) :
    Tracks directs pairs name (w.run directs pairs turns) := by
  induction turns generalizing w with
  | zero => exact h
  | succ turns ih =>
    rw [Walk.run]
    split
    · exact h
    · rename_i hstep
      exact ih (h.step hstep)

/-- Once nothing is left to be looked at, the walk has met the names that feed the one it
    began at, and no others. -/
theorem Tracks.mem_seen_iff (h : Tracks directs pairs name w) (hdone : w.pending = []) :
    n ∈ w.seen ↔ Feeds pairs name n := by
  have hknows : ∀ m, w.Knows m ↔ m ∈ w.seen := by simp [Knows, hdone]
  refine ⟨fun hn => h.feeds n (.inl hn), fun hn => ?_⟩
  induction hn with
  | refl => exact (hknows _).1 h.start
  | tail _ hflow ih => exact (hknows _).1 (h.closed _ ih _ hflow)

/-! ### The end of a walk -/

/-- What is left to do: the names to be looked at, and the flows into names that have not
    been met. -/
def load (pairs : List (String × String)) (w : Walk) : Nat :=
  w.pending.length + pairs.countP fun pair => pair.2 ∉ w.seen

theorem length_inherits : (inherits pairs n).length = pairs.countP fun pair => pair.2 = n := by
  rw [inherits, List.length_filterMap_eq_countP]
  refine List.countP_congr fun pair _ => ?_
  simp

/-- The flows into a name are the ones that no longer lead to a name yet to be met. -/
theorem countP_flows (pairs : List (String × String)) {seen : List String} (hn : n ∉ seen) :
    pairs.countP (fun pair => pair.2 ∉ n :: seen) + (inherits pairs n).length =
      pairs.countP fun pair => pair.2 ∉ seen := by
  have hsplit := List.countP_eq_countP_filter_add pairs (fun pair => decide (pair.2 ∉ seen))
    fun pair => decide (pair.2 = n)
  simp only [List.countP_filter] at hsplit
  rw [length_inherits, hsplit, Nat.add_comm]
  refine congrArg₂ (· + ·) (List.countP_congr fun pair _ => ?_) (List.countP_congr fun pair _ => ?_)
  · simp only [decide_eq_true_eq, Bool.and_eq_true]
    exact ⟨fun heq => ⟨heq ▸ hn, heq⟩, And.right⟩
  · simp [and_comm]

/-- With each turn there is less left to do. -/
theorem load_step (h : w.step directs pairs = some w') : w'.load pairs + 1 = w.load pairs := by
  obtain ⟨n, rest, hpending, ⟨-, rfl⟩ | ⟨hnew, hseen, hrest, -⟩⟩ := step_eq_some h
  · simp only [load, hpending, List.length_cons]
    omega
  · have hflows := countP_flows pairs hnew
    simp only [load, hpending, hseen, hrest, List.length_cons, List.length_append,
      List.length_reverse]
    omega

/-- With turns enough a walk comes to its end. -/
theorem pending_run (hturns : w.load pairs ≤ turns) :
    (w.run directs pairs turns).pending = [] := by
  induction turns generalizing w with
  | zero =>
    refine List.eq_nil_of_length_eq_zero ?_
    rw [load] at hturns
    exact Nat.le_zero.1 (Nat.le_trans (Nat.le_add_right _ _) hturns)
  | succ turns ih =>
    rw [run]
    split
    · exact step_eq_none.1 ‹_›
    · rename_i hstep
      have hload := load_step hstep
      exact ih (by omega)

end Walk

/-- The walk gathers what follows directly any of the names that feed the one it begins
    at. -/
theorem admits_gather : (gather directs pairs name).admits c ↔
    ∃ n, Feeds pairs name n ∧ ∃ own, directs.lookup n = some own ∧ own.admits c := by
  have htracks := (Walk.tracks_begin directs pairs name).run (pairs.length + 1)
  have hload : (Walk.begin name).load pairs ≤ pairs.length + 1 := by
    simp [Walk.load, Walk.begin, Nat.add_comm]
  rw [gather, htracks.admits_iff]
  simp only [htracks.mem_seen_iff (Walk.pending_run hload)]

end Ramify.Flat.FollowSets
