import Ramify.Proofs.Flat.First
import Ramify.Proofs.Flat.Walk

/-!
# What can follow a name

The FOLLOW-sets of the names of a grammar are the least ones that hold what a
grammar asks of them (`Follows`): anything follows the start symbol; what the
rest of a rule can begin with follows a name in it; and where the rest is
nullable, what follows the name whose rule it is follows that name as well
(`FollowSets.admits_iff`).
-/

namespace Ramify.Flat

open FollowSets (Occurrence occurrences sequenceFirst direct flowPairs compute)

variable {g : Grammar} {start s : Symbol} {n m p : String} {α β : List Symbol} {c : Lookahead}

/-- What comes after a name can begin with a lookahead, the end of input
    included. -/
inductive Heads (g : Grammar) : List Symbol → Lookahead → Prop
  | terminal {t : Terminal} {α : List Symbol} : Heads g (.terminal t :: α) (some t.first)
  | charClass {k : CharClass} {c : Lookahead} {α : List Symbol} : k.admits c →
    Heads g (.charClass k :: α) c
  | endOfInput {α : List Symbol} : Heads g (.endOfInput :: α) none
  | name {n : String} {set : LookaheadSet} {c : Lookahead} {α : List Symbol} :
    g.first? n = some set → set.admits c → Heads g (.nonTerminal n :: α) c
  | behind {n : String} {c : Lookahead} {α : List Symbol} : g.isNullable n → Heads g α c →
    Heads g (.nonTerminal n :: α) c

/-- All symbols are nullable names. -/
def AllNullable (g : Grammar) (α : List Symbol) : Prop :=
  ∀ s ∈ α, ∃ n, s = .nonTerminal n ∧ g.isNullable n

/-- A name occurs in a rule of another one, in front of some symbols. -/
def Precedes (g : Grammar) (p n : String) (after : List Symbol) : Prop :=
  ∃ rule, Rewrites g.entries p rule ∧ ∃ before, rule.symbols = before ++ .nonTerminal n :: after

/-- A lookahead can follow a name. -/
inductive Follows (g : Grammar) (start : Symbol) : String → Lookahead → Prop
  | start {n : String} {c : Lookahead} : start = .nonTerminal n → Follows g start n c
  | direct {p n : String} {after : List Symbol} {c : Lookahead} : Precedes g p n after →
    Heads g after c → Follows g start n c
  | flow {p n : String} {after : List Symbol} {c : Lookahead} : Precedes g p n after →
    AllNullable g after → Follows g start p c → Follows g start n c

theorem Precedes.mem_names (h : Precedes g p n α) : p ∈ g.names := by
  obtain ⟨rule, hrule, -⟩ := h
  rw [← Grammar.map_name_entries]
  exact hrule.mem_names

theorem allNullable_nil : AllNullable g [] := fun _ hs => absurd hs List.not_mem_nil

theorem allNullable_cons : AllNullable g (s :: α) ↔
    (∃ n, s = .nonTerminal n ∧ g.isNullable n) ∧ AllNullable g α :=
  List.forall_mem_cons

theorem not_allNullable_cons (hs : s.name? = none) : ¬AllNullable g (s :: α) := by
  intro h
  obtain ⟨⟨n, rfl, -⟩, -⟩ := allNullable_cons.1 h
  cases hs

theorem heads_nonTerminal : Heads g (.nonTerminal n :: α) c ↔
    (∃ set, g.first? n = some set ∧ set.admits c) ∨ g.isNullable n ∧ Heads g α c := by
  constructor
  · intro h
    cases h with
    | name hset hc => exact .inl ⟨_, hset, hc⟩
    | behind hn h => exact .inr ⟨hn, h⟩
  · rintro (⟨set, hset, hc⟩ | ⟨hn, h⟩)
    · exact .name hset hc
    · exact .behind hn h

namespace FollowSets

/-! ### The rest of a rule -/

/-- What a sequence begins with is gathered, and whether it is nullable. -/
theorem sequenceFirst_spec {acc : LookaheadSet} :
    (∀ c, (sequenceFirst g α acc).1.admits c ↔ acc.admits c ∨ Heads g α c) ∧
      ((sequenceFirst g α acc).2 ↔ AllNullable g α) := by
  induction α generalizing acc with
  | nil =>
    refine ⟨fun c => (or_iff_left fun h => nomatch h).symm, ?_⟩
    exact iff_of_true rfl allNullable_nil
  | cons s α ih =>
    cases s with
    | terminal t =>
      refine ⟨fun c => ?_, iff_of_false Bool.false_ne_true (not_allNullable_cons rfl)⟩
      rw [sequenceFirst, LookaheadSet.admits_add, LookaheadSet.admits_ofTerminal]
      refine or_congr_right ⟨fun h => h ▸ .terminal, fun h => ?_⟩
      cases h
      rfl
    | charClass k =>
      refine ⟨fun c => ?_, iff_of_false Bool.false_ne_true (not_allNullable_cons rfl)⟩
      rw [sequenceFirst, LookaheadSet.admits_add, LookaheadSet.admits_ofClass]
      refine or_congr_right ⟨.charClass, fun h => ?_⟩
      cases h with
      | charClass h => exact h
    | endOfInput =>
      refine ⟨fun c => ?_, iff_of_false Bool.false_ne_true (not_allNullable_cons rfl)⟩
      rw [sequenceFirst, LookaheadSet.admits_add, LookaheadSet.admits_endOfInput]
      refine or_congr_right ⟨fun h => h ▸ .endOfInput, fun h => ?_⟩
      cases h
      rfl
    | nonTerminal n =>
      obtain ⟨acc', heq, hacc⟩ : ∃ acc', sequenceFirst g (.nonTerminal n :: α) acc =
            (if g.isNullable n then sequenceFirst g α acc' else (acc', false)) ∧
          ∀ c, acc'.admits c ↔ acc.admits c ∨ ∃ set, g.first? n = some set ∧ set.admits c := by
        refine ⟨_, rfl, fun c => ?_⟩
        cases g.first? n with
        | none => simp
        | some set => simp [LookaheadSet.admits_add]
      rw [heq]
      split
      · rename_i hn
        refine ⟨fun c => ?_, ?_⟩
        · simp only [ih.1, hacc, heads_nonTerminal, hn, true_and, or_assoc]
        · rw [ih.2, allNullable_cons]
          exact (and_iff_right ⟨n, rfl, hn⟩).symm
      · rename_i hn
        refine ⟨fun c => ?_, iff_of_false Bool.false_ne_true fun h => ?_⟩
        · simp only [hacc, heads_nonTerminal, hn, false_and, or_false, Bool.false_eq_true]
        · obtain ⟨⟨m, hm, hnull⟩, -⟩ := allNullable_cons.1 h
          cases hm
          exact hn hnull

/-! ### Occurrences -/

theorem mem_occurrencesIn {owner : String} {o : Occurrence} : o ∈ occurrencesIn owner α ↔
    o.owner = owner ∧ ∃ before, α = before ++ .nonTerminal o.target :: o.after := by
  induction α with
  | nil => simp [occurrencesIn]
  | cons s α ih =>
    have hcons : (∃ before, s :: α = before ++ .nonTerminal o.target :: o.after) ↔
        (s = .nonTerminal o.target ∧ α = o.after) ∨
          ∃ before, α = before ++ .nonTerminal o.target :: o.after := by
      constructor
      · rintro ⟨_ | ⟨s', before⟩, h⟩
        · exact .inl (List.cons.inj h)
        · obtain ⟨rfl, rfl⟩ := List.cons.inj h
          exact .inr ⟨before, rfl⟩
      · rintro (⟨rfl, rfl⟩ | ⟨before, rfl⟩)
        · exact ⟨[], rfl⟩
        · exact ⟨s :: before, rfl⟩
    rw [hcons]
    cases s with
    | nonTerminal n =>
      obtain ⟨p, m, after⟩ := o
      simp only [occurrencesIn, List.mem_cons, ih, Occurrence.mk.injEq, Symbol.nonTerminal.injEq]
      constructor
      · rintro (⟨rfl, rfl, rfl⟩ | ⟨rfl, h⟩)
        · exact ⟨rfl, .inl ⟨rfl, rfl⟩⟩
        · exact ⟨rfl, .inr h⟩
      · rintro ⟨rfl, ⟨rfl, rfl⟩ | h⟩
        · exact .inl ⟨rfl, rfl, rfl⟩
        · exact .inr ⟨rfl, h⟩
    | terminal t => simp [occurrencesIn, ih]
    | charClass k => simp [occurrencesIn, ih]
    | endOfInput => simp [occurrencesIn, ih]

theorem mem_occurrences {o : Occurrence} :
    o ∈ occurrences g ↔ Precedes g o.owner o.target o.after := by
  simp only [occurrences, List.mem_flatMap, mem_occurrencesIn, Precedes, Rewrites,
    Grammar.entries, List.mem_map]
  constructor
  · rintro ⟨q, hq, rule, hrule, howner, before, hbefore⟩
    exact ⟨rule, ⟨q.toEntry, ⟨q, hq, rfl⟩, howner.symm, hrule⟩, before, hbefore⟩
  · rintro ⟨rule, ⟨e, ⟨q, hq, rfl⟩, hname, hrule⟩, before, hbefore⟩
    exact ⟨q, hq, rule, hrule, hname.symm, before, hbefore⟩

/-- What follows a name directly. -/
theorem admits_direct : (direct g start n).admits c ↔
    start = .nonTerminal n ∨ ∃ p after, Precedes g p n after ∧ Heads g after c := by
  have hstart : (if start.name? = some n then LookaheadSet.anything else .empty).admits c ↔
      start = .nonTerminal n := by
    cases start <;> simp [Symbol.name?]
    split <;> simp_all
  rw [direct, LookaheadSet.admits_foldl fun o : Occurrence => (o.first g).1, hstart]
  refine or_congr_right ⟨?_, ?_⟩
  · rintro ⟨o, ho, hc⟩
    obtain ⟨hmem, hname⟩ := List.mem_filter.1 ho
    obtain rfl : o.target = n := beq_iff_eq.1 hname
    refine ⟨o.owner, o.after, mem_occurrences.1 hmem, ?_⟩
    rw [Occurrence.first, sequenceFirst_spec.1] at hc
    simpa using hc
  · rintro ⟨p, after, hoccurs, hc⟩
    refine ⟨⟨p, n, after⟩, List.mem_filter.2 ⟨mem_occurrences.2 hoccurs, by simp⟩, ?_⟩
    rw [Occurrence.first, sequenceFirst_spec.1]
    exact .inr hc

theorem mem_flowPairs : (p, n) ∈ flowPairs g ↔
    n ≠ p ∧ ∃ after, Precedes g p n after ∧ AllNullable g after := by
  simp only [flowPairs, List.mem_filterMap]
  constructor
  · rintro ⟨o, ho, h⟩
    split at h
    · rename_i hcond
      cases h
      obtain ⟨hnull, hne⟩ := Bool.and_eq_true_iff.1 hcond
      exact ⟨by simpa using hne, o.after, mem_occurrences.1 ho, sequenceFirst_spec.2.1 hnull⟩
    · cases h
  · rintro ⟨hne, after, hoccurs, hnull⟩
    refine ⟨⟨p, n, after⟩, mem_occurrences.2 hoccurs, if_pos ?_⟩
    exact Bool.and_eq_true_iff.2 ⟨sequenceFirst_spec.2.2 hnull, by simpa using hne⟩

/-! ### Flows -/

theorem lookup_map {α : Type} {f : String → α} {ns : List String} (hn : n ∈ ns) :
    (ns.map fun n => (n, f n)).lookup n = some (f n) := by
  induction ns with
  | nil => exact absurd hn List.not_mem_nil
  | cons m ns ih =>
    rw [List.map_cons, List.lookup_cons]
    cases h : n == m
    · have hne : n ≠ m := by simpa using h
      exact ih ((List.mem_cons.1 hn).resolve_left hne)
    · rw [beq_iff_eq.1 h]

/-- Only names of the grammar feed one of them. -/
theorem Feeds.mem_names (h : Feeds (flowPairs g) n m) (hn : n ∈ g.names) : m ∈ g.names := by
  induction h with
  | refl => exact hn
  | tail _ hflow _ =>
    obtain ⟨-, after, hoccurs, -⟩ := mem_flowPairs.1 hflow
    exact hoccurs.mem_names

/-- The FOLLOW-set of a name holds what follows directly a name that feeds it. -/
theorem admits_compute (hn : n ∈ g.names) : (compute g start).admits n c ↔
    ∃ m, Feeds (flowPairs g) n m ∧ (direct g start m).admits c := by
  rw [FollowSets.admits, FollowSets.find?, compute, lookup_map hn, Option.all_some, admits_gather]
  refine exists_congr fun m => and_congr_right fun hm => ?_
  simp [lookup_map (hm.mem_names hn)]

/-- What follows a name follows the names it feeds. -/
theorem Feeds.follows (h : Feeds (flowPairs g) n m) (hm : Follows g start m c) :
    Follows g start n c := by
  induction h with
  | refl => exact hm
  | tail _ hflow ih =>
    obtain ⟨-, after, hoccurs, hnull⟩ := mem_flowPairs.1 hflow
    exact ih (.flow hoccurs hnull hm)

/-- The FOLLOW-sets hold what follows a name, and nothing else. -/
theorem admits_iff (hn : n ∈ g.names) :
    (compute g start).admits n c ↔ Follows g start n c := by
  rw [admits_compute hn]
  constructor
  · rintro ⟨m, hm, hdirect⟩
    refine hm.follows ?_
    rcases admits_direct.1 hdirect with h | ⟨p, after, hoccurs, hc⟩
    · exact .start h
    · exact .direct hoccurs hc
  · intro h
    induction h with
    | @start n _ h => exact ⟨n, .refl, admits_direct.2 (.inl h)⟩
    | @direct _ n _ _ hoccurs hc => exact ⟨n, .refl, admits_direct.2 (.inr ⟨_, _, hoccurs, hc⟩)⟩
    | @flow p n after c hoccurs hnull _ ih =>
      obtain ⟨m, hm, hdirect⟩ := ih hoccurs.mem_names
      -- What feeds the owner of the rule feeds the name, if it is not the owner itself.
      by_cases heq : n = p
      · exact ⟨m, heq ▸ hm, hdirect⟩
      · exact ⟨m, .head (mem_flowPairs.2 ⟨heq, after, hoccurs, hnull⟩) hm, hdirect⟩

end FollowSets

end Ramify.Flat
