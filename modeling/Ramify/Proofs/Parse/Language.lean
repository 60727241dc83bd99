import Ramify.Proofs.Flat.Derivation
import Ramify.Proofs.Parse.Harvest
import Ramify.Proofs.Tree.Cost

/-!
# The language of the machine

The machine expands names by candidates only, and takes the empty rule for all
that a nullable name can do without consuming anything. Still it misses
nothing: what it builds can be derived (`Grows.derives`), and what can be derived
by grounded trees it builds as well (`grows_of_derives`), where the lookaheads that
it asks about are those the analysis has foreseen. What it builds is then the tree
that was derived, but for placeholders where nothing was consumed.
-/

namespace Ramify.Parse

open Flat (Derives Rewrites Starts Follows Precedes FollowSets Rule)

variable {m : Machine} {n : String} {rule : Rule} {c : Lookahead} {α : List Symbol}
  {vs : List Sight} {ts : List Tree} {i r : List Char} {memo : Flat.Memo}

/-- The rules a machine expands a name with: its candidates, without the empty
    rule where the lookahead cannot follow the name. -/
theorem Machine.mem_candidates_iff : rule ∈ m.candidates n c ↔
    rule ∈ m.grammar.candidates n c ∧ (m.follow.admits n c ∨ rule ≠ .epsilon) := by
  have hepsilon : rule.isEpsilon ↔ rule = .epsilon := by
    obtain ⟨symbols⟩ := rule
    simp [Rule.isEpsilon, Rule.epsilon]
  rw [Machine.candidates]
  split
  · rename_i hadmits
    simp [hadmits]
  · rename_i hadmits
    rw [List.mem_filter, Bool.not_eq_true', ← Bool.not_eq_true, hepsilon]
    simp [hadmits]

namespace Machine.Grows

/-- What is built by the machine can be derived. -/
theorem derives (hg : m.grammar.Made memo) (h : m.Grows α vs i r) :
    ∃ ts, Derives m.grammar α ts i r ∧ ∀ t ∈ ts, t.Grounded := by
  induction h with
  | nil => exact ⟨[], .nil, fun t ht => absurd ht List.not_mem_nil⟩
  | endOfInput _ ih =>
    obtain ⟨ts, hts, hground⟩ := ih
    exact ⟨_, .endOfInput hts, List.forall_mem_cons.2 ⟨Tree.grounded_leaf _, hground⟩⟩
  | charClass hk _ ih =>
    obtain ⟨ts, hts, hground⟩ := ih
    exact ⟨_, .charClass hk hts, List.forall_mem_cons.2 ⟨Tree.grounded_leaf _, hground⟩⟩
  | terminal _ ih =>
    obtain ⟨ts, hts, hground⟩ := ih
    exact ⟨_, .terminal hts, List.forall_mem_cons.2 ⟨Tree.grounded_leaf _, hground⟩⟩
  | @nonTerminal n rule α us vs i j r hmem hu _ ihu ihv =>
    obtain ⟨us, hus, hgroundu⟩ := ihu
    obtain ⟨ts, hts, hground⟩ := ihv
    rcases hg.mem_candidates_iff.1 (Machine.mem_candidates_iff.1 hmem).1 with
      ⟨d, hd, hrule, -⟩ | ⟨hnull, rfl⟩
    · refine ⟨_, .nonTerminal hrule hus hts, List.forall_mem_cons.2 ⟨?_, hground⟩⟩
      refine Tree.grounded_branch_iff.2 ⟨fun htext hocc => ?_, hgroundu⟩
      -- The end of input cannot be where there is a character left.
      have hij := hus.covers.text_eq_empty_iff.1 htext
      have hne : j ≠ [] := by
        rintro rfl
        rw [hij] at hd
        cases hd
      rcases Tree.occurs_branch.1 hocc with heq | ⟨u, hu, hocc⟩
      · cases heq
      · exact hne (hus.covers.eq_nil_of_occurs hu hocc)
    · -- The empty rule stands for a way to derive nothing.
      cases hu
      obtain ⟨ts', hts', hend⟩ := Derives.of_vanishes (hg.isNullable_iff.1 hnull) i
      refine ⟨ts' ++ ts, hts'.append hts, fun t ht => ?_⟩
      rcases List.mem_append.1 ht with ht | ht
      · exact Tree.grounded_of_not_occurs (hend t ht)
      · exact hground t ht

end Machine.Grows

/-- Wherever a name occurs among symbols, what may come next follows it. -/
def Foreseen (g : Flat.Grammar) (start : Symbol) (α : List Symbol) (r : List Char) : Prop :=
  ∀ before n after, α = before ++ .nonTerminal n :: after → ∀ ts j,
    Derives g after ts j r → (∀ t ∈ ts, t.Grounded) → Follows g start n j.head?

theorem Foreseen.of_cons {g : Flat.Grammar} {start s : Symbol} (h : Foreseen g start (s :: α) r) :
    Foreseen g start α r := by
  rintro before n after rfl
  exact h (s :: before) n after rfl

/-- Behind the start symbol there is nothing that was not foreseen. -/
theorem foreseen_start {g : Flat.Grammar} {start : Symbol} : Foreseen g start [start] r := by
  intro before n after heq ts j _ _
  rcases before with _ | ⟨s, before⟩
  · obtain ⟨rfl, -⟩ := List.cons.inj heq
    exact .start rfl
  · have hnil := (List.cons.inj heq).2
    exact absurd hnil.symm (List.append_ne_nil_of_right_ne_nil _ (List.cons_ne_nil _ _))

/-- What was foreseen for a name was foreseen for its rules. -/
theorem Foreseen.of_rule {g : Flat.Grammar} (hg : g.Made memo) {start : Symbol}
    (hrule : Rewrites g.entries n rule) (h : Follows g start n r.head?) :
    Foreseen g start rule.symbols r := by
  intro before p after heq ts j hts hground
  exact hts.follows hg ⟨rule, hrule, before, heq⟩ hground h

/-- What can be derived by grounded trees is built by the machine, with
    placeholders for branches that consume nothing. -/
theorem grows_of_derives (hg : m.grammar.Made memo) {start : Symbol}
    (hfollow : m.follow = .compute m.grammar start) (h : Derives m.grammar α ts i r)
    (hground : ∀ t ∈ ts, t.Grounded) (hseen : Foreseen m.grammar start α r) :
    ∃ vs, m.Grows α vs i r ∧ pictures vs = Tree.curtailAll ts := by
  induction h with
  | nil => exact ⟨[], .nil, rfl⟩
  | endOfInput _ ih =>
    obtain ⟨vs, hvs, heq⟩ := ih (List.forall_mem_cons.1 hground).2 hseen.of_cons
    exact ⟨_, .endOfInput hvs, congrArg (List.cons _) heq⟩
  | charClass hk _ ih =>
    obtain ⟨vs, hvs, heq⟩ := ih (List.forall_mem_cons.1 hground).2 hseen.of_cons
    refine ⟨_, .charClass hk hvs, ?_⟩
    rw [pictures, picture, toLeaf_charClass, heq]
    rfl
  | terminal _ ih =>
    obtain ⟨vs, hvs, heq⟩ := ih (List.forall_mem_cons.1 hground).2 hseen.of_cons
    exact ⟨_, .terminal hvs, congrArg (List.cons _) heq⟩
  | @nonTerminal n rule α us ts i j r hrule hu ht ihu iht =>
    obtain ⟨hbranch, hrest⟩ := List.forall_mem_cons.1 hground
    obtain ⟨vs, hvs, heq⟩ := iht hrest hseen.of_cons
    obtain ⟨hempty, hbelow⟩ := Tree.grounded_branch_iff.1 hbranch
    have hn : Follows m.grammar start n j.head? := hseen [] n α rfl ts j ht hrest
    have htext : (Tree.branch n rule us).text = "" ↔ i = j := hu.covers.text_eq_empty_iff
    by_cases hij : i = j
    · -- Whatever the name does here, the empty rule does as well.
      have hnull := hu.isNullable hg hrule hij (hempty (htext.2 hij))
      have hmem : Rule.epsilon ∈ m.candidates n i.head? := by
        refine Machine.mem_candidates_iff.2 ⟨hg.mem_candidates_iff.2 (.inr ⟨hnull, rfl⟩), .inl ?_⟩
        rw [hfollow, FollowSets.admits_iff (Flat.Grammar.map_name_entries ▸ hrule.mem_names), hij]
        exact hn
      rw [← hij] at hvs
      refine ⟨_, .nonTerminal hmem .nil hvs, ?_⟩
      rw [pictures, picture, heq, Tree.curtailAll, Tree.curtail, if_pos (htext.2 hij)]
    · cases i with
      | nil =>
        exact absurd hu.covers.eq_nil.symm hij
      | cons c rest =>
        -- A character is consumed, so the FIRST-set of the rule has it.
        have hstarts := hu.starts hg rfl hij
        have hmem : rule ∈ m.candidates n (some c) := by
          refine Machine.mem_candidates_iff.2
            ⟨hg.mem_candidates_iff.2 (.inl ⟨c, rfl, hrule, hstarts⟩), .inr ?_⟩
          rintro rfl
          exact Flat.not_starts_nil hstarts
        obtain ⟨us', hus, hequs⟩ := ihu hbelow (.of_rule hg hrule hn)
        refine ⟨_, .nonTerminal hmem hus hvs, ?_⟩
        rw [pictures, heq, Tree.curtailAll, Tree.curtail, if_neg (mt htext.1 hij), ← hequs]
        cases us' with
        | nil =>
          -- A rule that can begin with a character is not empty.
          rw [List.length_eq_zero_iff.1 hus.length_eq.symm] at hstarts
          exact absurd hstarts Flat.not_starts_nil
        | cons u us' => rw [picture]

/-- The machine builds a tree of the start symbol, up to placeholders. -/
theorem exists_grows_of_derives {start : Symbol} {t : Tree} (hg : m.grammar.Made memo)
    (hfollow : m.follow = .compute m.grammar start) (ht : Derives m.grammar [start] [t] i r)
    (hground : t.Grounded) : ∃ v, m.Grows [start] [v] i r ∧ picture v = t.curtail := by
  obtain ⟨vs, hvs, heq⟩ := grows_of_derives hg hfollow ht (by simpa using hground) foreseen_start
  obtain ⟨v, rfl⟩ := List.length_eq_one_iff.1 hvs.length_eq
  exact ⟨v, hvs, (List.cons.inj heq).1⟩

/-- The machine builds exactly what can be derived by grounded trees. -/
theorem exists_grows_iff {start : Symbol} (hg : m.grammar.Made memo)
    (hfollow : m.follow = .compute m.grammar start) :
    (∃ v, m.Grows [start] [v] i r) ↔ ∃ t, Derives m.grammar [start] [t] i r ∧ t.Grounded := by
  constructor
  · rintro ⟨v, hv⟩
    obtain ⟨ts, hts, hground⟩ := hv.derives hg
    obtain ⟨t, rfl⟩ := List.length_eq_one_iff.1 hts.length_eq
    exact ⟨t, hts, hground t (List.mem_singleton_self t)⟩
  · rintro ⟨t, ht, hground⟩
    obtain ⟨v, hv, -⟩ := exists_grows_of_derives hg hfollow ht hground
    exact ⟨v, hv⟩

end Ramify.Parse
