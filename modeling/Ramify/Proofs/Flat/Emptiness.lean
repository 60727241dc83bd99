import Ramify.Proofs.Flat.Nullable
import Ramify.Proofs.Tree.Text

/-!
# Trees for the empty text

A name is found to be nullable if and only if it has a finite tree of rules whose
nodes are all names (`nullableNames_exact`), however the rules go in circles and
whatever their order. The search for nullable names ends by itself, with names to
which one more round adds nothing.

Such a tree (`Tree.Hollow`) has no leaves, not even for the end of input: a name that
has to match it is not nullable.
-/

namespace Ramify

/-- A tree is one of a symbol, which is a name. -/
def Tree.RootedAt (s : Symbol) (t : Tree) : Prop := ∃ n, s = .nonTerminal n ∧ t.name? = some n

/-- All nodes of a tree are names, and those below a name are the symbols of one of
    its rules. There are no leaves. -/
inductive Tree.Hollow (entries : List Flat.Entry) : Tree → Prop
  | branch {n : String} {rule : Flat.Rule} {ts : List Tree} : Flat.Rewrites entries n rule →
    List.Forall₂ RootedAt rule.symbols ts → (∀ t ∈ ts, Hollow entries t) →
    Hollow entries (.branch n rule ts)

namespace Tree.Hollow

variable {entries : List Flat.Entry} {t : Tree}

theorem vanishes (h : t.Hollow entries) :
    ∀ n, t.name? = some n → Flat.Vanishes entries [.nonTerminal n] := by
  induction h with
  | @branch m rule ts hrule hroots _ ih =>
    intro n hn
    obtain rfl : m = n := Option.some.inj hn
    refine .cons hrule (Flat.vanishes_of_forall fun s hs => ?_) .nil
    obtain ⟨i, hi, rfl⟩ := List.mem_iff_getElem.1 hs
    have hi' : i < ts.length := hroots.length_eq ▸ hi
    obtain ⟨k, hk, hname⟩ := hroots.get hi hi'
    exact ⟨k, hk, ih _ (List.getElem_mem hi') k hname⟩

end Tree.Hollow

namespace Flat

variable {entries : List Entry} {n : String} {α : List Symbol}

/-- Symbols that vanish have trees of names. -/
theorem Vanishes.exists_hollow (h : Vanishes entries α) :
    ∃ ts, List.Forall₂ Tree.RootedAt α ts ∧ ∀ t ∈ ts, t.Hollow entries := by
  induction h with
  | nil => exact ⟨[], .nil, fun t ht => absurd ht List.not_mem_nil⟩
  | @cons n rule α hrule _ _ ih ih' =>
    obtain ⟨us, hus, hhollow⟩ := ih
    obtain ⟨ts, hts, hhollow'⟩ := ih'
    refine ⟨.branch n rule us :: ts, .cons ⟨n, rfl, rfl⟩ hts, ?_⟩
    exact List.forall_mem_cons.2 ⟨.branch hrule hus hhollow, hhollow'⟩

/-- A name vanishes if and only if it has a tree of names. -/
theorem vanishes_iff_exists_hollow :
    Vanishes entries [.nonTerminal n] ↔ ∃ t : Tree, t.name? = some n ∧ t.Hollow entries := by
  constructor
  · intro h
    obtain ⟨ts, hroots, hhollow⟩ := h.exists_hollow
    cases hroots with
    | @cons _ t _ ts hroot _ =>
      obtain ⟨m, hm, hname⟩ := hroot
      cases hm
      exact ⟨t, hname, hhollow t List.mem_cons_self⟩
  · rintro ⟨t, hname, hhollow⟩
    exact hhollow.vanishes n hname

/-- The search for nullable names has come to its end: another round adds none. What
    it has found are the names that have a tree of names. They are the nullable
    names of the grammar, if the analysis accepts it. -/
theorem nullableNames_exact (entries : List Entry) :
    let names := entries.map (·.name)
    saturateRound names (yieldsNullable entries) names (nullableNames entries) =
        nullableNames entries ∧
      (∀ n, n ∈ nullableNames entries ↔ ∃ t : Tree, t.name? = some n ∧ t.Hollow entries) ∧
      ∀ g, Grammar.analyse entries = .ok g → ∀ n, g.isNullable n ↔ n ∈ nullableNames entries := by
  refine ⟨saturateRound_saturate, fun n => ?_, fun g hg n => ?_⟩
  · exact mem_nullableNames_iff.trans vanishes_iff_exists_hollow
  · obtain ⟨memo, hmade⟩ := Grammar.Analysed.made ⟨entries, hg⟩
    rw [hmade.isNullable_iff_mem, Grammar.entries_of_analyse hg]

/-- `S` needs `A`, and `A` needs `B`, each defined behind the other. `E` matches the end
    of input. -/
def backwards : List Entry :=
  [⟨"S", [⟨[.nonTerminal "A", .nonTerminal "B"]⟩], false⟩,
    ⟨"A", [⟨[.terminal ⟨'a', []⟩]⟩, ⟨[.nonTerminal "B", .nonTerminal "B"]⟩], false⟩,
    ⟨"B", [⟨[]⟩, ⟨[.nonTerminal "E"]⟩], false⟩, ⟨"E", [⟨[.endOfInput]⟩], false⟩]

theorem nullableNames_exact_backwards : ∃ g, Grammar.analyse backwards = .ok g ∧
    g.isNullable "S" ∧ (∃ t : Tree, t.name? = some "S" ∧ t.Hollow backwards) ∧
    ¬g.isNullable "E" ∧ ¬∃ t : Tree, t.name? = some "E" ∧ t.Hollow backwards := by
  obtain ⟨g, hg⟩ : ∃ g, Grammar.analyse backwards = .ok g := ⟨_, rfl⟩
  obtain ⟨-, htrees, hnullable⟩ := nullableNames_exact backwards
  have hmem : "S" ∈ nullableNames backwards := by decide
  have hnot : "E" ∉ nullableNames backwards := by decide
  refine ⟨g, hg, (hnullable g hg "S").2 hmem, (htrees "S").1 hmem, ?_, ?_⟩
  · rwa [hnullable g hg]
  · rwa [← htrees]

end Flat

end Ramify
