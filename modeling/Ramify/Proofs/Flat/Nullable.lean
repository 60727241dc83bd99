import Mathlib.Data.List.Nodup
import Ramify.Ebnf.Lowering
import Ramify.Proofs.Saturation

/-!
# What an analysed grammar is

A grammar that was analysed holds the entries it was made from (`Made`), and
what the analysis found out about them. This module says what that is for
nullable names: they are those from which the empty text can be derived by names
alone (`Vanishes`). The end of input consumes nothing either, but it is not a
name.
-/

namespace Ramify.Flat

/-- A name may be expanded with a rule. -/
def Rewrites (entries : List Entry) (n : String) (rule : Rule) : Prop :=
  ∃ e ∈ entries, e.name = n ∧ rule ∈ e.rules

/-- Symbols derive the empty text by names alone. -/
inductive Vanishes (entries : List Entry) : List Symbol → Prop
  | nil : Vanishes entries []
  | cons {n : String} {rule : Rule} {α : List Symbol} : Rewrites entries n rule →
    Vanishes entries rule.symbols → Vanishes entries α → Vanishes entries (.nonTerminal n :: α)

section Entries

variable {entries : List Entry} {n : String} {α : List Symbol} {rule : Rule}

theorem Rewrites.mem_names (h : Rewrites entries n rule) : n ∈ entries.map (·.name) := by
  obtain ⟨e, he, rfl, -⟩ := h
  exact List.mem_map.2 ⟨e, he, rfl⟩

/-- Where no name comes twice, the rules of a name are those of its entry. -/
theorem rewrites_name_iff {e : Entry} (hnodup : (entries.map (·.name)).Nodup) (he : e ∈ entries) :
    Rewrites entries e.name rule ↔ rule ∈ e.rules := by
  constructor
  · rintro ⟨e', he', hname, hrule⟩
    rwa [List.inj_on_of_nodup_map hnodup he' he hname] at hrule
  · exact fun hrule => ⟨e, he, rfl, hrule⟩

theorem nullableSymbol_iff {known : List String} {s : Symbol} :
    nullableSymbol known s ↔ ∃ n, s = .nonTerminal n ∧ n ∈ known := by
  cases s <;> simp [nullableSymbol]

theorem yieldsNullable_iff {known : List String} : yieldsNullable entries known n ↔
    ∃ rule, Rewrites entries n rule ∧ ∀ s ∈ rule.symbols, nullableSymbol known s := by
  simp only [yieldsNullable, Rewrites, List.any_eq_true, Bool.and_eq_true, beq_iff_eq,
    List.all_eq_true]
  constructor
  · rintro ⟨e, he, hname, rule, hrule, hall⟩
    exact ⟨rule, ⟨e, he, hname, hrule⟩, hall⟩
  · rintro ⟨rule, ⟨e, he, hname, hrule⟩, hall⟩
    exact ⟨e, he, hname, rule, hrule, hall⟩

/-- Symbols vanish if they are names that do. -/
theorem vanishes_of_forall (h : ∀ s ∈ α, ∃ n, s = .nonTerminal n ∧
    Vanishes entries [.nonTerminal n]) : Vanishes entries α := by
  induction α with
  | nil => exact .nil
  | cons s α ih =>
    obtain ⟨⟨n, rfl, hn⟩, hα⟩ := List.forall_mem_cons.1 h
    cases hn with
    | cons hrule hvanish => exact .cons hrule hvanish (ih hα)

/-- Symbols that vanish are names that do. -/
theorem Vanishes.of_mem {s : Symbol} (h : Vanishes entries α) (hs : s ∈ α) :
    ∃ n, s = .nonTerminal n ∧ Vanishes entries [.nonTerminal n] := by
  induction h with
  | nil => exact absurd hs List.not_mem_nil
  | cons hrule hvanish _ _ ih =>
    rcases List.mem_cons.1 hs with rfl | hs
    · exact ⟨_, rfl, .cons hrule hvanish .nil⟩
    · exact ih hs

theorem Vanishes.append {β : List Symbol} (h : Vanishes entries α) (h' : Vanishes entries β) :
    Vanishes entries (α ++ β) := by
  induction h with
  | nil => exact h'
  | cons hrule hvanish _ _ ih => exact .cons hrule hvanish ih

/-- The names that are found are those that vanish. -/
theorem mem_nullableNames_iff : n ∈ nullableNames entries ↔ Vanishes entries [.nonTerminal n] := by
  constructor
  · refine saturate_least (P := fun n => Vanishes entries [.nonTerminal n])
      (fun known n _ hknown hyields => ?_) n
    obtain ⟨rule, hrule, hall⟩ := yieldsNullable_iff.1 hyields
    refine .cons hrule (vanishes_of_forall fun s hs => ?_) .nil
    obtain ⟨m, rfl, hm⟩ := nullableSymbol_iff.1 (hall s hs)
    exact ⟨m, rfl, hknown m hm⟩
  · have hall : ∀ α, Vanishes entries α → ∀ s ∈ α, nullableSymbol (nullableNames entries) s := by
      intro α hα
      induction hα with
      | nil => exact fun s hs => absurd hs List.not_mem_nil
      | @cons n rule α hrule _ _ ih ih' =>
        refine List.forall_mem_cons.2 ⟨nullableSymbol_iff.2 ⟨n, rfl, ?_⟩, ih'⟩
        exact saturate_closed hrule.mem_names (yieldsNullable_iff.2 ⟨rule, hrule, ih⟩)
    intro hn
    obtain ⟨m, hm, hmem⟩ := nullableSymbol_iff.1 (hall _ hn _ List.mem_cons_self)
    cases hm
    exact hmem

end Entries

namespace Grammar

variable {g : Grammar} {memo : Memo} {n m : String} {rule : Rule}

/-- The names of a grammar with their rules. -/
def entries (g : Grammar) : List Entry := g.productions.map (·.toEntry)

/-- A grammar is what the analysis makes of its entries, where it found the
    FIRST-sets of a memo. -/
structure Made (g : Grammar) (memo : Memo) : Prop where
  productions : g.productions = g.entries.map (produce (nullableNames g.entries).contains memo)
  firsts : firstSets g.entries (nullableNames g.entries).contains = .ok memo
  defined : undefined? g.entries = none

/-- A grammar that was analysed. -/
def Analysed (g : Grammar) : Prop := ∃ entries, analyse entries = .ok g

/-- Lowered grammars are analysed. -/
theorem Analysed.of_flatten {e : Ebnf.Grammar} (h : e.flatten = .ok g) : g.Analysed := by
  rw [Ebnf.Grammar.flatten] at h
  split at h
  · cases h
  · exact ⟨_, h⟩

theorem analyse_eq_ok {es : List Entry} (h : analyse es = .ok g) :
    ∃ memo, g.productions = es.map (produce (nullableNames es).contains memo) ∧
      firstSets es (nullableNames es).contains = .ok memo ∧ undefined? es = none := by
  rw [analyse] at h
  split at h
  · cases h
  · split at h
    · cases h
    · rename_i hundef
      dsimp only at h
      split at h
      · cases h
      · rename_i memo hfirsts
        cases h
        exact ⟨memo, rfl, hfirsts, hundef⟩

/-- An analysed grammar holds the entries it was made from. -/
theorem entries_of_analyse {es : List Entry} (h : analyse es = .ok g) : g.entries = es := by
  obtain ⟨memo, hproductions, -, -⟩ := analyse_eq_ok h
  rw [entries, hproductions, List.map_map]
  exact List.map_id es

theorem entries_of_flatten {e : Ebnf.Grammar} (h : e.flatten = .ok g) : g.entries = e.lowered := by
  rw [Ebnf.Grammar.flatten] at h
  split at h
  · cases h
  · exact entries_of_analyse h

theorem Analysed.made (hg : g.Analysed) : ∃ memo, g.Made memo := by
  obtain ⟨es, h⟩ := hg
  obtain ⟨memo, hproductions, hfirsts, hundef⟩ := analyse_eq_ok h
  obtain rfl := entries_of_analyse h
  exact ⟨memo, hproductions, hfirsts, hundef⟩

theorem rewrites_iff : Rewrites g.entries n rule ↔ ∃ p, g.find? n = some p ∧ rule ∈ p.rules := by
  constructor
  · rintro ⟨e, he, hname, hrule⟩
    obtain ⟨p, hp, rfl⟩ := List.mem_map.1 he
    exact ⟨p, g.find?_eq_some_iff.2 ⟨hp, hname⟩, hrule⟩
  · rintro ⟨p, hp, hrule⟩
    obtain ⟨hp, hname⟩ := g.find?_eq_some_iff.1 hp
    exact ⟨p.toEntry, List.mem_map.2 ⟨p, hp, rfl⟩, hname, hrule⟩

theorem map_name_entries : g.entries.map (·.name) = g.names := by
  rw [entries, List.map_map]
  rfl

theorem nodup_entries : (g.entries.map (·.name)).Nodup := by
  rw [map_name_entries]
  exact g.distinct

theorem contains_iff : g.contains n ↔ n ∈ g.names := by
  rw [contains, Option.isSome_iff_exists, names, List.mem_map]
  exact exists_congr fun p => g.find?_eq_some_iff

namespace Made

variable (hg : g.Made memo)

include hg

/-- What the analysis has found out about a name. -/
theorem find?_iff {p : Production} : g.find? n = some p ↔
    ∃ e ∈ g.entries, e.name = n ∧ p = produce (nullableNames g.entries).contains memo e := by
  rw [g.find?_eq_some_iff, hg.productions, List.mem_map]
  constructor
  · rintro ⟨⟨e, he, rfl⟩, hname⟩
    exact ⟨e, he, hname, rfl⟩
  · rintro ⟨e, he, hname, rfl⟩
    exact ⟨⟨e, he, rfl⟩, hname⟩

theorem isNullable_iff_mem : g.isNullable n ↔ n ∈ nullableNames g.entries := by
  rw [isNullable, Option.any_eq_true]
  constructor
  · rintro ⟨p, hp, hnull⟩
    obtain ⟨e, -, rfl, rfl⟩ := hg.find?_iff.1 hp
    exact List.contains_iff_mem.1 hnull
  · intro hn
    obtain ⟨e, he, hname⟩ := List.mem_map.1 (mem_saturate.1 hn).1
    refine ⟨_, hg.find?_iff.2 ⟨e, he, hname, rfl⟩, ?_⟩
    rw [produce, hname]
    exact List.contains_iff_mem.2 hn

/-- The nullable names are those that vanish. -/
theorem isNullable_iff : g.isNullable n ↔ Vanishes g.entries [.nonTerminal n] :=
  hg.isNullable_iff_mem.trans mem_nullableNames_iff

/-- Names in rules are names of the grammar. -/
theorem mem_names (h : Rewrites g.entries n rule) (hm : .nonTerminal m ∈ rule.symbols) :
    m ∈ g.names := by
  obtain ⟨e, he, -, hrule⟩ := h
  have hmem : m ∈ g.entries.flatMap Entry.references :=
    List.mem_flatMap.2 ⟨e, he, List.mem_flatMap.2 ⟨rule, hrule,
      List.mem_filterMap.2 ⟨.nonTerminal m, hm, rfl⟩⟩⟩
  have hdef := hg.defined
  rw [undefined?, List.find?_eq_none] at hdef
  have hany : g.entries.any (·.name == m) := by simpa using hdef m hmem
  obtain ⟨e', he', hname⟩ := List.any_eq_true.1 hany
  rw [← map_name_entries]
  exact List.mem_map.2 ⟨e', he', beq_iff_eq.1 hname⟩

end Made

end Grammar

end Ramify.Flat
