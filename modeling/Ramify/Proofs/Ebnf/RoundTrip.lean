import Ramify.Proofs.Ebnf.Freshness

/-!
# The way back to extended grammars

A flat grammar can be turned into an extended one, which gives to each name the choice
between its rules. Lowered again, that is the grammar itself, but for the marks of the
names that were made up: now they are names like all others (`Grammar.flatten_toEbnf`).

* A choice between sequences of symbols is lowered to these sequences, under its own
  name (`lowerRule_toExpr`). No name is made up for it, so it is of no concern which
  names look as if they were.
* What the analysis finds out does not depend on the marks (`analyse_plain`).
-/

namespace Ramify

/-! ### Lowering choices between sequences of symbols -/

namespace Ebnf

/-- Sequences of symbols stay what they are. -/
theorem lowerParts_symbols (target : String) (symbols : List Symbol) (d : Draft) :
    lowerParts target (symbols.map .symbol) d = (symbols, d) := by
  induction symbols with
  | nil => rw [List.map_nil, lowerParts]
  | cons s symbols ih =>
    rw [List.map_cons, lowerParts]
    simp only [Expr.symbol?, ih]

theorem Draft.emit_single (n : String) (rules : List Flat.Rule) (rule : Flat.Rule) :
    Draft.emit n rule ⟨[(n, rules)], []⟩ = ⟨[(n, rules ++ [rule])], []⟩ := by
  simp [emit, reserve]

/-- Each variant adds the rule that it is. -/
theorem lowerVariants_rules (n : String) (rules before : List Flat.Rule) :
    lowerVariants n (rules.map fun r => .seq (r.symbols.map .symbol)) ⟨[(n, before)], []⟩ =
      ⟨[(n, before ++ rules)], []⟩ := by
  induction rules generalizing before with
  | nil => rw [List.map_nil, lowerVariants, List.append_nil]
  | cons rule rules ih =>
    have hclosed : ¬(Expr.seq (rule.symbols.map .symbol)).isOpenEnded := Bool.false_ne_true
    rw [List.map_cons, lowerVariants, if_neg hclosed, lower, lowerParts_symbols]
    dsimp only
    rw [Draft.emit_single, ih, List.append_assoc, List.singleton_append]

theorem lowerRule_toExpr (p : Flat.Production) :
    lowerRule p.name p.toExpr = ⟨[(p.name, p.rules)], []⟩ := by
  rw [lowerRule, Flat.Production.toExpr, lower]
  exact lowerVariants_rules p.name p.rules []

end Ebnf

namespace Flat

/-! ### The analysis and the marks -/

/-- An entry without the mark of names that are made up. -/
def Entry.plain (e : Entry) : Entry := { e with synthetic := false }

/-- A production without the mark of names that are made up. -/
def Production.plain (p : Production) : Production := { p with synthetic := false }

variable {entries : List Entry} {nullable : String → Bool} {memo : Memo} {name : String}

theorem map_name_plain : (entries.map Entry.plain).map (·.name) = entries.map (·.name) := by
  rw [List.map_map]
  rfl

theorem nullableNames_plain : nullableNames (entries.map Entry.plain) = nullableNames entries := by
  have hyields : yieldsNullable (entries.map Entry.plain) = yieldsNullable entries := by
    funext known name
    rw [yieldsNullable, List.any_map]
    rfl
  rw [nullableNames, map_name_plain, hyields, nullableNames]

theorem visit_plain (room : Nat) (path : List String) :
    visit (entries.map Entry.plain) nullable room path = visit entries nullable room path := by
  induction room generalizing path with
  | zero => rfl
  | succ room ih =>
    funext name memo
    have hfind : (entries.map Entry.plain).find? (·.name == name) =
        (entries.find? (·.name == name)).map Entry.plain := List.find?_map
    rw [visit, visit, ih, hfind]
    cases entries.find? (·.name == name) with
    | none => rfl
    | some entry => rfl

theorem firstSets_plain :
    firstSets (entries.map Entry.plain) nullable = firstSets entries nullable := by
  have hall : ∀ names memo, visitAll (entries.map Entry.plain) nullable names memo =
      visitAll entries nullable names memo := by
    intro names
    induction names with
    | nil => exact fun memo => rfl
    | cons name names ih =>
      intro memo
      rw [visitAll, visitAll, visit_plain, List.length_map]
      simp only [ih]
  rw [firstSets, hall, map_name_plain, firstSets]

namespace Grammar

theorem undefined?_plain : undefined? (entries.map Entry.plain) = undefined? entries := by
  have hrefs : (entries.map Entry.plain).flatMap Entry.references =
      entries.flatMap Entry.references := by
    rw [List.flatMap_map]
    rfl
  rw [undefined?, undefined?, hrefs]
  simp only [List.any_map]
  rfl

/-- Entries with distinct names that are all defined are accepted if their FIRST-sets
    are found. -/
theorem analyse_of_firstSets (hnodup : (entries.map (·.name)).Nodup)
    (hdef : undefined? entries = none)
    (hfirsts : firstSets entries (nullableNames entries).contains = .ok memo) :
    ∃ f, analyse entries = .ok f ∧
      f.productions = entries.map (produce (nullableNames entries).contains memo) := by
  rw [analyse]
  split
  · rename_i e he
    cases (repeated?_eq_none_iff.2 hnodup).symm.trans he
  · rw [hdef]
    dsimp only
    split
    · rename_i e he
      cases hfirsts.symm.trans he
    · rename_i memo' hmemo
      obtain rfl := Except.ok.inj (hfirsts.symm.trans hmemo)
      exact ⟨_, rfl, rfl⟩

variable {g : Grammar}

/-- A grammar without the marks of names that are made up. -/
def plain (g : Grammar) : Grammar where
  productions := g.productions.map Production.plain
  distinct := by
    rw [List.map_map]
    exact g.distinct

/-- Without the marks, the analysis finds out the same. -/
theorem analyse_plain (hg : g.Analysed) : analyse (g.entries.map Entry.plain) = .ok g.plain := by
  obtain ⟨memo, hmade⟩ := hg.made
  have hnodup : ((g.entries.map Entry.plain).map (·.name)).Nodup := by
    rw [map_name_plain]
    exact nodup_entries
  obtain ⟨f, hf, hproductions⟩ := analyse_of_firstSets hnodup (undefined?_plain.trans hmade.defined)
    (by rw [firstSets_plain, nullableNames_plain, hmade.firsts])
  have hplain : f.productions = g.plain.productions :=
    calc f.productions
      _ = (g.entries.map (produce (nullableNames g.entries).contains memo)).map Production.plain := by
        rw [hproductions, nullableNames_plain, List.map_map, List.map_map]
        rfl
      _ = g.plain.productions := congrArg (List.map Production.plain) hmade.productions.symm
  obtain ⟨productions, distinct⟩ := f
  obtain rfl : productions = g.plain.productions := hplain
  exact hf

theorem lowered_toEbnf : g.toEbnf.lowered = g.entries.map Entry.plain := by
  have hentries : ∀ p : Production, (Ebnf.lowerRule p.name p.toExpr).entries = [p.toEntry.plain] :=
    fun p => by
      rw [Ebnf.lowerRule_toExpr]
      rfl
  rw [Ebnf.Grammar.lowered, toEbnf, entries, List.flatMap_map, List.map_map, List.map_eq_flatMap]
  simp only [hentries]
  rfl

/-- No name is made up on the way back. -/
theorem mintedNames_toEbnf : g.toEbnf.mintedNames = [] := by
  rw [Ebnf.Grammar.mintedNames, toEbnf, List.flatMap_map, List.flatMap_eq_nil_iff]
  intro p _
  rw [Ebnf.lowerRule_toExpr]
  rfl

theorem syntheticNames_plain : g.plain.syntheticNames = [] := by
  rw [syntheticNames, List.map_eq_nil_iff, List.filter_eq_nil_iff]
  intro p hp
  obtain ⟨q, -, rfl⟩ := List.mem_map.1 hp
  exact Bool.false_ne_true

theorem find?_plain (n : String) : g.plain.find? n = (g.find? n).map Production.plain :=
  List.find?_map

/-- A grammar that is turned into an extended one and lowered again is the same but for
    the marks: it has the same names with the same rules in the same order, finds the
    same of them to be nullable, and has the same FIRST-sets. No name is made up. -/
theorem flatten_toEbnf (hg : g.Analysed) : ∃ f, g.toEbnf.flatten = .ok f ∧
    f.productions = g.productions.map Production.plain ∧
    f.names = g.names ∧ f.syntheticNames = [] ∧
    ∀ n, f.rules? n = g.rules? n ∧ f.isNullable n = g.isNullable n ∧ f.first? n = g.first? n ∧
      f.ruleFirsts? n = g.ruleFirsts? n ∧ f.isSynthetic n = false := by
  have hclash : g.toEbnf.clash? = none := by
    rw [Ebnf.Grammar.clash?_eq, mintedNames_toEbnf, List.find?_nil]
  refine ⟨g.plain, ?_, rfl, ?_, syntheticNames_plain, fun n => ?_⟩
  · rw [Ebnf.Grammar.flatten, hclash, lowered_toEbnf]
    exact analyse_plain hg
  · rw [names, plain, List.map_map]
    rfl
  · simp only [rules?, isNullable, first?, ruleFirsts?, isSynthetic, find?_plain]
    cases g.find? n with
    | none => exact ⟨rfl, rfl, rfl, rfl, rfl⟩
    | some p => exact ⟨rfl, rfl, rfl, rfl, rfl⟩

/-- An optional part, a name that looks made up and has a rule without symbols, and a
    name without rules. -/
def sparse : Ebnf.Grammar :=
  ⟨[("S", .seq [.symbol (.terminal ⟨'a', []⟩), .optional (.symbol (.terminal ⟨'b', []⟩)),
      .symbol (.nonTerminal "S_1")]),
    ("S_1", .seq []), ("N", .choice [])], by decide⟩

theorem flatten_toEbnf_sparse : ∃ g, sparse.flatten = .ok g ∧
    g.names = ["S", "S_0", "S_1", "N"] ∧ g.syntheticNames = ["S_0"] ∧
    ∃ f, g.toEbnf.flatten = .ok f ∧ f.names = ["S", "S_0", "S_1", "N"] ∧
      f.syntheticNames = [] ∧ f.rules? "S_1" = some [⟨[]⟩] ∧ f.rules? "N" = some [] ∧
      f.rules? "S_0" = some [⟨[.terminal ⟨'b', []⟩]⟩, ⟨[]⟩] ∧ f.isNullable "S_0" = true := by
  obtain ⟨g, hg⟩ : ∃ g, sparse.flatten = .ok g := ⟨_, rfl⟩
  obtain ⟨f, hf, -, hnames, hsynthetic, hlike⟩ := flatten_toEbnf (.of_flatten hg)
  obtain rfl := Except.ok.inj hg
  refine ⟨_, rfl, rfl, rfl, f, hf, hnames, hsynthetic, ?_, ?_, ?_, ?_⟩
  · exact (hlike "S_1").1
  · exact (hlike "N").1
  · exact (hlike "S_0").1
  · exact (hlike "S_0").2.1

end Grammar

end Flat

end Ramify
