import Ramify.Ebnf.Grammar
import Ramify.Flat.First
import Ramify.Flat.Nullable

/-!
# Flat grammars

A flat grammar gives each of its names a list of flat rules, together with
what the analysis found out about the name: whether it is nullable, and its
FIRST-sets. `Grammar.analyse` builds one from a list of entries and refuses,
in this order,

* a name that is defined twice,
* a reference to a name without rules,
* a name that reaches itself before consuming input.

The candidates for expanding a name at a lookahead (`Grammar.candidates`) are
the rules whose FIRST-set admits it, in order, and behind them the empty rule
if the name is nullable. A listed empty rule has an empty FIRST-set, so it is
never offered twice.
-/

namespace Ramify.Flat

/-- A name with its rules and the result of the analysis. -/
structure Production extends Entry where
  /-- Whether the name derives the empty text. -/
  nullable : Bool
  /-- The FIRST-sets of the name and its rules. -/
  firsts : Firsts

/-- A production as an extended rule: the choice between its rules. -/
def Production.toExpr (p : Production) : Ebnf.Expr :=
  .choice (p.rules.map fun r => .seq (r.symbols.map .symbol))

/-- The productions of an analysed grammar, in order. -/
structure Grammar where
  /-- The productions. -/
  productions : List Production
  /-- No name is defined twice. -/
  distinct : (productions.map (·.name)).Nodup

namespace Grammar

/-! ### Analysis -/

/-- The error of the first entry whose name is defined before: a clash of
    names if one of the two definitions is generated. `seen` are the entries
    before. -/
def repeated? (seen : List Entry) : List Entry → Option GrammarError
  | [] => none
  | e :: es =>
    match seen.find? (·.name == e.name) with
    | some previous =>
      some (if e.synthetic || previous.synthetic then .nameClash e.name else .duplicateRule e.name)
    | none => repeated? (e :: seen) es

/-- The first reference to a name that no entry defines. -/
def undefined? (entries : List Entry) : Option String :=
  (entries.flatMap Entry.references).find? fun n => !entries.any (·.name == n)

/-- An entry with its part of the analysis. -/
def produce (nullable : String → Bool) (memo : Memo) (e : Entry) : Production :=
  { e with
    nullable := nullable e.name
    firsts := (memo.find? e.name).getD ⟨[], .empty⟩ }

theorem map_name_produce (nullable : String → Bool) (memo : Memo) (entries : List Entry) :
    (entries.map (produce nullable memo)).map (·.name) = entries.map (·.name) := by
  simp [produce]

theorem nodup_of_repeated?_eq_none {seen entries : List Entry}
    (h : repeated? seen entries = none) :
    (entries.map (·.name)).Nodup ∧ ∀ e ∈ entries, ∀ s ∈ seen, s.name ≠ e.name := by
  induction entries generalizing seen with
  | nil => simp
  | cons e es ih =>
    simp only [repeated?] at h
    split at h
    · simp at h
    · rename_i hfind
      obtain ⟨hd, hs⟩ := ih h
      simp only [List.find?_eq_none, beq_iff_eq] at hfind
      rw [List.map_cons, List.nodup_cons]
      refine ⟨⟨?_, hd⟩, ?_⟩
      · intro hmem
        obtain ⟨e', he', hname⟩ := List.mem_map.1 hmem
        exact hs e' he' e List.mem_cons_self hname.symm
      · intro e' he' s hs'
        rcases List.mem_cons.1 he' with rfl | he'
        · exact hfind s hs'
        · exact hs e' he' s (List.mem_cons_of_mem _ hs')

/-- Analyses a list of entries. -/
def analyse (entries : List Entry) : Except GrammarError Grammar :=
  match h : repeated? [] entries with
  | some e => .error e
  | none =>
    match undefined? entries with
    | some n => .error (.missingRule n)
    | none =>
      let known := nullableNames entries
      let nullable := fun n => known.contains n
      match firstSets entries nullable with
      | .error e => .error e
      | .ok memo =>
        .ok ⟨entries.map (produce nullable memo), by
          rw [map_name_produce]
          exact (nodup_of_repeated?_eq_none h).1⟩

/-! ### Look-up -/

variable (g : Grammar)

/-- The names, in order. -/
def names : List String := g.productions.map (·.name)

/-- The production of a name. -/
def find? (name : String) : Option Production := g.productions.find? (·.name == name)

/-- As names are distinct, looking one up finds the production that has it. -/
theorem find?_eq_some_iff {name : String} {p : Production} :
    g.find? name = some p ↔ p ∈ g.productions ∧ p.name = name := by
  constructor
  · intro h
    exact ⟨List.mem_of_find?_eq_some h, by simpa using List.find?_some h⟩
  · rintro ⟨hp, rfl⟩
    obtain ⟨productions, distinct⟩ := g
    simp only [find?]
    induction productions with
    | nil => simp at hp
    | cons q qs ih =>
      rw [List.map_cons, List.nodup_cons] at distinct
      rcases List.mem_cons.1 hp with rfl | hp
      · simp
      · have hq : q.name ≠ p.name := fun h => distinct.1 (h ▸ List.mem_map_of_mem hp)
        simpa [hq] using ih distinct.2 hp

/-- Whether a name has a production. -/
def contains (name : String) : Bool := (g.find? name).isSome

/-- The number of names. -/
def size : Nat := g.productions.length

/-- The rules of a name. -/
def rules? (name : String) : Option (List Rule) := (g.find? name).map (·.rules)

/-- Whether a name derives the empty text. -/
def isNullable (name : String) : Bool := (g.find? name).any (·.nullable)

/-- Whether a name was made up while lowering an extended grammar. -/
def isSynthetic (name : String) : Bool := (g.find? name).any (·.synthetic)

/-- The FIRST-set of a name. -/
def first? (name : String) : Option LookaheadSet := (g.find? name).map (·.firsts.whole)

/-- The FIRST-sets of the rules of a name. -/
def ruleFirsts? (name : String) : Option (List LookaheadSet) :=
  (g.find? name).map (·.firsts.perRule)

/-- The made-up names, in order. -/
def syntheticNames : List String := (g.productions.filter (·.synthetic)).map (·.name)

/-- The number of rules of all names together. -/
def ruleCount : Nat := g.productions.foldl (fun count p => count + p.rules.length) 0

/-- The rules a name may be expanded with at a lookahead. -/
def candidates (name : String) (c : Lookahead) : List Rule :=
  match g.find? name with
  | none => []
  | some p =>
    (((p.rules.zip p.firsts.perRule).filter (·.2.admits c)).map (·.1)) ++
      if p.nullable then [.epsilon] else []

/-! ### Text and the way back -/

/-- A grammar as text, one rule a line. -/
def render : String :=
  String.join (g.productions.flatMap fun p =>
    p.rules.map fun r => p.name ++ " = " ++ r.render ++ "\n")

/-- The extended grammar with the same rules. -/
def toEbnf : Ebnf.Grammar where
  rules := g.productions.map fun p => (p.name, p.toExpr)
  distinct := by
    rw [List.map_map]
    exact g.distinct

end Grammar

end Ramify.Flat
