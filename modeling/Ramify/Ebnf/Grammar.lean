import Ramify.Ebnf.Expr
import Ramify.Error

/-!
# Extended grammars

An extended grammar gives one expression to each of its names. The rules keep
their order, which is the order in which everything derived from the grammar
comes, and no name is defined twice: that is part of the type.
-/

namespace Ramify.Ebnf

/-- Rules in order, with distinct names. -/
structure Grammar where
  /-- The rules: a name and its expression each. -/
  rules : List (String × Expr)
  /-- No name is defined twice. -/
  distinct : (rules.map (·.1)).Nodup

namespace Grammar

/-- The first name of a list that occurs earlier in it; `seen` are the names
    before the list. -/
def firstRepeated (seen : List String) : List String → Option String
  | [] => none
  | n :: ns => if n ∈ seen then some n else firstRepeated (n :: seen) ns

theorem firstRepeated_eq_none {seen names : List String} :
    firstRepeated seen names = none ↔ names.Nodup ∧ ∀ n ∈ names, n ∉ seen := by
  induction names generalizing seen with
  | nil => simp [firstRepeated]
  | cons n ns ih =>
    simp only [firstRepeated]
    split
    · rename_i h
      simp [h]
    · rename_i h
      rw [ih, List.nodup_cons]
      constructor
      · rintro ⟨hd, hs⟩
        refine ⟨⟨fun hn => hs n hn List.mem_cons_self, hd⟩, ?_⟩
        intro m hm
        rcases List.mem_cons.1 hm with rfl | hm
        · exact h
        · exact fun hs' => hs m hm (List.mem_cons_of_mem _ hs')
      · rintro ⟨⟨hn, hd⟩, hs⟩
        refine ⟨hd, fun m hm hm' => ?_⟩
        rcases List.mem_cons.1 hm' with rfl | hm'
        · exact hn hm
        · exact hs m (List.mem_cons_of_mem _ hm) hm'

/-- The grammar of a list of rules. The first name that is defined a second
    time is an error. -/
def ofRules (rules : List (String × Expr)) : Except GrammarError Grammar :=
  match h : firstRepeated [] (rules.map (·.1)) with
  | some n => .error (.duplicateRule n)
  | none => .ok ⟨rules, (firstRepeated_eq_none.1 h).1⟩

variable (g : Grammar)

/-- The names, in order. -/
def names : List String := g.rules.map (·.1)

/-- The expression of a name. -/
def find? (name : String) : Option Expr := (g.rules.find? (·.1 == name)).map (·.2)

/-- As names are distinct, looking one up finds the expression of its rule. -/
theorem find?_eq_some_iff {name : String} {e : Expr} :
    g.find? name = some e ↔ (name, e) ∈ g.rules := by
  obtain ⟨rules, distinct⟩ := g
  simp only [find?]
  induction rules with
  | nil => simp
  | cons rule rules ih =>
    obtain ⟨n, f⟩ := rule
    rw [List.map_cons, List.nodup_cons] at distinct
    by_cases h : n = name
    · subst h
      have hn : ∀ e, (n, e) ∉ rules := fun e he =>
        distinct.1 (List.mem_map.2 ⟨(n, e), he, rfl⟩)
      simp [hn, eq_comm]
    · simpa [h, Ne.symm h] using ih distinct.2

/-- Whether a name has a rule. -/
def contains (name : String) : Bool := g.names.contains name

/-- The number of rules. -/
def size : Nat := g.rules.length

/-- A grammar as text, one rule a line. -/
def render : String :=
  String.join (g.rules.map fun (n, e) => n ++ " = " ++ e.render ++ "\n")

end Grammar

end Ramify.Ebnf
