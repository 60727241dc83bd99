import Ramify.Ebnf.Grammar
import Ramify.Proofs.Flat.Derivation

/-!
# What expressions match

The meaning of an extended grammar (`Matches`), and what flat rules have to look
like to have the same meaning (`Stands`): the rules of a name are those that an
expression offers for it, and whatever the expression needs other names for is
found in theirs. A repetition recurs to the name itself, so it has to be all
that the name stands for. Options and repetitions that are only one way of
several to expand a name are kept apart under a name of their own.

Given such rules, what a name derives is what the expression matches
(`Stands.derives_iff`).
-/

namespace Ramify.Ebnf

open Flat (Derives)

theorem Grammar.contains_iff {g : Grammar} {n : String} :
    g.contains n ↔ ∃ e, g.find? n = some e := by
  simp only [contains, names, List.contains_iff_mem, List.mem_map, find?_eq_some_iff]
  constructor
  · rintro ⟨⟨n, e⟩, he, rfl⟩
    exact ⟨e, he⟩
  · rintro ⟨e, he⟩
    exact ⟨(n, e), he, rfl⟩

mutual

/-- The names that an expression refers to. -/
def Expr.references : Expr → List String
  | .symbol s => s.name?.toList
  | .seq parts => referencesAll parts
  | .choice variants => referencesAll variants
  | .many body => references body
  | .optional body => references body

/-- The names that several expressions refer to. -/
def Expr.referencesAll : List Expr → List String
  | [] => []
  | e :: es => references e ++ referencesAll es

end

/-- Every name that is referred to has a rule. -/
def Grammar.Closed (g : Grammar) : Prop :=
  ∀ rule ∈ g.rules, ∀ n ∈ rule.2.references, g.contains n

instance (g : Grammar) : Decidable g.Closed := List.decidableBAll _ _

/-- Expressions match, one after the other, what lies between two places of a
    text. The places are given by what is left of the text there. -/
inductive Matches (g : Grammar) : List Expr → List Char → List Char → Prop
  | nil {i : List Char} : Matches g [] i i
  | cons {e e' : Expr} {es : List Expr} {i j r : List Char} : Matches g [e] i j →
    Matches g (e' :: es) j r → Matches g (e :: e' :: es) i r
  | endOfInput : Matches g [.symbol .endOfInput] [] []
  | charClass {k : CharClass} {c : Char} {r : List Char} : k.accepts (some c) →
    Matches g [.symbol (.charClass k)] (c :: r) r
  | terminal {t : Terminal} {r : List Char} : Matches g [.symbol (.terminal t)] (t.chars ++ r) r
  | nonTerminal {n : String} {e : Expr} {i r : List Char} : g.find? n = some e →
    Matches g [e] i r → Matches g [.symbol (.nonTerminal n)] i r
  | seq {parts : List Expr} {i r : List Char} : Matches g parts i r → Matches g [.seq parts] i r
  | choice {e : Expr} {variants : List Expr} {i r : List Char} : e ∈ variants →
    Matches g [e] i r → Matches g [.choice variants] i r
  | noMore {body : Expr} {i : List Char} : Matches g [.many body] i i
  | oneMore {body : Expr} {i j r : List Char} : Matches g [body] i j →
    Matches g [.many body] j r → Matches g [.many body] i r
  | absent {body : Expr} {i : List Char} : Matches g [.optional body] i i
  | present {body : Expr} {i r : List Char} : Matches g [body] i r →
    Matches g [.optional body] i r

mutual

/-- The rules that an expression offers for a name. `R` tells the rules of all
    names. -/
inductive Offers (g : Grammar) (R : String → Flat.Rule → Prop) :
    String → Expr → List Flat.Rule → Prop
  | symbol {n : String} {s : Symbol} : (∀ m, s = .nonTerminal m → g.contains m) →
    Offers g R n (.symbol s) [⟨[s]⟩]
  | seq {n : String} {parts : List Expr} {symbols : List Symbol} : Spells g R parts symbols →
    Offers g R n (.seq parts) [⟨symbols⟩]
  | choice {n : String} {variants : List Expr} {rules : List Flat.Rule} :
    OffersAny g R n variants rules → Offers g R n (.choice variants) rules
  | many {n : String} {body : Expr} {s : Symbol} : Spells g R [body] [s] →
    Offers g R n (.many body) [⟨[s, .nonTerminal n]⟩, .epsilon]
  | optional {n : String} {body : Expr} {rules : List Flat.Rule} : Offers g R n body rules →
    Offers g R n (.optional body) (rules ++ [.epsilon])

/-- The rules that variants offer for a name. -/
inductive OffersAny (g : Grammar) (R : String → Flat.Rule → Prop) :
    String → List Expr → List Flat.Rule → Prop
  | nil {n : String} : OffersAny g R n [] []
  | keep {n : String} {e : Expr} {es : List Expr} {rules rules' : List Flat.Rule} :
    e.isOpenEnded = false → Offers g R n e rules → OffersAny g R n es rules' →
    OffersAny g R n (e :: es) (rules ++ rules')
  | apart {n m : String} {e : Expr} {es : List Expr} {rules rules' : List Flat.Rule} :
    Offers g R m e rules → (∀ rule, R m rule ↔ rule ∈ rules) → OffersAny g R n es rules' →
    OffersAny g R n (e :: es) (⟨[.nonTerminal m]⟩ :: rules')

/-- Symbols that stand for the parts of a sequence, each for one. -/
inductive Spells (g : Grammar) (R : String → Flat.Rule → Prop) : List Expr → List Symbol → Prop
  | nil : Spells g R [] []
  | symbol {s : Symbol} {es : List Expr} {symbols : List Symbol} :
    (∀ m, s = .nonTerminal m → g.contains m) → Spells g R es symbols →
    Spells g R (.symbol s :: es) (s :: symbols)
  | name {m : String} {e : Expr} {es : List Expr} {rules : List Flat.Rule} {symbols : List Symbol} :
    Offers g R m e rules → (∀ rule, R m rule ↔ rule ∈ rules) → Spells g R es symbols →
    Spells g R (e :: es) (.nonTerminal m :: symbols)

end

/-- A name stands for an expression: it has the rules that the expression
    offers for it, and no others. -/
def Stands (g : Grammar) (R : String → Flat.Rule → Prop) (n : String) (e : Expr) : Prop :=
  ∃ rules, Offers g R n e rules ∧ ∀ rule, R n rule ↔ rule ∈ rules

section Meaning

variable {g : Grammar} {R : String → Flat.Rule → Prop} {n : String} {e : Expr} {es es' : List Expr}
  {s : Symbol} {α : List Symbol} {rules : List Flat.Rule} {i j r : List Char}

theorem matches_nil_iff : Matches g [] i r ↔ i = r := by
  constructor
  · intro h
    cases h
    rfl
  · rintro rfl
    exact .nil

theorem matches_cons_iff :
    Matches g (e :: es) i r ↔ ∃ j, Matches g [e] i j ∧ Matches g es j r := by
  cases es with
  | nil =>
    constructor
    · exact fun h => ⟨r, h, .nil⟩
    · rintro ⟨j, h, hnil⟩
      rwa [← matches_nil_iff.1 hnil]
  | cons e' es =>
    constructor
    · intro h
      cases h with
      | cons h h' => exact ⟨_, h, h'⟩
    · rintro ⟨j, h, h'⟩
      exact .cons h h'

/-- Repetitions and options match nothing at all. -/
theorem matches_of_isOpenEnded (h : e.isOpenEnded) (i : List Char) : Matches g [e] i i := by
  cases e with
  | many body => exact .noMore
  | optional body => exact .absent
  | symbol | seq | choice => cases h

/-! ### What stands for parts -/

theorem Spells.single (h : Stands g R n e) : Spells g R [e] [.nonTerminal n] := by
  obtain ⟨rules, hoffers, hrules⟩ := h
  exact .name hoffers hrules .nil

/-- What stands for a single part is the symbol that it is, or a name for it. -/
theorem Spells.single_cases (h : Spells g R [e] [s]) :
    (e = .symbol s ∧ Offers g R "" e [⟨[s]⟩]) ∨ ∃ m, s = .nonTerminal m ∧ Stands g R m e := by
  cases h with
  | symbol hs _ => exact .inl ⟨rfl, .symbol hs⟩
  | name hoffers hrules _ => exact .inr ⟨_, rfl, _, hoffers, hrules⟩

theorem Spells.cons_inv (h : Spells g R (e :: es) α) :
    ∃ s β, α = s :: β ∧ Spells g R [e] [s] ∧ Spells g R es β := by
  cases h with
  | symbol hs hes => exact ⟨_, _, rfl, .symbol hs .nil, hes⟩
  | name hoffers hrules hes => exact ⟨_, _, rfl, .name hoffers hrules .nil, hes⟩

theorem Spells.append_inv (h : Spells g R (es ++ es') α) :
    ∃ β γ, α = β ++ γ ∧ Spells g R es β ∧ Spells g R es' γ := by
  induction es generalizing α with
  | nil => exact ⟨[], α, rfl, .nil, h⟩
  | cons e es ih =>
    cases h with
    | @symbol s _ symbols hs hes =>
      obtain ⟨β, γ, rfl, hβ, hγ⟩ := ih hes
      exact ⟨s :: β, γ, rfl, .symbol hs hβ, hγ⟩
    | @name m _ _ rules symbols hoffers hrules hes =>
      obtain ⟨β, γ, rfl, hβ, hγ⟩ := ih hes
      exact ⟨.nonTerminal m :: β, γ, rfl, .name hoffers hrules hβ, hγ⟩

/-- The rules of a variant are among those of the choice, or the variant has a name of
    its own and the choice the rule that consists of it. -/
theorem OffersAny.of_mem (h : OffersAny g R n es rules) (he : e ∈ es) :
    (e.isOpenEnded = false ∧ ∃ rules', Offers g R n e rules' ∧ ∀ rule ∈ rules', rule ∈ rules) ∨
      ∃ m, Stands g R m e ∧ ⟨[.nonTerminal m]⟩ ∈ rules := by
  induction es generalizing rules with
  | nil => exact absurd he List.not_mem_nil
  | cons e' es ih =>
    cases h with
    | @keep _ _ _ rules₁ rules₂ hclosed hoffers hany =>
      rcases List.mem_cons.1 he with rfl | he
      · exact .inl ⟨hclosed, rules₁, hoffers, fun rule hrule => List.mem_append_left _ hrule⟩
      · rcases ih hany he with ⟨hclosed', rules', hoffers', hsub⟩ | ⟨m, hm, hrule⟩
        · exact .inl ⟨hclosed', rules', hoffers', fun rule hrule =>
            List.mem_append_right _ (hsub rule hrule)⟩
        · exact .inr ⟨m, hm, List.mem_append_right _ hrule⟩
    | @apart _ m _ _ rules₁ rules₂ hoffers hrules hany =>
      rcases List.mem_cons.1 he with rfl | he
      · exact .inr ⟨m, ⟨rules₁, hoffers, hrules⟩, List.mem_cons_self⟩
      · rcases ih hany he with ⟨hclosed, rules', hoffers', hsub⟩ | ⟨m', hm, hrule⟩
        · exact .inl ⟨hclosed, rules', hoffers', fun rule hrule =>
            List.mem_cons_of_mem _ (hsub rule hrule)⟩
        · exact .inr ⟨m', hm, List.mem_cons_of_mem _ hrule⟩

end Meaning

/-! ### From rules to expressions -/

section Sound

variable {g : Grammar} {R : String → Flat.Rule → Prop} {rule : Flat.Rule} {i j : List Char}

mutual

/-- A rule that is offered reads as what is matched by the expression. If that
    is open-ended, it has to be all that the name stands for. -/
theorem Offers.matches {n : String} {e whole : Expr} {rules : List Flat.Rule}
    (h : Offers g R n e rules) (hn : Stands g R n whole)
    (hopen : e.isOpenEnded → ∀ i j, Matches g [whole] i j → Matches g [e] i j)
    (hrule : rule ∈ rules) (hread : ∀ es, Spells g R es rule.symbols → Matches g es i j) :
    Matches g [e] i j := by
  cases h with
  | symbol hs =>
    rw [List.mem_singleton.1 hrule] at hread
    exact hread _ (.symbol hs .nil)
  | seq hparts =>
    rw [List.mem_singleton.1 hrule] at hread
    exact .seq (hread _ hparts)
  | choice hany =>
    obtain ⟨v, hv, hmatch⟩ := hany.matches hn hrule hread
    exact .choice hv hmatch
  | @many _ body s hs =>
    rcases List.mem_pair.1 hrule with rfl | rfl
    · -- The name behind the body can be read as what it stands for.
      have hspells : Spells g R [body, whole] [s, .nonTerminal n] := by
        obtain ⟨rules', hoffers, hrules⟩ := hn
        cases hs with
        | symbol hs _ => exact .symbol hs (.name hoffers hrules .nil)
        | name hb hbr _ => exact .name hb hbr (.name hoffers hrules .nil)
      obtain ⟨k, hbody, hrest⟩ := matches_cons_iff.1 (hread _ hspells)
      exact .oneMore hbody (hopen rfl _ _ hrest)
    · obtain rfl := matches_nil_iff.1 (hread [] .nil)
      exact .noMore
  | optional hbody =>
    -- An option of something that is open-ended itself may stand for a name whose
    -- rules it offers, so the body matches whatever the whole does.
    rcases List.mem_append.1 hrule with hrule | hrule
    · refine .present (hbody.matches hn (fun hb i j hmatch => ?_) hrule hread)
      cases hopen rfl i j hmatch with
      | absent => exact matches_of_isOpenEnded hb _
      | present h => exact h
    · rw [List.mem_singleton.1 hrule] at hread
      obtain rfl := matches_nil_iff.1 (hread [] .nil)
      exact .absent
termination_by sizeOf e

theorem OffersAny.matches {n : String} {es : List Expr} {whole : Expr} {rules : List Flat.Rule}
    (h : OffersAny g R n es rules) (hn : Stands g R n whole) (hrule : rule ∈ rules)
    (hread : ∀ es, Spells g R es rule.symbols → Matches g es i j) :
    ∃ e ∈ es, Matches g [e] i j := by
  cases h with
  | nil => exact absurd hrule List.not_mem_nil
  | keep hclosed hoffers hany =>
    rcases List.mem_append.1 hrule with hrule | hrule
    · refine ⟨_, List.mem_cons_self, hoffers.matches hn (fun hopen => ?_) hrule hread⟩
      rw [hclosed] at hopen
      cases hopen
    · obtain ⟨v, hv, hmatch⟩ := hany.matches hn hrule hread
      exact ⟨v, List.mem_cons_of_mem _ hv, hmatch⟩
  | apart hoffers hrules hany =>
    rcases List.mem_cons.1 hrule with rfl | hrule
    · exact ⟨_, List.mem_cons_self, hread _ (.name hoffers hrules .nil)⟩
    · obtain ⟨v, hv, hmatch⟩ := hany.matches hn hrule hread
      exact ⟨v, List.mem_cons_of_mem _ hv, hmatch⟩
termination_by sizeOf es

end

variable {sg : Flat.Grammar} {α : List Symbol} {ts : List Tree} {r : List Char}

/-- What symbols derive is matched by the expressions that they stand for. -/
theorem matches_of_derives
    (hall : ∀ n e, g.find? n = some e → Stands g (Flat.Rewrites sg.entries) n e)
    (h : Derives sg α ts i r) :
    ∀ es, Spells g (Flat.Rewrites sg.entries) es α → Matches g es i r := by
  induction h with
  | nil =>
    intro es hes
    cases hes
    exact .nil
  | endOfInput _ ih =>
    intro es hes
    cases hes with
    | symbol _ hes => exact matches_cons_iff.2 ⟨_, .endOfInput, ih _ hes⟩
  | charClass hk _ ih =>
    intro es hes
    cases hes with
    | symbol _ hes => exact matches_cons_iff.2 ⟨_, .charClass hk, ih _ hes⟩
  | terminal _ ih =>
    intro es hes
    cases hes with
    | symbol _ hes => exact matches_cons_iff.2 ⟨_, .terminal, ih _ hes⟩
  | @nonTerminal n rule α us ts i j r hrule _ _ ihu ih =>
    intro es hes
    have hname : ∀ e, Stands g (Flat.Rewrites sg.entries) n e → Matches g [e] i j := fun e he => by
      obtain ⟨rules, hoffers, hrules⟩ := id he
      exact hoffers.matches he (fun _ _ _ h => h) ((hrules rule).1 hrule) ihu
    cases hes with
    | symbol hs hes =>
      obtain ⟨e, he⟩ := Grammar.contains_iff.1 (hs n rfl)
      exact matches_cons_iff.2 ⟨_, .nonTerminal he (hname e (hall n e he)), ih _ hes⟩
    | name hoffers hrules hes =>
      exact matches_cons_iff.2 ⟨_, hname _ ⟨_, hoffers, hrules⟩, ih _ hes⟩

end Sound

/-! ### From expressions to rules -/

section Complete

variable {g : Grammar} {sg : Flat.Grammar} {n : String} {e : Expr} {es : List Expr}
  {α β : List Symbol} {rules : List Flat.Rule} {i j r : List Char}

/-- Symbols derive what lies between two places. -/
def Reads (sg : Flat.Grammar) (α : List Symbol) (i r : List Char) : Prop :=
  ∃ ts, Derives sg α ts i r

theorem Reads.append (h : Reads sg α i j) (h' : Reads sg β j r) : Reads sg (α ++ β) i r := by
  obtain ⟨ts, hts⟩ := h
  obtain ⟨us, hus⟩ := h'
  exact ⟨ts ++ us, hts.append hus⟩

theorem Reads.name {rule : Flat.Rule} (hrule : Flat.Rewrites sg.entries n rule)
    (h : Reads sg rule.symbols i r) : Reads sg [.nonTerminal n] i r := by
  obtain ⟨ts, hts⟩ := h
  exact ⟨_, .nonTerminal hrule hts .nil⟩

/-- Wherever an expression offers rules, one of them derives what lies between
    two places. A repetition has to rely on the rules being those of the name. -/
def Served (g : Grammar) (sg : Flat.Grammar) (e : Expr) (i r : List Char) : Prop :=
  ∀ n rules, Offers g (Flat.Rewrites sg.entries) n e rules →
    (e.isOpenEnded → ∀ rule ∈ rules, Flat.Rewrites sg.entries n rule) →
    ∃ rule ∈ rules, Reads sg rule.symbols i r

theorem Served.reads (h : Served g sg e i r) (he : Stands g (Flat.Rewrites sg.entries) n e) :
    Reads sg [.nonTerminal n] i r := by
  obtain ⟨rules, hoffers, hrules⟩ := he
  obtain ⟨rule, hrule, hreads⟩ := h n rules hoffers fun _ rule hrule => (hrules rule).2 hrule
  exact .name ((hrules rule).2 hrule) hreads

/-- Whatever stands for an expression derives what the expression does. -/
theorem Served.spelled (h : Served g sg e i r)
    (hes : Spells g (Flat.Rewrites sg.entries) [e] α) : Reads sg α i r := by
  cases hes with
  | symbol hs hnil =>
    cases hnil
    obtain ⟨rule, hrule, hreads⟩ := h "" _ (.symbol hs) fun hopen => nomatch hopen
    rwa [List.mem_singleton.1 hrule] at hreads
  | name hoffers hrules hnil =>
    cases hnil
    exact h.reads ⟨_, hoffers, hrules⟩

theorem OffersAny.served (h : OffersAny g (Flat.Rewrites sg.entries) n es rules) (he : e ∈ es)
    (hserved : Served g sg e i r) : ∃ rule ∈ rules, Reads sg rule.symbols i r := by
  rcases h.of_mem he with ⟨hclosed, rules', hoffers, hsub⟩ | ⟨m, hm, hrule⟩
  · obtain ⟨rule, hrule, hreads⟩ := hserved n rules' hoffers fun hopen =>
      absurd (hclosed.symm.trans hopen) Bool.false_ne_true
    exact ⟨rule, hsub rule hrule, hreads⟩
  · exact ⟨_, hrule, hserved.reads hm⟩

/-- What expressions match is derived by whatever stands for them. -/
theorem reads_of_matches
    (hall : ∀ n e, g.find? n = some e → Stands g (Flat.Rewrites sg.entries) n e)
    (h : Matches g es i r) : (∀ α, Spells g (Flat.Rewrites sg.entries) es α → Reads sg α i r) ∧
      ∀ e, es = [e] → Served g sg e i r := by
  have hsingle : ∀ {e i r}, Served g sg e i r →
      (∀ α, Spells g (Flat.Rewrites sg.entries) [e] α → Reads sg α i r) ∧
        ∀ e', [e] = [e'] → Served g sg e' i r := fun {e i r} hserved =>
    ⟨fun α hα => hserved.spelled hα, fun e' he' => (List.cons.inj he').1 ▸ hserved⟩
  induction h with
  | nil =>
    refine ⟨fun α hα => ?_, fun e he => nomatch he⟩
    cases hα
    exact ⟨[], .nil⟩
  | cons _ _ ih ih' =>
    refine ⟨fun α hα => ?_, fun e he => nomatch he⟩
    obtain ⟨s, β, rfl, hs, hβ⟩ := hα.cons_inv
    exact (ih.1 _ hs).append (ih'.1 _ hβ)
  | endOfInput =>
    refine hsingle fun n rules hoffers _ => ?_
    cases hoffers
    exact ⟨_, List.mem_singleton_self _, _, .endOfInput .nil⟩
  | charClass hk =>
    refine hsingle fun n rules hoffers _ => ?_
    cases hoffers
    exact ⟨_, List.mem_singleton_self _, _, .charClass hk .nil⟩
  | terminal =>
    refine hsingle fun n rules hoffers _ => ?_
    cases hoffers
    exact ⟨_, List.mem_singleton_self _, _, .terminal .nil⟩
  | nonTerminal he _ ih =>
    refine hsingle fun n rules hoffers _ => ?_
    cases hoffers
    exact ⟨_, List.mem_singleton_self _, (ih.2 _ rfl).reads (hall _ _ he)⟩
  | seq _ ih =>
    refine hsingle fun n rules hoffers _ => ?_
    cases hoffers with
    | seq hparts => exact ⟨_, List.mem_singleton_self _, ih.1 _ hparts⟩
  | choice he _ ih =>
    refine hsingle fun n rules hoffers _ => ?_
    cases hoffers with
    | choice hany => exact hany.served he (ih.2 _ rfl)
  | noMore =>
    refine hsingle fun n rules hoffers _ => ?_
    cases hoffers with
    | many => exact ⟨.epsilon, List.mem_cons_of_mem _ (List.mem_singleton_self _), [], .nil⟩
  | oneMore _ _ ih ih' =>
    refine hsingle fun n rules hoffers hrules => ?_
    cases hoffers with
    | many hs =>
      -- The rest is derived by the name itself, as its rules are all at hand.
      obtain ⟨rule, hrule, hreads⟩ := ih'.2 _ rfl n _ (.many hs) hrules
      exact ⟨_, List.mem_cons_self, (ih.1 _ hs).append (.name (hrules rfl rule hrule) hreads)⟩
  | absent =>
    refine hsingle fun n rules hoffers _ => ?_
    cases hoffers with
    | optional => exact ⟨.epsilon, List.mem_append_right _ (List.mem_singleton_self _), [], .nil⟩
  | present _ ih =>
    refine hsingle fun n rules hoffers hrules => ?_
    cases hoffers with
    | optional hbody =>
      obtain ⟨rule, hrule, hreads⟩ := ih.2 _ rfl n _ hbody fun _ rule hrule =>
        hrules rfl rule (List.mem_append_left _ hrule)
      exact ⟨rule, List.mem_append_left _ hrule, hreads⟩

/-- What a name derives is what the expression matches that it stands for. -/
theorem Stands.derives_iff
    (hall : ∀ n e, g.find? n = some e → Stands g (Flat.Rewrites sg.entries) n e)
    (he : Stands g (Flat.Rewrites sg.entries) n e) :
    Matches g [e] i r ↔ ∃ t, Derives sg [.nonTerminal n] [t] i r := by
  constructor
  · intro h
    obtain ⟨ts, hts⟩ := ((reads_of_matches hall h).2 e rfl).reads he
    obtain ⟨t, rfl⟩ := List.length_eq_one_iff.1 hts.length_eq
    exact ⟨t, hts⟩
  · rintro ⟨t, ht⟩
    exact matches_of_derives hall ht _ (.single he)

end Complete

end Ramify.Ebnf
