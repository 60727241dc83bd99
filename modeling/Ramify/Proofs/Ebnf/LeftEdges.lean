import Ramify.Proofs.Ebnf.Lowering
import Ramify.Proofs.Flat.Recursion

/-!
# Left recursion of extended grammars

An extended grammar is left recursive if it repeats something that may be empty, or if
its names go in circles at the left edges of their expressions, past whatever may be
empty there (`Grammar.LeftRecursive`). Only flat rules are ever checked for that. Still,
no such grammar is accepted (`Grammar.flatten_eq_error_of_leftRecursive`):

* what may be empty by its form derives the empty text, under whatever name it goes
  after lowering (`Erasable.offers`);
* a name at the left edge of an expression is found at the left edge of one of its
  rules, or of names that the rule begins with (`AtEdge.offers`);
* each repetition goes under a name of its own, which stands behind the body in one of
  its rules (`Within.offers`). If the body may be empty, the name begins with itself.
-/

namespace Ramify.Ebnf

open Flat (BeginsWith Rewrites Vanishes)
open Relation (ReflTransGen TransGen)

/-! ### Left edges -/

/-- An expression may be empty by its form. The end of input may not, nor may what has
    to match it. -/
inductive Erasable (g : Grammar) : Expr → Prop
  | name {n : String} {e : Expr} : g.find? n = some e → Erasable g e →
    Erasable g (.symbol (.nonTerminal n))
  | seq {parts : List Expr} : (∀ e ∈ parts, Erasable g e) → Erasable g (.seq parts)
  | choice {e : Expr} {variants : List Expr} : e ∈ variants → Erasable g e →
    Erasable g (.choice variants)
  | many {body : Expr} : Erasable g (.many body)
  | optional {body : Expr} : Erasable g (.optional body)

/-- A name occurs in an expression with nothing before it, in all sequences around it,
    but what may be empty. -/
inductive AtEdge (g : Grammar) (n : String) : Expr → Prop
  | symbol : AtEdge g n (.symbol (.nonTerminal n))
  | seq {before : List Expr} {e : Expr} {after : List Expr} : (∀ e' ∈ before, Erasable g e') →
    AtEdge g n e → AtEdge g n (.seq (before ++ e :: after))
  | choice {e : Expr} {variants : List Expr} : e ∈ variants → AtEdge g n e →
    AtEdge g n (.choice variants)
  | many {body : Expr} : AtEdge g n body → AtEdge g n (.many body)
  | optional {body : Expr} : AtEdge g n body → AtEdge g n (.optional body)

/-- An expression is a part of another one, or the whole of it. -/
inductive Within (e : Expr) : Expr → Prop
  | whole : Within e e
  | seq {part : Expr} {parts : List Expr} : part ∈ parts → Within e part → Within e (.seq parts)
  | choice {variant : Expr} {variants : List Expr} : variant ∈ variants → Within e variant →
    Within e (.choice variants)
  | many {body : Expr} : Within e body → Within e (.many body)
  | optional {body : Expr} : Within e body → Within e (.optional body)

namespace Grammar

/-- The expression of one name has the other name at its left edge. -/
def LeftEdge (g : Grammar) (n m : String) : Prop := ∃ e, g.find? n = some e ∧ AtEdge g m e

/-- Something that may be empty is repeated, or some name comes back to itself by left
    edges. -/
def LeftRecursive (g : Grammar) : Prop :=
  (∃ rule ∈ g.rules, ∃ body, Within (.many body) rule.2 ∧ Erasable g body) ∨
    ∃ n, TransGen g.LeftEdge n n

end Grammar

/-! ### What is offered for a part -/

variable {g : Grammar} {entries : List Flat.Entry} {n m : String} {e body : Expr} {es : List Expr}
  {s : Symbol} {α β : List Symbol} {rules : List Flat.Rule} {rule : Flat.Rule}

/-- Whatever the name, one of the rules that an expression offers has a property. -/
def OffersSome (g : Grammar) (entries : List Flat.Entry) (P : List Symbol → Prop) (e : Expr) :
    Prop :=
  ∀ n rules, Offers g (Rewrites entries) n e rules → ∃ rule ∈ rules, P rule.symbols

/-- A name that stands for an expression has the rule that is found among those that the
    expression offers. -/
theorem OffersSome.of_stands {P : List Symbol → Prop} (h : OffersSome g entries P e)
    (hm : Stands g (Rewrites entries) m e) : ∃ rule, Rewrites entries m rule ∧ P rule.symbols := by
  obtain ⟨rules, hoffers, hrules⟩ := hm
  obtain ⟨rule, hrule, hP⟩ := h m rules hoffers
  exact ⟨rule, (hrules rule).2 hrule, hP⟩

/-- A property of a rule is one of all names that have the rule. -/
def Passes (entries : List Flat.Entry) (P : List Symbol → Prop) : Prop :=
  ∀ m rule, Rewrites entries m rule → P rule.symbols → P [.nonTerminal m]

/-- What holds of some rule of a part holds of the symbol that stands for the part. -/
theorem OffersSome.of_spells {P : List Symbol → Prop} (h : OffersSome g entries P e)
    (hname : Passes entries P) (hs : Spells g (Rewrites entries) [e] [s]) : P [s] := by
  rcases hs.single_cases with ⟨rfl, hoffers⟩ | ⟨m, rfl, hm⟩
  · obtain ⟨rule, hrule, hP⟩ := h "" _ hoffers
    rwa [List.mem_singleton.1 hrule] at hP
  · obtain ⟨rule, hrule, hP⟩ := h.of_stands hm
    exact hname m rule hrule hP

/-- What holds of some rule of a variant holds of a rule of the choice. -/
theorem OffersSome.of_mem {P : List Symbol → Prop} (h : OffersSome g entries P e)
    (hname : Passes entries P) (hany : OffersAny g (Rewrites entries) n es rules) (he : e ∈ es) :
    ∃ rule ∈ rules, P rule.symbols := by
  rcases hany.of_mem he with ⟨-, rules', hoffers, hsub⟩ | ⟨m, hm, hmem⟩
  · obtain ⟨rule, hrule, hP⟩ := h n rules' hoffers
    exact ⟨rule, hsub rule hrule, hP⟩
  · obtain ⟨rule, hrule, hP⟩ := h.of_stands hm
    exact ⟨_, hmem, hname m rule hrule hP⟩

theorem passes_vanishes : Passes entries (Vanishes entries) := fun _ _ hrule h => .cons hrule h .nil

/-- Parts that offer a rule that vanishes are spelled by symbols that do. -/
theorem vanishes_of_spells (h : ∀ e ∈ es, OffersSome g entries (Vanishes entries) e)
    (hes : Spells g (Rewrites entries) es α) : Vanishes entries α := by
  induction es generalizing α with
  | nil =>
    cases hes
    exact .nil
  | cons e es ih =>
    obtain ⟨s, β, rfl, hs, hβ⟩ := hes.cons_inv
    obtain ⟨he, hes⟩ := List.forall_mem_cons.1 h
    exact (he.of_spells passes_vanishes hs).append (ih hes hβ)

/-! ### What names begin with -/

/-- Symbols lead to a name: past what vanishes they begin with it, or with a name that
    begins with it, however indirectly. -/
def LeadsTo (entries : List Flat.Entry) (m : String) (α : List Symbol) : Prop :=
  ∃ before k after, α = before ++ .nonTerminal k :: after ∧ Vanishes entries before ∧
    ReflTransGen (BeginsWith entries) k m

theorem LeadsTo.append (h : LeadsTo entries m α) : LeadsTo entries m (α ++ β) := by
  obtain ⟨before, k, after, rfl, hbefore, hk⟩ := h
  exact ⟨before, k, after ++ β, by rw [List.append_assoc, List.cons_append], hbefore, hk⟩

theorem LeadsTo.behind (h : LeadsTo entries m β) (hα : Vanishes entries α) :
    LeadsTo entries m (α ++ β) := by
  obtain ⟨before, k, after, rfl, hbefore, hk⟩ := h
  exact ⟨α ++ before, k, after, (List.append_assoc ..).symm, hα.append hbefore, hk⟩

/-- A name begins with what its rules lead to. -/
theorem LeadsTo.transGen (h : LeadsTo entries m rule.symbols) (hrule : Rewrites entries n rule) :
    TransGen (BeginsWith entries) n m := by
  obtain ⟨before, k, after, heq, hbefore, hk⟩ := h
  exact .head' ⟨rule, before, after, hrule, heq, fun s hs => .inr (hbefore.of_mem hs)⟩ hk

theorem passes_leadsTo : Passes entries (LeadsTo entries m) := fun k _ hrule h =>
  ⟨[], k, [], rfl, .nil, (h.transGen hrule).to_reflTransGen⟩

/-! ### Repetitions -/

/-- Every repetition in an expression goes under a name that has all rules it offers, if
    the expression does. -/
theorem Within.offers (h : Within (.many body) e) : ∀ n rules,
    Offers g (Rewrites entries) n e rules → (∀ rule ∈ rules, Rewrites entries n rule) →
    ∃ k rules', Offers g (Rewrites entries) k (.many body) rules' ∧
      ∀ rule ∈ rules', Rewrites entries k rule := by
  induction h with
  | whole => exact fun n rules hoffers hrules => ⟨n, rules, hoffers, hrules⟩
  | seq he hwithin ih =>
    intro n rules hoffers _
    cases hoffers with
    | seq hparts =>
      obtain ⟨before, after, rfl⟩ := List.append_of_mem he
      obtain ⟨β, γ, -, -, hγ⟩ := hparts.append_inv
      obtain ⟨s, δ, -, hs, -⟩ := hγ.cons_inv
      rcases hs.single_cases with ⟨rfl, -⟩ | ⟨k, -, rules', hoffers', hrules'⟩
      · cases hwithin
      · exact ih k rules' hoffers' fun rule hrule => (hrules' rule).2 hrule
  | choice he hwithin ih =>
    intro n rules hoffers hrules
    cases hoffers with
    | choice hany =>
      rcases hany.of_mem he with ⟨-, rules', hoffers', hsub⟩ | ⟨k, ⟨rules', hoffers', hrules'⟩, -⟩
      · exact ih n rules' hoffers' fun rule hrule => hrules rule (hsub rule hrule)
      · exact ih k rules' hoffers' fun rule hrule => (hrules' rule).2 hrule
  | many hwithin ih =>
    intro n rules hoffers _
    cases hoffers with
    | many hs =>
      rcases hs.single_cases with ⟨rfl, -⟩ | ⟨k, -, rules', hoffers', hrules'⟩
      · cases hwithin
      · exact ih k rules' hoffers' fun rule hrule => (hrules' rule).2 hrule
  | optional _ ih =>
    intro n rules hoffers hrules
    cases hoffers with
    | optional hbody =>
      exact ih n _ hbody fun rule hrule => hrules rule (List.mem_append_left _ hrule)

/-! ### Lowered expressions -/

section Lowered

variable (hall : ∀ n e, g.find? n = some e → Stands g (Rewrites entries) n e)

include hall

/-- What may be empty by its form offers a rule that derives the empty text. -/
theorem Erasable.offers (h : Erasable g e) : OffersSome g entries (Vanishes entries) e := by
  induction h with
  | name he _ ih =>
    intro n rules hoffers
    cases hoffers
    obtain ⟨rule, hrule, hvanish⟩ := ih.of_stands (hall _ _ he)
    exact ⟨_, List.mem_singleton_self _, .cons hrule hvanish .nil⟩
  | seq _ ih =>
    intro n rules hoffers
    cases hoffers with
    | seq hparts => exact ⟨_, List.mem_singleton_self _, vanishes_of_spells ih hparts⟩
  | choice he _ ih =>
    intro n rules hoffers
    cases hoffers with
    | choice hany => exact ih.of_mem passes_vanishes hany he
  | many =>
    intro n rules hoffers
    cases hoffers with
    | many => exact ⟨.epsilon, List.mem_cons_of_mem _ (List.mem_singleton_self _), .nil⟩
  | optional =>
    intro n rules hoffers
    cases hoffers with
    | optional => exact ⟨.epsilon, List.mem_append_right _ (List.mem_singleton_self _), .nil⟩

/-- A name at the left edge of an expression is what one of its rules leads to. -/
theorem AtEdge.offers (h : AtEdge g m e) : OffersSome g entries (LeadsTo entries m) e := by
  induction h with
  | symbol =>
    intro n rules hoffers
    cases hoffers
    exact ⟨_, List.mem_singleton_self _, [], m, [], rfl, .nil, .refl⟩
  | seq hbefore _ ih =>
    intro n rules hoffers
    cases hoffers with
    | seq hparts =>
      obtain ⟨β, γ, rfl, hβ, hγ⟩ := hparts.append_inv
      obtain ⟨s, δ, rfl, hs, -⟩ := hγ.cons_inv
      refine ⟨_, List.mem_singleton_self _, ?_⟩
      have hvanish := vanishes_of_spells (fun e' he' => (hbefore e' he').offers hall) hβ
      exact ((ih.of_spells passes_leadsTo hs).append).behind hvanish
  | choice he _ ih =>
    intro n rules hoffers
    cases hoffers with
    | choice hany => exact ih.of_mem passes_leadsTo hany he
  | many _ ih =>
    intro n rules hoffers
    cases hoffers with
    | many hs => exact ⟨_, List.mem_cons_self, (ih.of_spells passes_leadsTo hs).append⟩
  | optional _ ih =>
    intro n rules hoffers
    cases hoffers with
    | optional hbody =>
      obtain ⟨rule, hrule, hleads⟩ := ih n _ hbody
      exact ⟨rule, List.mem_append_left _ hrule, hleads⟩

/-- Names that are linked by left edges begin with each other. -/
theorem Grammar.LeftEdge.transGen (h : g.LeftEdge n m) : TransGen (BeginsWith entries) n m := by
  obtain ⟨e, he, hedge⟩ := h
  obtain ⟨rule, hrule, hleads⟩ := (hedge.offers hall).of_stands (hall n e he)
  exact hleads.transGen hrule

theorem transGen_of_leftEdges (h : TransGen g.LeftEdge n m) :
    TransGen (BeginsWith entries) n m := by
  induction h with
  | single hedge => exact hedge.transGen hall
  | tail _ hedge ih => exact ih.trans (hedge.transGen hall)

/-- The name of a repetition begins with itself if what is repeated may be empty. -/
theorem Erasable.exists_beginsWith_self (h : Erasable g body) (hwithin : Within (.many body) e)
    (he : Stands g (Rewrites entries) n e) : ∃ k, BeginsWith entries k k := by
  obtain ⟨rules, hoffers, hrules⟩ := he
  obtain ⟨k, rules', hmany, hrules'⟩ :=
    hwithin.offers n rules hoffers fun rule hrule => (hrules rule).2 hrule
  cases hmany with
  | @many _ _ s hs =>
    have hvanish : Vanishes entries [s] := (h.offers hall).of_spells passes_vanishes hs
    exact ⟨k, _, [s], [], hrules' _ List.mem_cons_self, rfl, fun s' hs' =>
      .inr (hvanish.of_mem hs')⟩

end Lowered

namespace Grammar

/-- No grammar is accepted that is left recursive. -/
theorem flatten_eq_error_of_leftRecursive (hg : g.Closed) (h : g.LeftRecursive) :
    ∃ err, g.flatten = .error err := by
  cases hflatten : g.flatten with
  | error err => exact ⟨err, rfl⟩
  | ok f =>
    have hall : ∀ n e, g.find? n = some e → Stands g (Rewrites f.entries) n e :=
      fun n e he => stands hg hflatten he
    have hacyclic := (Flat.Grammar.Analysed.of_flatten hflatten).not_transGen
    rcases h with ⟨⟨n, e⟩, hrule, body, hwithin, herasable⟩ | ⟨n, hcircle⟩
    · obtain ⟨k, hk⟩ := herasable.exists_beginsWith_self hall hwithin
        (hall n e (g.find?_eq_some_iff.2 hrule))
      exact absurd (.single hk) (hacyclic k)
    · exact absurd (transGen_of_leftEdges hall hcircle) (hacyclic n)

/-- `S` begins with `T` past an option in parentheses, and `T` with `S` past another one. -/
def pastOptions : Grammar :=
  ⟨[("S", .seq [.seq [.optional (.symbol (.terminal ⟨'-', []⟩))],
      .many (.symbol (.nonTerminal "T")), .symbol (.terminal ⟨'.', []⟩)]),
    ("T", .choice [.symbol (.terminal ⟨'t', []⟩),
      .seq [.optional (.symbol (.terminal ⟨'t', []⟩)), .symbol (.nonTerminal "S")]])], by decide⟩

/-- A repetition of an option. -/
def blanks : Grammar :=
  ⟨[("S", .seq [.symbol (.terminal ⟨'a', []⟩),
    .many (.optional (.symbol (.terminal ⟨' ', []⟩)))])], by decide⟩

theorem flatten_eq_error_of_leftRecursive_pastOptions :
    (pastOptions.Closed ∧ pastOptions.LeftRecursive ∧ ∃ err, pastOptions.flatten = .error err) ∧
      blanks.Closed ∧ blanks.LeftRecursive ∧ ∃ err, blanks.flatten = .error err := by
  have hclosed : pastOptions.Closed := by decide
  have hclosed' : blanks.Closed := by decide
  have hST : pastOptions.LeftEdge "S" "T" := by
    refine ⟨_, rfl, @AtEdge.seq _ _ [_] _ [_] (List.forall_mem_singleton.2 ?_) (.many .symbol)⟩
    exact .seq (List.forall_mem_singleton.2 .optional)
  have hTS : pastOptions.LeftEdge "T" "S" := by
    refine ⟨_, rfl, .choice (List.mem_cons_of_mem _ List.mem_cons_self) ?_⟩
    exact @AtEdge.seq _ _ [_] _ [] (List.forall_mem_singleton.2 .optional) .symbol
  have hcircle : pastOptions.LeftRecursive := .inr ⟨"S", .tail (.single hST) hTS⟩
  have hrepeats : blanks.LeftRecursive :=
    .inl ⟨_, List.mem_cons_self, _, .seq (List.mem_cons_of_mem _ List.mem_cons_self) .whole,
      .optional⟩
  exact ⟨⟨hclosed, hcircle, flatten_eq_error_of_leftRecursive hclosed hcircle⟩,
    hclosed', hrepeats, flatten_eq_error_of_leftRecursive hclosed' hrepeats⟩

end Grammar

end Ramify.Ebnf
