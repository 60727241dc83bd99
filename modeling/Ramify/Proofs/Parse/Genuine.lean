import Mathlib
import Ramify.Proofs.Parse.Verdict

/-!
# The tree of a text

A tree that a parser returns, before any pass, is a derivation of what was
consumed (`Tree.Genuine`): all its branches have a rule of their name, the trees
below them are those that the symbols of the rule call for, and a name that
consumes nothing is cut off to a placeholder. It makes no difference how the
attempts are advanced (`Plan.genuine`), since a crew finds nothing that a single
attempt would not have built.
-/

namespace Ramify

open Parse

namespace Tree

/-- A tree is what a symbol calls for. -/
inductive Fits (g : Flat.Grammar) : Symbol → Tree → Prop
  | terminal {t : Terminal} : Fits g (.terminal t) (leaf (.terminal t))
  | charClass {k : CharClass} {c : Char} : k.accepts (some c) →
    Fits g (.charClass k) (leaf (.char k c))
  | endOfInput : Fits g .endOfInput (leaf .endOfInput)
  | branch {n : String} {rule : Flat.Rule} {ts : List Tree} :
    Fits g (.nonTerminal n) (branch n rule ts)
  | empty {n : String} : g.isNullable n → Fits g (.nonTerminal n) (leaf .empty)

/-- Every branch has a rule of its name, and below it what the rule calls for. -/
def Regular (g : Flat.Grammar) (t : Tree) : Prop :=
  ∀ n rule ts, Occurs (branch n rule ts) t → rule ≠ .epsilon ∧
    (∃ rules, g.rules? n = some rules ∧ rule ∈ rules) ∧ List.Forall₂ (Fits g) rule.symbols ts

/-- A tree is a derivation of a beginning of a text. -/
structure Genuine (g : Flat.Grammar) (start : Symbol) (text : String) (t : Tree) : Prop where
  /-- The tree is what the start symbol calls for. -/
  fits : t.Fits g start
  /-- The branches are those of rules. -/
  regular : t.Regular g
  /-- The text of the tree is a beginning of the text. -/
  begins : ∃ rest, text = t.text ++ rest
  /-- With the end of input, it is all of the text. -/
  ends : Occurs (leaf .endOfInput) t → t.text = text

theorem regular_leaf {g : Flat.Grammar} (l : Leaf) : (leaf l).Regular g := by
  intro n rule ts hocc
  cases occurs_leaf.1 hocc

theorem regular_branch {g : Flat.Grammar} {n : String} {rule : Flat.Rule} {ts : List Tree}
    (hne : rule ≠ .epsilon) (hrule : Flat.Rewrites g.entries n rule)
    (hfits : List.Forall₂ (Fits g) rule.symbols ts) (hts : ∀ t ∈ ts, t.Regular g) :
    (branch n rule ts).Regular g := by
  intro n' rule' ts' hocc
  rcases occurs_branch.1 hocc with heq | ⟨t, ht, hocc⟩
  · cases heq
    obtain ⟨p, hp, hmem⟩ := Flat.Grammar.rewrites_iff.1 hrule
    exact ⟨hne, ⟨p.rules, by rw [Flat.Grammar.rules?, hp, Option.map_some], hmem⟩, hfits⟩
  · exact hts t ht n' rule' ts' hocc

end Tree

namespace Parse.Machine.Grows

variable {m : Machine} {memo : Flat.Memo} {n : String} {rule : Flat.Rule} {α : List Symbol}
  {us vs : List Sight} {i j r : List Char}

/-- The picture of a name: a placeholder where nothing was derived, and a branch
    otherwise. -/
theorem picture_eq (hg : m.grammar.Made memo) (hmem : rule ∈ m.candidates n i.head?)
    (hus : m.Grows rule.symbols us i j) :
    (m.grammar.isNullable n ∧ i = j ∧ picture (.branch ⟨n, rule⟩ us) = .leaf .empty) ∨
      (rule ≠ .epsilon ∧ Flat.Rewrites m.grammar.entries n rule ∧
        picture (.branch ⟨n, rule⟩ us) = .branch n rule (pictures us)) := by
  rcases hg.mem_candidates_iff.1 (mem_candidates_iff.1 hmem).1 with
    ⟨c, -, hrule, hstarts⟩ | ⟨hnull, rfl⟩
  · right
    cases us with
    | nil =>
      -- A rule that can begin with a character is not empty.
      rw [List.length_eq_zero_iff.1 hus.length_eq.symm] at hstarts
      exact absurd hstarts Flat.not_starts_nil
    | cons u us =>
      refine ⟨?_, hrule, by rw [picture]⟩
      rintro rfl
      exact Flat.not_starts_nil hstarts
  · left
    cases hus
    exact ⟨hnull, rfl, by rw [picture]⟩

theorem fits (hg : m.grammar.Made memo) (h : m.Grows α vs i r) :
    List.Forall₂ (Tree.Fits m.grammar) α (pictures vs) := by
  induction h with
  | nil => exact .nil
  | endOfInput _ ih => exact .cons .endOfInput ih
  | charClass hk _ ih =>
    rw [pictures, picture, toLeaf_charClass]
    exact .cons (.charClass hk) ih
  | terminal _ ih => exact .cons .terminal ih
  | nonTerminal hmem hus _ _ ih =>
    rw [pictures]
    rcases picture_eq hg hmem hus with ⟨hnull, -, heq⟩ | ⟨-, -, heq⟩
    · rw [heq]
      exact .cons (.empty hnull) ih
    · rw [heq]
      exact .cons .branch ih

theorem regular (hg : m.grammar.Made memo) (h : m.Grows α vs i r) :
    ∀ t ∈ pictures vs, t.Regular m.grammar := by
  induction h with
  | nil => exact fun t ht => absurd ht List.not_mem_nil
  | endOfInput _ ih | terminal _ ih =>
    exact List.forall_mem_cons.2 ⟨Tree.regular_leaf _, ih⟩
  | charClass _ _ ih =>
    rw [pictures, picture, toLeaf_charClass]
    exact List.forall_mem_cons.2 ⟨Tree.regular_leaf _, ih⟩
  | nonTerminal hmem hus _ ihu ih =>
    rw [pictures]
    refine List.forall_mem_cons.2 ⟨?_, ih⟩
    rcases picture_eq hg hmem hus with ⟨-, -, heq⟩ | ⟨hne, hrule, heq⟩
    · rw [heq]
      exact Tree.regular_leaf _
    · rw [heq]
      exact Tree.regular_branch hne hrule (hus.fits hg) ihu

theorem covers (hg : m.grammar.Made memo) (h : m.Grows α vs i r) :
    Tree.Covers (pictures vs) i r := by
  induction h with
  | nil => exact .nil
  | endOfInput _ ih => exact .endOfInput ih
  | charClass _ _ ih =>
    rw [pictures, picture, toLeaf_charClass]
    exact ih.char
  | terminal _ ih => exact ih.terminal
  | nonTerminal hmem hus _ ihu ih =>
    rw [pictures]
    rcases picture_eq hg hmem hus with ⟨-, rfl, heq⟩ | ⟨-, -, heq⟩
    · rw [heq]
      exact .leaf Leaf.noConfusion ih
    · rw [heq]
      exact .branch ihu ih

/-- What the machine builds from a beginning of a text is a derivation of it. -/
theorem genuine_picture (hg : m.grammar.Made memo) {start : Symbol} {v : Sight} {text : String}
    {rest : List Char} (h : m.Grows [start] [v] text.toList rest) :
    (picture v).Genuine m.grammar start text := by
  have hcovers := h.covers hg
  have htext := hcovers.eq_text_append
  rw [pictures, pictures, List.map_singleton, String.join_cons, String.join_nil,
    String.append_empty] at htext
  refine ⟨?_, h.regular hg _ (List.mem_singleton_self _), ⟨String.ofList rest, ?_⟩, fun hocc => ?_⟩
  · cases h.fits hg with
    | cons hfits _ => exact hfits
  · rw [← String.toList_inj, String.toList_append, String.toList_ofList, htext]
  · have hrest := hcovers.eq_nil_of_occurs (List.mem_singleton_self _) hocc
    rw [hrest, List.append_nil] at htext
    exact String.toList_inj.1 htext.symm

end Parse.Machine.Grows

namespace Parser

variable {p : Parser} {memo : Flat.Memo} {σ : Type} {w : List Char} {s s' : Shared σ} {a : Attempt}

/-- A state that a search has found completed the start symbol. -/
theorem completes_of_search {u : State}
    (h : Hosts w s [(.running a, .running (Solo.begin p.start w))])
    (hsearch : p.search (stepLimit p.grammar w.length) (.running a) s = (.found u, s')) :
    Completes p.machine p.start w u s' := by
  rw [search] at hsearch
  split at hsearch
  · have hends := h.ends (m := p.machine) (stepLimit p.grammar w.length)
    rw [hsearch] at hends
    cases hends with
    | @found a v rest _ hv hdone => exact ⟨a, v, rest, rfl, hv, hdone⟩
  · rcases Search.Crew.search_eq rfl hsearch with hstop | ⟨schedule, hverdict, rfl⟩
    · cases hstop
    · exact h.completes_of_verdict hverdict

/-- A tree that is returned, whatever the strategy, is the picture of something
    the machine can build, after all passes. -/
theorem exists_grows {text : String} {result : ParseResult} {t : Tree}
    (h : p.parse text = .ok result) (ht : result.tree? = some t) :
    ∃ v rest, p.machine.Grows [p.start] [v] text.toList rest ∧
      t = Pass.applyAll p.passes (picture v) := by
  obtain ⟨a, s, hbegin, hhosts⟩ := hosts_begin (Fork.Tape.yields_fromList text.toList) p.start
  rw [parse_eq_conclude hbegin] at h
  cases hsearch : p.search (stepLimit p.grammar text.toList.length) (.running a) s with
  | mk outcome s' =>
    rw [hsearch] at h
    cases outcome with
    | found u =>
      obtain ⟨a', v, rest, rfl, hv, hdone⟩ := completes_of_search hhosts hsearch
      rw [conclude_accepted hv hdone rfl] at h
      cases h
      exact ⟨v, rest, hv, (Option.some.inj ht).symm⟩
    | exhausted | stopped =>
      cases h
      cases ht
    | failed f => cases h

end Parser

/-- Without unfolding and passes, the tree that a parser returns is a derivation
    of what was consumed. So is what can be harvested when a crew has found a
    success, by whatever schedule. -/
theorem Plan.genuine {p : Plan} {parser : Parser} (hflat : ∀ g, p.rules = .flat g → g.Analysed)
    (hbuild : p.build = .ok parser) (hfold : p.settings.unfoldSynthetic = false)
    (hpasses : p.passes = []) (text : String) :
    (∀ result t, parser.parse text = .ok result → result.tree? = some t →
      t.Genuine parser.grammar p.start text) ∧
    ∀ a s, begin p.start (.ofList text.toList) 0 = .ok (a, s) → ∀ schedule c u,
      Search.Crew.run parser.machine.automaton schedule (.start (.running a) s) = c →
      c.verdict = some (.found u) → ∃ a' t, u = .accepted a' ∧ harvest c.world a' = .ok t ∧
        t.Genuine parser.grammar p.start text := by
  obtain ⟨-, -, hstart, -, hpassed⟩ := build_eq_ok hbuild
  obtain ⟨memo, hg⟩ := (analysed_of_build hflat hbuild).made
  -- No passes are left that could change the tree.
  rw [unfolding, hfold, hpasses] at hpassed
  rw [← hstart]
  constructor
  · intro result t hparse ht
    obtain ⟨v, rest, hv, rfl⟩ := Parser.exists_grows hparse ht
    rw [hpassed]
    exact hv.genuine_picture hg
  · rintro a s hbegin schedule c u rfl hverdict
    obtain ⟨a', s', hbegin', hhosts⟩ :=
      hosts_begin (Fork.Tape.yields_fromList text.toList) parser.start
    rw [Fork.Tape.ofList, hbegin'] at hbegin
    cases hbegin
    obtain ⟨a', v, rest, rfl, hv, hdone⟩ := hhosts.completes_of_verdict hverdict
    exact ⟨a', picture v, rfl, harvest_eq_ok hdone rfl hv.solid, hv.genuine_picture hg⟩

/-- The tree of two pairs of parentheses, one within the other. -/
def Tree.nestedPairs : Tree :=
  let pair (inner : Tree) : Tree :=
    .branch "S" ⟨[.terminal ⟨'(', []⟩, .nonTerminal "S", .terminal ⟨')', []⟩]⟩
      [.leaf (.terminal ⟨'(', []⟩), inner, .leaf (.terminal ⟨')', []⟩)]
  .branch "Text" ⟨[.nonTerminal "S", .endOfInput]⟩
    [pair (pair (.leaf .empty)), .leaf .endOfInput]

theorem Plan.genuine_onlyParentheses : ∃ parser result,
    Plan.onlyParentheses.build = .ok parser ∧ parser.parse "(())" = .ok result ∧
      result.tree? = some .nestedPairs ∧ Tree.nestedPairs.text = "(())" ∧
      Tree.nestedPairs.Genuine parser.grammar (.nonTerminal "Text") "(())" := by
  -- The parser is run once, to see its tree.
  obtain ⟨parser, hbuild, htree⟩ : ∃ parser, Plan.onlyParentheses.build = .ok parser ∧
      parser.treeFor? "(())" = some .nestedPairs := ⟨_, rfl, by cbv⟩
  obtain ⟨result, hparse, ht⟩ := Parser.treeFor?_eq_some.1 htree
  have hgenuine := (genuine (fun _ => Plan.Rules.noConfusion) hbuild rfl rfl "(())").1 result
    .nestedPairs hparse ht
  refine ⟨parser, result, hbuild, hparse, ht, hgenuine.ends ?_, hgenuine⟩
  exact Tree.occurs_branch.2 (.inr ⟨.leaf .endOfInput, by simp, Tree.occurs_leaf.2 rfl⟩)

end Ramify
