import Ramify.Proofs.Parse.Genuine
import Ramify.Proofs.Search.Lockstep

/-!
# The shortest parse wins

Attempts take their steps in turn, so the one that completes the start symbol first
took the fewest steps. How many it took is told by the tree that is harvested from it:
one for each leaf, two for each branch, which is opened and closed, and one more to
be accepted (`Machine.Grows.tolls_eq`). So the tree that a parser returns costs no
more than any other derivation of a beginning of the text, and the search is over in
the generation that this cost tells (`Plan.shortest`).
-/

namespace Ramify

open Parse
open Flat (Derives)
open Search (Breadth.run)

/-- What the machine builds takes as many steps as its picture costs. -/
theorem Parse.Machine.Grows.tolls_eq {m : Machine} {α : List Symbol} {vs : List Sight}
    {i r : List Char} (h : m.Grows α vs i r) : tolls vs = Tree.costs (pictures vs) := by
  induction h with
  | nil => rfl
  | endOfInput _ ih | terminal _ ih =>
    rw [tolls, ih]
    rfl
  | charClass _ _ ih =>
    rw [tolls, ih, pictures, picture, toLeaf_charClass]
    rfl
  | @nonTerminal n rule _ us _ _ _ _ _ _ _ ihu ih =>
    have hcost : (picture (.branch ⟨n, rule⟩ us)).cost = 2 + Tree.costs (pictures us) := by
      cases us with
      | nil => rfl
      | cons u us => rw [picture, Tree.cost]
    rw [tolls, toll, ihu, ih, pictures, Tree.costs, hcost]

theorem Parse.Machine.Grows.toll_eq {m : Machine} {start : Symbol} {v : Sight} {i r : List Char}
    (h : m.Grows [start] [v] i r) : toll v = (picture v).cost := by
  have htolls := h.tolls_eq
  rwa [tolls, tolls, pictures, pictures, Tree.costs, Tree.costs] at htolls

/-- What a search finds when it is given enough generations is found by no fewer than
    it takes steps, and by any number above. -/
theorem Parse.Hosts.found_iff {σ : Type} {m : Machine} {start : Symbol} {w rest : List Char}
    {s s' : Shared σ} {a a' : Attempt} {v : Sight} {limit : Nat}
    (h : Hosts w s [(.running a, .running (Solo.begin start w))])
    (hfound : Breadth.run m.automaton limit (.running a) s = (.found (.accepted a'), s'))
    (hv : m.Grows [start] [v] w rest)
    (hleast : ∀ v' rest', m.Grows [start] [v'] w rest' → toll v ≤ toll v') (limit' : Nat) :
    (limit' ≤ toll v → (Breadth.run m.automaton limit' (.running a) s).1 = .stopped) ∧
      (toll v < limit' → Breadth.run m.automaton limit' (.running a) s =
        (.found (.accepted a'), s')) := by
  have hends := h.ends (m := m) limit'
  constructor
  · intro hle
    generalize Breadth.run m.automaton limit' (.running a) s = r at hends ⊢
    cases hends with
    | found hv' _ hlt => exact absurd (hleast _ _ hv') (by omega)
    | exhausted hnone => exact absurd hv (hnone _ _)
    | stopped => rfl
  · intro hlt
    rw [← hfound]
    refine Search.Breadth.run_eq_of_ne_stopped (fun hstop => ?_) (by rw [hfound]; exact nofun)
    generalize Breadth.run m.automaton limit' (.running a) s = r at hends hstop
    cases hends with
    | found | exhausted => cases hstop
    | stopped hfar => exact absurd (hfar _ _ hv) (Nat.not_le_of_lt hlt)

variable {p : Plan} {parser : Parser} {text : String} {result : ParseResult} {t : Tree}

/-- The tree that is returned without unfolding and passes costs no more than any
    derivation of a beginning of the text, where branches that consume nothing count
    as placeholders. It is found in the generation of one step more than its cost. -/
theorem Plan.shortest (hflat : ∀ g, p.rules = .flat g → g.Analysed)
    (hbuild : p.build = .ok parser) (hseq : p.settings.strategy = .sequential)
    (hfold : p.settings.unfoldSynthetic = false) (hpasses : p.passes = [])
    (hparse : parser.parse text = .ok result) (ht : result.tree? = some t) :
    (∀ d rest, Derives parser.grammar [p.start] [d] text.toList rest → d.Grounded →
      t.cost ≤ d.curtail.cost) ∧
    ∃ a s, begin p.start (.ofList text.toList) 0 = .ok (a, s) ∧ ∀ limit,
      (limit ≤ t.cost →
        (Breadth.run parser.machine.automaton limit (.running a) s).1 = .stopped) ∧
      (t.cost < limit → ∃ a' s',
        Breadth.run parser.machine.automaton limit (.running a) s = (.found (.accepted a'), s') ∧
        harvest s' a' = .ok t) := by
  obtain ⟨-, hfollow, hstart, hsettings, hpassed⟩ := build_eq_ok hbuild
  obtain ⟨memo, hg⟩ := (analysed_of_build hflat hbuild).made
  rw [unfolding, hfold, hpasses] at hpassed
  rw [← hsettings] at hseq
  rw [← hstart] at hfollow ⊢
  obtain ⟨a, s, hbegin, h⟩ := hosts_begin (Fork.Tape.yields_fromList text.toList) parser.start
  rw [Parser.parse_eq_conclude hbegin, Parser.search_of_sequential hseq] at hparse
  have hends := h.ends (m := parser.machine) (Parser.stepLimit parser.grammar text.toList.length)
  cases hrun : Breadth.run parser.machine.automaton
      (Parser.stepLimit parser.grammar text.toList.length) (.running a) s with
  | mk outcome s' =>
    rw [hrun] at hparse hends
    cases hends with
    | exhausted | stopped =>
      cases hparse
      cases ht
    | @found a' v rest _ hv hdone _ hleast =>
      rw [Parser.conclude_accepted hv hdone rfl, hpassed] at hparse
      cases hparse
      obtain rfl : picture v = t := Option.some.inj ht
      rw [← hv.toll_eq]
      refine ⟨fun d rest' hd hground => ?_, a, s, hbegin, fun limit => ?_⟩
      · -- The machine builds the other tree as well.
        obtain ⟨v', hv', hpicture⟩ := exists_grows_of_derives
          (m := parser.machine) hg hfollow hd hground
        rw [← hpicture, ← hv'.toll_eq]
        exact hleast v' rest' hv'
      · obtain ⟨hstop, hfound⟩ := h.found_iff hrun hv hleast limit
        exact ⟨hstop, fun hlt => ⟨a', s', hfound hlt, harvest_eq_ok hdone rfl hv.solid⟩⟩

/-- Two pairs of parentheses and the end of input cost 13: three branches, five leaves
    and a placeholder. -/
theorem Plan.shortest_onlyParentheses : ∃ parser result t,
    Plan.onlyParentheses.build = .ok parser ∧ parser.parse "(())" = .ok result ∧
    result.tree? = some t ∧ t.cost = 13 ∧
    (∀ d rest, Derives parser.grammar [.nonTerminal "Text"] [d] "(())".toList rest → d.Grounded →
      13 ≤ d.curtail.cost) ∧
    ∃ a s, begin (.nonTerminal "Text") (.ofList "(())".toList) 0 = .ok (a, s) ∧
      (Breadth.run parser.machine.automaton 13 (.running a) s).1 = .stopped ∧ ∃ a' s',
        Breadth.run parser.machine.automaton 14 (.running a) s = (.found (.accepted a'), s') ∧
        harvest s' a' = .ok t := by
  -- The parser is run once, to see what the tree costs.
  obtain ⟨parser, hbuild, hcosts⟩ : ∃ parser, Plan.onlyParentheses.build = .ok parser ∧
      (parser.treeFor? "(())").map Tree.cost = some 13 := ⟨_, rfl, by decide +kernel⟩
  obtain ⟨t, htree, hcost⟩ := Option.map_eq_some_iff.1 hcosts
  obtain ⟨result, hparse, ht⟩ := Parser.treeFor?_eq_some.1 htree
  obtain ⟨hleast, a, s, hbegin, hgenerations⟩ :=
    shortest (fun _ => Plan.Rules.noConfusion) hbuild rfl rfl rfl hparse ht
  refine ⟨parser, result, t, hbuild, hparse, ht, hcost, fun d rest hd hground => ?_, a, s, hbegin,
    (hgenerations 13).1 (Nat.le_of_eq hcost.symm), (hgenerations 14).2 ?_⟩
  · rw [← hcost]
    exact hleast d rest hd hground
  · rw [hcost]
    exact Nat.lt_succ_self 13

end Ramify
