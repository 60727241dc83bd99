import Ramify.Proofs.Parse.Genuine
import Ramify.Proofs.Tree.Unfolding

/-!
# Parsing with and without unfolding

Passes are applied to the tree that was found, and have no say in which one that is
(`Parser.run_eq_of_passes`). So a parser that unfolds the branches of made-up names
accepts the same texts, and its tree is the other one unfolded.

The two trees have the same text whenever the start symbol is not a made-up name
itself. If it is, the root goes away, and with it all text but that of the first tree
in its place (`Plan.unfolding_text`).
-/

namespace Ramify

namespace Parser

variable {σ : Type} {p q : Parser}

/-- What a parser says is what another one says that differs in its passes alone
    and has none, but for the passes. -/
theorem run_eq_of_passes (hgrammar : p.grammar = q.grammar) (hfollow : p.follow = q.follow)
    (hstart : p.start = q.start) (hstrategy : p.settings.strategy = q.settings.strategy)
    (hpasses : q.passes = []) (tape : Fork.Tape σ Char) (length : Nat)
    (errorOf : σ → Option ParseError) :
    p.run tape length errorOf = (q.run tape length errorOf).map fun result =>
      { result with tree? := result.tree?.map (Pass.applyAll p.passes) } := by
  have hsearch : p.search = q.search (σ := σ) := by
    funext limit start s
    rw [search, search, hstrategy, machine, machine, hgrammar, hfollow]
  rw [run, run, hstart, hgrammar, hsearch, hpasses]
  split
  · rfl
  · split
    · rfl
    · split
      · rfl
      · split
        · rfl
        · rename_i tree? _
          cases tree? with
          | none => rfl
          | some t => rfl

end Parser

/-- A branch is what a name calls for. -/
theorem Tree.Fits.eq_nonTerminal {g : Flat.Grammar} {s : Symbol} {n : String} {rule : Flat.Rule}
    {ts : List Tree} (h : (Tree.branch n rule ts).Fits g s) : s = .nonTerminal n := by
  cases h
  rfl

namespace Plan

variable {p : Plan} {parser : Parser} {settings : Settings} {g : Flat.Grammar} {t : Tree}

/-- What unfolding leaves of the text is a beginning of it. -/
theorem exists_text_unfolding (settings : Settings) (g : Flat.Grammar) (t : Tree) :
    ∃ lost, t.text = (Pass.applyAll (unfolding settings g) t).text ++ lost := by
  rw [unfolding]
  split
  · exact Unfold.exists_text_apply g.syntheticNames t
  · exact ⟨"", String.append_empty.symm⟩

theorem text_unfolding_of_root (h : ∀ n rule ts, t = .branch n rule ts → n ∉ g.syntheticNames) :
    (Pass.applyAll (unfolding settings g) t).text = t.text := by
  rw [unfolding]
  split
  · exact Unfold.text_apply_of_root h
  · rfl

/-- A plan with the branches of made-up names unfolded, or not. -/
def withUnfolding (p : Plan) (unfold : Bool) : Plan :=
  { p with settings := { p.settings with unfoldSynthetic := unfold } }

/-- Whether to unfold makes no difference to what can be built. -/
theorem build_withUnfolding (h : p.build = .ok parser) (unfold : Bool) :
    ∃ q, (p.withUnfolding unfold).build = .ok q ∧ q.grammar = parser.grammar := by
  have hflatten : (p.withUnfolding unfold).flatten = p.flatten := rfl
  rw [build] at h ⊢
  rw [hflatten]
  split at h
  · cases h
  · split at h
    · cases h
    · rename_i hstart
      cases h
      dsimp only [withUnfolding]
      rw [hstart]
      exact ⟨_, rfl, rfl⟩

/-- With and without unfolding, a parser accepts the same texts. The tree that is
    not unfolded has the text that was consumed, the other one a beginning of it,
    and all of it unless a made-up name was started with. -/
theorem unfolding_text (hflat : ∀ g, p.rules = .flat g → g.Analysed) (hbuild : p.build = .ok parser)
    (hseq : p.settings.strategy = .sequential) (hpasses : p.passes = []) (text : String) :
    ∃ plain unfolding, (p.withUnfolding false).build = .ok plain ∧
      (p.withUnfolding true).build = .ok unfolding ∧
      ∃ result result', plain.parse text = .ok result ∧ unfolding.parse text = .ok result' ∧
        Option.Rel (fun t t' => (∃ rest, text = t.text ++ rest) ∧
          (∃ lost, t.text = t'.text ++ lost) ∧
          ((∀ n ∈ parser.grammar.syntheticNames, p.start ≠ .nonTerminal n) → t'.text = t.text))
          result.tree? result'.tree? := by
  obtain ⟨plain, hplain, hgrammar⟩ := build_withUnfolding hbuild false
  obtain ⟨unfolding, hunfolding, hgrammar'⟩ := build_withUnfolding hbuild true
  obtain ⟨-, hfollow, hstart, hsettings, hpassed⟩ := build_eq_ok hplain
  obtain ⟨-, hfollow', hstart', hsettings', hpassed'⟩ := build_eq_ok hunfolding
  obtain ⟨memo, hg⟩ := (analysed_of_build (p := p.withUnfolding false) hflat hplain).made
  have hnone : plain.passes = [] := by
    rw [hpassed]
    exact hpasses
  have hsome : unfolding.passes =
      Plan.unfolding (p.withUnfolding true).settings parser.grammar := by
    rw [hpassed', hgrammar']
    exact (congrArg (_ ++ ·) hpasses).trans (List.append_nil _)
  obtain ⟨result, hparse, hsays⟩ := Parser.parsed hg (by rw [hsettings]; exact hseq) text
  have hparse' : unfolding.parse text = .ok
      { result with tree? := result.tree?.map (Pass.applyAll unfolding.passes) } := by
    have hrun := Parser.run_eq_of_passes (p := unfolding) (q := plain)
      (by rw [hgrammar, hgrammar']) (by rw [hfollow, hfollow', hgrammar, hgrammar']; rfl)
      (by rw [hstart, hstart']; rfl) (by rw [hsettings, hsettings']; rfl) hnone
      (.ofList text.toList) text.toList.length fun _ => none
    exact hrun.trans (congrArg (Except.map _) hparse)
  refine ⟨plain, unfolding, hplain, hunfolding, result, _, hparse, hparse', ?_⟩
  generalize result.tree? = tree? at hsays
  cases hsays with
  | none => exact .none
  | @tree v rest hv =>
    have hgenuine := hv.genuine_picture hg
    rw [hnone, hsome]
    refine .some ⟨hgenuine.begins, exists_text_unfolding _ _ _, fun hkept => ?_⟩
    refine text_unfolding_of_root fun n rule ts hroot hn => hkept n hn ?_
    have hfits : (Tree.branch n rule ts).Fits plain.grammar plain.start := hroot ▸ hgenuine.fits
    exact hstart.symm.trans hfits.eq_nonTerminal

/-- The text of the tree that a parser returns. -/
def textOf? (p : Plan) (text : String) : Option String :=
  match p.build with
  | .error _ => none
  | .ok parser =>
    match parser.parse text with
    | .error _ => none
    | .ok result => result.tree?.map Tree.text

/-- Three letters in a row, of which two are put in parentheses. -/
def letters : Plan :=
  ⟨.extended ⟨[("S", .seq [.symbol (.terminal ⟨'a', []⟩),
    .seq [.symbol (.terminal ⟨'b', []⟩), .symbol (.terminal ⟨'c', []⟩)]])], by decide⟩,
    .nonTerminal "S", .standard, []⟩

theorem unfolding_text_letters : ∃ parser, letters.build = .ok parser ∧
    (∀ n ∈ parser.grammar.syntheticNames, letters.start ≠ .nonTerminal n) ∧
    ∃ plain unfolding, (letters.withUnfolding false).build = .ok plain ∧
      (letters.withUnfolding true).build = .ok unfolding ∧
      ∃ result result' t t', plain.parse "abc" = .ok result ∧ unfolding.parse "abc" = .ok result' ∧
        result.tree? = some t ∧ result'.tree? = some t' ∧ t'.text = t.text := by
  obtain ⟨parser, hbuild, hnames⟩ : ∃ parser, letters.build = .ok parser ∧
      parser.grammar.syntheticNames = ["S_0"] := ⟨_, rfl, rfl⟩
  have hkept : ∀ n ∈ parser.grammar.syntheticNames, letters.start ≠ .nonTerminal n := by
    rw [hnames]
    rintro n hn heq
    obtain rfl := Symbol.nonTerminal.inj heq
    exact absurd hn (by decide)
  -- The parser is run once, to see that there is a tree at all.
  have htext : (letters.withUnfolding false).textOf? "abc" = some "abc" := by decide +kernel
  obtain ⟨plain, unfolding, hplain, hunfolding, result, result', hparse, hparse', hrel⟩ :=
    unfolding_text (fun _ => Plan.Rules.noConfusion) hbuild rfl rfl "abc"
  rw [textOf?, hplain] at htext
  dsimp only at htext
  rw [hparse] at htext
  obtain ⟨t, ht, -⟩ := Option.map_eq_some_iff.1 htext
  refine ⟨parser, hbuild, hkept, plain, unfolding, hplain, hunfolding, result, result', t, ?_⟩
  rw [ht] at hrel
  cases h : result'.tree? with
  | none =>
    rw [h] at hrel
    cases hrel
  | some t' =>
    rw [h] at hrel
    cases hrel with
    | some hkeeps => exact ⟨t', hparse, hparse', ht, rfl, hkeeps.2.2 hkept⟩

/-- A parser that starts with the name made up for the parentheses loses a letter. -/
theorem not_forall_text_withUnfolding : ¬∀ (p : Plan) (text : String),
    p.settings.strategy = .sequential → p.passes = [] →
    (p.withUnfolding true).textOf? text = (p.withUnfolding false).textOf? text := by
  intro h
  have hplain : ({ letters with start := .nonTerminal "S_0" }.withUnfolding false).textOf? "bc" =
      some "bc" := by decide +kernel
  have hunfolding : ({ letters with start := .nonTerminal "S_0" }.withUnfolding true).textOf? "bc" =
      some "b" := by decide +kernel
  have heq := h { letters with start := .nonTerminal "S_0" } "bc" rfl rfl
  rw [hplain, hunfolding] at heq
  exact absurd heq (by decide)

end Plan

end Ramify
