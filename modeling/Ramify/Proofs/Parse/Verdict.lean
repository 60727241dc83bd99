import Ramify.Proofs.Parse.Halting
import Ramify.Proofs.Parse.Harvest
import Ramify.Proofs.Search.Crew

/-!
# What a parser says

A search generation by generation finds an attempt that completes the start
symbol if the machine can build anything at all from a beginning of the text,
and otherwise comes to the end of all attempts; what it finds took the fewest
steps (`Hosts.ends`). So a parser either returns the picture of what was built, or
rejects the text (`Parser.parsed`); it rejects it only if the start symbol derives
no beginning of the text (`Plan.accepts_iff`).
-/

namespace Ramify

open Flat (Derives)
open Search (Leads)

namespace Parse

section Search

variable {σ : Type} {m : Machine} {memo : Flat.Memo} {start : Symbol} {w : List Char}
  {s : Shared σ} {a : Attempt} {u : State} {t : Solo.State} {k : Nat}

/-- A state has completed the start symbol, with something that the machine can
    build. -/
def Completes (m : Machine) (start : Symbol) (w : List Char) (u : State) (s : Shared σ) : Prop :=
  ∃ a v rest, u = .accepted a ∧ m.Grows [start] [v] w rest ∧
    Hosts w s [(.accepted a, .accepted ⟨⟨⟨"", ⟨[start]⟩⟩, [v]⟩, [], rest⟩)]

/-- How a search of at most `limit` generations for a start symbol ends. What it
    finds takes no more steps than anything else that the machine can build. -/
inductive Ends (m : Machine) (start : Symbol) (w : List Char) (limit : Nat) :
    Search.Outcome State Fault × Shared σ → Prop
  | found {a : Attempt} {v : Sight} {rest : List Char} {s : Shared σ} :
    m.Grows [start] [v] w rest →
    Hosts w s [(.accepted a, .accepted ⟨⟨⟨"", ⟨[start]⟩⟩, [v]⟩, [], rest⟩)] → toll v < limit →
    (∀ v' rest', m.Grows [start] [v'] w rest' → toll v ≤ toll v') →
    Ends m start w limit (.found (.accepted a), s)
  | exhausted {s : Shared σ} : (∀ v rest, ¬m.Grows [start] [v] w rest) →
    Ends m start w limit (.exhausted, s)
  | stopped {s : Shared σ} : (∀ v rest, m.Grows [start] [v] w rest → limit ≤ toll v) →
    Ends m start w limit (.stopped, s)

/-- A success that was reached has completed the start symbol. -/
theorem Hosts.completes (h : Hosts w s [(u, t)])
    (hlead : Leads Solo.State.kind (Solo.next m) k (.running (Solo.begin start w)) t)
    (hsucc : t.kind = .success) : Completes m start w u s := by
  cases h.stands _ List.mem_cons_self with
  | running | failed => cases hsucc
  | @accepted a b _ =>
    obtain ⟨v, hb, hv, -⟩ := Solo.leads_accepted_iff.1 hlead
    rw [hb] at h
    exact ⟨a, v, b.rest, rfl, hv, h⟩

/-- What the machine can build takes one step more than its toll to be accepted. -/
theorem leads_of_build {v : Sight} {rest : List Char} (hv : m.Grows [start] [v] w rest) :
    Leads Solo.State.kind (Solo.next m) (toll v + 1) (.running (Solo.begin start w))
      (.accepted ⟨⟨⟨"", ⟨[start]⟩⟩, [v]⟩, [], rest⟩) :=
  Solo.leads_accepted_iff.2 ⟨v, rfl, hv, rfl⟩

theorem Hosts.ends (h : Hosts w s [(.running a, .running (Solo.begin start w))]) (limit : Nat) :
    Ends m start w limit (Search.Breadth.run m.automaton limit (.running a) s) := by
  obtain ⟨o, hagree, hended⟩ := h.exists_ended (m := m) limit
  generalize Search.Breadth.run m.automaton limit (.running a) s = r at hagree ⊢
  obtain ⟨_, s'⟩ := r
  cases hagree with
  | found hu =>
    cases hended with
    | @found k _ _ hs hle hlead hsucc hapart =>
      rw [List.mem_singleton.1 hs] at hlead
      cases hu.stands _ List.mem_cons_self with
      | running | failed => cases hsucc
      | @accepted a' b _ =>
        obtain ⟨v, hb, hv, rfl⟩ := Solo.leads_accepted_iff.1 hlead
        rw [hb] at hu
        refine .found hv hu hle fun v' rest' hv' => ?_
        exact Nat.le_of_succ_le_succ (hapart _ List.mem_cons_self _ _ (leads_of_build hv') rfl)
  | exhausted =>
    cases hended with
    | exhausted hnone =>
      exact .exhausted fun v rest hv => hnone _ List.mem_cons_self _ _ (leads_of_build hv) rfl
  | failed =>
    cases hended with
    | failed hs hlead _ herr =>
      rw [List.mem_singleton.1 hs] at hlead
      -- Attempts on their own do not fail.
      obtain ⟨us, hus⟩ := Solo.exists_next_eq_ok hlead
      exact nomatch hus.symm.trans herr
  | stopped =>
    cases hended with
    | stopped _ _ hapart =>
      refine .stopped fun v rest hv => ?_
      exact Nat.le_of_succ_le_succ (hapart _ List.mem_cons_self _ _ (leads_of_build hv) rfl)

/-- A crew finds nothing but states that completed the start symbol, whatever
    its schedule. -/
theorem Hosts.completes_of_verdict (h : Hosts w s [(.running a, .running (Solo.begin start w))])
    {schedule : List Search.Turn}
    (hverdict : (Search.Crew.run m.automaton schedule (.start (.running a) s)).verdict =
      some (.found u)) :
    Completes m start w u (Search.Crew.run m.automaton schedule (.start (.running a) s)).world := by
  -- Being reached from the first attempt is what all steps preserve.
  obtain ⟨t, ht, ⟨k, hlead⟩, hsucc⟩ := (simulates m w).of_verdict
    (P := fun t => ∃ k, Leads Solo.State.kind (Solo.next m) k (.running (Solo.begin start w)) t)
    (fun t ⟨k, hlead⟩ hk => by
      obtain ⟨ts, hts⟩ := Solo.exists_next_eq_ok hlead
      exact ⟨ts, hts, fun u hu => ⟨k + 1, hlead.trans (.single hk hts hu)⟩⟩)
    h ⟨0, .refl _⟩ rfl hverdict
  exact ht.completes hlead hsucc

end Search

end Parse

open Parse

namespace Parser

section Conclude

variable {σ : Type} {p : Parser} {tape : Fork.Tape σ Char} {length : Nat} {s : Shared σ}
  {a : Attempt} {v : Sight} {w rest : List Char} {errorOf : σ → Option ParseError}

/-- What a parser makes of the end of its search. -/
def conclude (p : Parser) (errorOf : σ → Option ParseError) :
    Search.Outcome State Fault × Shared σ → Except ParseError ParseResult
  | (.failed f, _) => .error (.fault f)
  | (outcome, s) =>
    match errorOf s.tape.state with
    | some e => .error e
    | none =>
      match treeOf s outcome with
      | .error f => .error (.fault f)
      | .ok tree? => .ok ⟨tree?.map (Pass.applyAll p.passes), s.transitions, s.forks⟩

theorem run_eq_conclude (hbegin : begin p.start tape 0 = .ok (a, s)) :
    p.run tape length errorOf =
      p.conclude errorOf (p.search (stepLimit p.grammar length) (.running a) s) := by
  rw [run, hbegin]
  dsimp only
  generalize p.search (stepLimit p.grammar length) (.running a) s = r
  obtain ⟨outcome, s'⟩ := r
  cases outcome <;> rfl

theorem parse_eq_conclude {s : Shared (List Char)} {text : String}
    (hbegin : begin p.start (.new Fork.Tape.fromList text.toList) 0 = .ok (a, s)) :
    p.parse text = p.conclude (fun _ => none)
      (p.search (stepLimit p.grammar text.toList.length) (.running a) s) := by
  rw [parse, parseChars, Fork.Tape.ofList, run_eq_conclude hbegin]

theorem search_of_sequential (hseq : p.settings.strategy = .sequential) (limit : Nat)
    (start : State) (s : Shared σ) :
    p.search limit start s = Search.Breadth.run p.machine.automaton limit start s := by
  rw [search, hseq]

/-- A success is a tree, if the source has not failed. -/
theorem conclude_accepted {site : Parse.Site} (hv : p.machine.Grows [p.start] [v] w rest)
    (h : Hosts w s [(.accepted a, .accepted ⟨⟨site, [v]⟩, [], rest⟩)])
    (herror : errorOf s.tape.state = none) :
    p.conclude errorOf (.found (.accepted a), s) =
      .ok ⟨some (Pass.applyAll p.passes (picture v)), s.transitions, s.forks⟩ := by
  dsimp only [conclude, treeOf]
  rw [herror, harvest_eq_ok h rfl hv.solid]
  rfl

end Conclude

variable {p : Parser} {memo : Flat.Memo}

/-- What a parser makes of a text, given what its machine can build: the picture of
    what takes the fewest steps. -/
inductive Says (p : Parser) (w : List Char) : Option Tree → Prop
  | tree {v : Sight} {rest : List Char} : p.machine.Grows [p.start] [v] w rest →
    (∀ v' rest', p.machine.Grows [p.start] [v'] w rest' → toll v ≤ toll v') →
    Says p w (some (Pass.applyAll p.passes (picture v)))
  | none : (∀ v rest, ¬p.machine.Grows [p.start] [v] w rest) → Says p w none

theorem parsed (hg : p.grammar.Made memo) (hseq : p.settings.strategy = .sequential)
    (text : String) : ∃ result, p.parse text = .ok result ∧ p.Says text.toList result.tree? := by
  obtain ⟨a, s, hbegin, h⟩ := hosts_begin (Fork.Tape.yields_fromList text.toList) p.start
  have hends := h.ends (m := p.machine) (stepLimit p.grammar text.toList.length)
  have hgoes : (Search.Breadth.run p.machine.automaton (stepLimit p.grammar text.toList.length)
      (.running a) s).1 ≠ .stopped := h.run_ne_stopped hg (Nat.le_refl _)
  rw [parse_eq_conclude hbegin, search_of_sequential hseq]
  generalize Search.Breadth.run p.machine.automaton (stepLimit p.grammar text.toList.length)
    (.running a) s = r at hends hgoes ⊢
  cases hends with
  | found hv h' _ hleast => exact ⟨_, conclude_accepted hv h' rfl, .tree hv hleast⟩
  | exhausted hnone => exact ⟨_, rfl, .none hnone⟩
  | stopped => exact absurd rfl hgoes

end Parser

/-- A built parser with its parts. -/
theorem Plan.build_eq_ok {p : Plan} {parser : Parser} (h : p.build = .ok parser) :
    p.flatten = .ok parser.grammar ∧ parser.follow = .compute parser.grammar p.start ∧
      parser.start = p.start ∧ parser.settings = p.settings ∧
      parser.passes = unfolding p.settings parser.grammar ++ p.passes := by
  rw [build] at h
  split at h
  · cases h
  · rename_i g hflat
    split at h
    · cases h
    · cases h
      exact ⟨hflat, rfl, rfl, rfl, rfl⟩

/-- A name to start with has rules. -/
theorem Plan.contains_of_build {p : Plan} {parser : Parser} {n : String}
    (h : p.build = .ok parser) (hstart : p.start = .nonTerminal n) :
    parser.grammar.contains n := by
  rw [build] at h
  split at h
  · cases h
  · split at h
    · cases h
    · rename_i hnone
      cases h
      rw [hstart, Symbol.name?, Option.filter_eq_none_iff] at hnone
      simpa using hnone n rfl

/-- A parser is built for an analysed grammar. -/
theorem Plan.analysed_of_build {p : Plan} {parser : Parser}
    (hflat : ∀ g, p.rules = .flat g → g.Analysed) (h : p.build = .ok parser) :
    parser.grammar.Analysed := by
  have hflatten := (build_eq_ok h).1
  rw [flatten] at hflatten
  split at hflatten
  · exact .of_flatten hflatten
  · rename_i g hrules
    obtain rfl := Except.ok.inj hflatten
    exact hflat _ hrules

/-- A parser that searches generation by generation accepts a text if its start
    symbol derives a beginning of it, and otherwise rejects it without an error.
    Only derivations count in which no name that consumes nothing has the end of
    input below it. -/
theorem Plan.accepts_iff {p : Plan} {parser : Parser}
    (hflat : ∀ g, p.rules = .flat g → g.Analysed) (hbuild : p.build = .ok parser)
    (hseq : p.settings.strategy = .sequential) (text : String) :
    ∃ result, parser.parse text = .ok result ∧
      (result.tree?.isSome ↔ ∃ t rest,
        Derives parser.grammar [p.start] [t] text.toList rest ∧ t.Grounded) := by
  obtain ⟨-, hfollow, hstart, hsettings, -⟩ := build_eq_ok hbuild
  obtain ⟨memo, hg⟩ := (analysed_of_build hflat hbuild).made
  rw [← hsettings] at hseq
  obtain ⟨⟨tree?, transitions, forks⟩, hparse, hsays⟩ := Parser.parsed hg hseq text
  refine ⟨_, hparse, ?_⟩
  dsimp only at hsays ⊢
  have hgrows : ∀ rest, (∃ v, parser.machine.Grows [p.start] [v] text.toList rest) ↔
      ∃ t, Derives parser.grammar [p.start] [t] text.toList rest ∧ t.Grounded := fun rest =>
    exists_grows_iff hg hfollow
  rw [← hstart] at hgrows
  rw [← hstart]
  cases hsays with
  | @tree v rest hv _ =>
    obtain ⟨t, ht⟩ := (hgrows rest).1 ⟨v, hv⟩
    exact ⟨fun _ => ⟨t, rest, ht⟩, fun _ => rfl⟩
  | none hnone =>
    refine ⟨fun h => (nomatch h), ?_⟩
    rintro ⟨t, rest, ht⟩
    obtain ⟨v, hv⟩ := (hgrows rest).2 ⟨t, ht⟩
    exact absurd hv (hnone v rest)

/-- A parser for texts of nothing but parentheses. -/
def Plan.onlyParentheses : Plan :=
  ⟨.extended ⟨("Text", .seq [.symbol (.nonTerminal "S"), .symbol .endOfInput]) ::
    Parse.parentheses.rules, by decide⟩, .nonTerminal "Text", ⟨.sequential, false⟩, []⟩

/-- The tree that a parser returns for a text, if there is one. -/
def Parser.treeFor? (p : Parser) (text : String) : Option Tree :=
  (p.parse text).toOption.bind ParseResult.tree?

theorem Parser.treeFor?_eq_some {p : Parser} {text : String} {t : Tree} :
    p.treeFor? text = some t ↔ ∃ result, p.parse text = .ok result ∧ result.tree? = some t := by
  rw [treeFor?]
  cases p.parse text <;> simp [Except.toOption]

/-- Parentheses are accepted if all of them are closed, and otherwise rejected. -/
theorem Plan.accepts_iff_onlyParentheses : ∃ parser, Plan.onlyParentheses.build = .ok parser ∧
    (∃ result, parser.parse "(())" = .ok result ∧ result.tree?.isSome ∧ ∃ t rest,
      Derives parser.grammar [.nonTerminal "Text"] [t] "(())".toList rest ∧ t.Grounded) ∧
    ∃ result, parser.parse "(()" = .ok result ∧ result.tree? = none ∧ ¬∃ t rest,
      Derives parser.grammar [.nonTerminal "Text"] [t] "(()".toList rest ∧ t.Grounded := by
  obtain ⟨parser, hbuild, haccepts, hrejects⟩ : ∃ parser,
      Plan.onlyParentheses.build = .ok parser ∧ (parser.treeFor? "(())").isSome ∧
        (parser.treeFor? "(()").isNone := ⟨_, rfl, by decide +kernel, by decide +kernel⟩
  have hiff := accepts_iff (fun _ => Plan.Rules.noConfusion) hbuild rfl
  obtain ⟨closed, hclosed, hderived⟩ := hiff "(())"
  obtain ⟨unclosed, hunclosed, hnone⟩ := hiff "(()"
  rw [Parser.treeFor?, hclosed] at haccepts
  rw [Parser.treeFor?, hunclosed] at hrejects
  have hrejected : unclosed.tree? = none := Option.isNone_iff_eq_none.1 hrejects
  rw [hrejected] at hnone
  exact ⟨parser, hbuild, ⟨closed, hclosed, haccepts, hderived.1 haccepts⟩, unclosed, hunclosed,
    hrejected, fun h => Bool.false_ne_true (hnone.2 h)⟩

end Ramify
