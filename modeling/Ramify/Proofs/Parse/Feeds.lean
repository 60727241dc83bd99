import Ramify.Proofs.Parse.Calls
import Ramify.Proofs.Parse.Unfolding
import Ramify.Proofs.Source.Decoding

/-!
# Parsing what a source brings

What a source brings is decoded to a text, up to the end of the input or up to an
error. The parse of it goes as that of the text (`Parser.Twins`), and its result is
the same unless the error was noted down. That is so just if the chunk of characters
was asked for in which the text breaks off, that is, if some attempt at the text has
read it often enough (`Plan.parseFeed_eq`).

So the tree of a source that fails never has the end of input in it: an attempt that
has seen the end of the text has read one time more than there are characters.
-/

namespace Ramify

open Parse
open Source (Feed Reader)

/-- An attempt that has read a text to its end has made the tape go beyond it. -/
theorem Parse.Hosts.length_lt_filled {σ : Type} {w : List Char} {s : Shared σ}
    {guests : List Guest} {a : Attempt} {b : Solo}
    (h : Hosts w s ((.accepted a, .accepted b) :: guests)) (hrest : b.rest = []) :
    w.length < s.tape.filled := by
  obtain ⟨c, before, hu, hw, hreads⟩ := (Hosts.accepted_iff.1 h).2.tape.head
  have hle := h.tape.tells.reads hu
  rw [hw, hrest, List.append_nil]
  omega

namespace Parser

variable {p : Parser} {memo : Flat.Memo} {text : String} {feed : Feed} {e : Option ParseError}
  {err : ParseError} {σ τ : Type} {m : Machine} {start : Symbol} {limit : Nat}
  {outcome : Search.Outcome State Fault} {w : List Char}

/-- How often a text was read in the course of a parse: a number for each step of an
    attempt, which counts the reads of that attempt, the ones from before it was
    forked off included. The first number is that of the first character. -/
def callsOn (p : Parser) (text : String) : List Nat :=
  match begin p.start (.ofList text.toList) 0 with
  | .error _ => []
  | .ok (a, s) =>
    (Search.Breadth.run (p.machine.automaton.logging calls)
      (stepLimit p.grammar text.toList.length) (.running a) (s, [s.tape.readsOf a.cursor])).2.2

theorem callsOn_eq {a : Attempt} {s : Shared (List Char)}
    (hbegin : begin p.start (.new Fork.Tape.fromList text.toList) 0 = .ok (a, s)) :
    p.callsOn text = (Search.Breadth.run (p.machine.automaton.logging calls)
      (stepLimit p.grammar text.toList.length) (.running a)
      (s, [s.tape.readsOf a.cursor])).2.2 := by
  -- An equation for the definition would have the first chunk of the text evaluated.
  delta callsOn
  rw [Fork.Tape.ofList, hbegin]

/-- A parser that leaves the trees as they were found. -/
def raw (p : Parser) : Parser := { p with passes := [] }

theorem parseFeed_eq_map_raw (p : Parser) (feed : Feed) :
    p.parseFeed feed = (p.raw.parseFeed feed).map fun result =>
      { result with tree? := result.tree?.map (Pass.applyAll p.passes) } :=
  run_eq_of_passes (p := p) (q := p.raw) rfl rfl rfl rfl rfl _ _ _

theorem stepLimit_mono {g : Flat.Grammar} {n k : Nat} (h : n ≤ k) :
    stepLimit g n ≤ stepLimit g k := by
  rw [stepLimit, stepLimit]
  gcongr

/-! ### The end of a search -/

section Conclude

variable {s : Shared σ} {s' : Shared τ} {errorOf : σ → Option ParseError}
  {errorOf' : τ → Option ParseError} {origin : Fork.Tape σ Char} {origin' : Fork.Tape τ Char}

theorem parseFeed_eq_conclude {a : Attempt} {s : Shared Reader}
    (hbegin : begin p.start (.new Reader.next (.ofFeed feed)) 0 = .ok (a, s)) :
    p.parseFeed feed = p.conclude (·.error)
      (p.search (stepLimit p.grammar feed.byteCount) (.running a) s) := by
  rw [parseFeed, run_eq_conclude hbegin]

/-- A source that has failed is an error, whatever was found. -/
theorem conclude_of_error (hends : Ends m start w limit (outcome, s))
    (herror : errorOf s.tape.state = some err) : p.conclude errorOf (outcome, s) = .error err := by
  cases hends <;> (dsimp only [conclude]; rw [herror])

/-- What is made of the end of a search does not depend on the source unless it has
    failed. -/
theorem conclude_congr (h : s.Agrees origin origin' w s') (herror : errorOf s.tape.state = none)
    (herror' : errorOf' s'.tape.state = none) :
    p.conclude errorOf' (outcome, s') = p.conclude errorOf (outcome, s) := by
  have htree : treeOf s' outcome = treeOf s outcome := by
    rcases outcome with (a | a | _) | _ | _ | _
    case found.accepted => exact congrArg (Except.map some) (harvest_congr h.grove)
    all_goals rfl
  cases outcome with
  | failed f => rfl
  | found | exhausted | stopped =>
    dsimp only [conclude]
    rw [herror, herror', htree, h.transitions, h.forks]

end Conclude

/-! ### Two parses -/

/-- A parse of a text and one of what a source brings: their searches end with the same
    outcome in worlds that agree. -/
structure Twins (p : Parser) (text : String) (feed : Feed)
    (outcome : Search.Outcome State Fault) (s : Shared (List Char)) (s' : Shared Reader) :
    Prop where
  parse : p.parse text = p.conclude (fun _ => none) (outcome, s)
  parseFeed : p.parseFeed feed = p.conclude (·.error) (outcome, s')
  agrees : s.Agrees (.ofList text.toList) (.new Reader.next (.ofFeed feed)) text.toList s'
  logged : s.tape.Logged (p.callsOn text)
  ends : Ends p.machine p.start text.toList (stepLimit p.grammar feed.byteCount) (outcome, s')

theorem exists_twins (hg : p.grammar.Made memo) (hseq : p.settings.strategy = .sequential)
    (h : feed.Gives text.toList e) : ∃ outcome s s', Twins p text feed outcome s s' := by
  have hw := Fork.Tape.yields_fromList text.toList
  have hw' := Reader.yields h
  obtain ⟨a, s, hbegin, hhosts⟩ := hosts_begin hw p.start
  obtain ⟨s', hbegin', hagrees⟩ := begin_agrees hw hw' hbegin
  obtain ⟨a', s'', hbegin'', hhosts'⟩ := hosts_begin hw' p.start
  obtain ⟨rfl, rfl⟩ := Prod.mk.inj (Except.ok.inj (hbegin'.symm.trans hbegin''))
  -- There may be more bytes than characters, but no more steps are taken for that.
  have hlimit := stepLimit_mono (g := p.grammar) (Reader.length_le_byteCount h)
  have hlist := Search.Breadth.run_eq_of_le hlimit
    (hhosts.run_ne_stopped (m := p.machine) hg (Nat.le_refl _))
  obtain ⟨houtcome, hworld⟩ := @Search.Lockstep.run _ _ _ _ _ _ _ _
    (stepLimit p.grammar feed.byteCount) (.running a) _ (p.machine.lockstep _ _ _) hagrees
  obtain ⟨-, -, -, hlogged⟩ := @Search.Lockstep.run _ _ _ _ _ _
    (s, [s.tape.readsOf a.cursor]) _ (stepLimit p.grammar text.toList.length) (.running a) _
    (p.machine.lockstep_logging _ _) ⟨rfl, hagrees.tape.fed, begin_logged hw hbegin⟩
  have hparse := parse_eq_conclude hbegin
  have hparse' := parseFeed_eq_conclude hbegin'
  have hends := hhosts'.ends (m := p.machine) (stepLimit p.grammar feed.byteCount)
  rw [search_of_sequential hseq] at hparse hparse'
  rw [← callsOn_eq hbegin] at hlogged
  rw [hlist] at houtcome hworld
  generalize Search.Breadth.run p.machine.automaton (stepLimit p.grammar text.toList.length)
    (.running a) s = r at houtcome hworld hlogged hparse
  generalize Search.Breadth.run p.machine.automaton (stepLimit p.grammar feed.byteCount)
    (.running a) s' = r' at houtcome hworld hparse' hends
  obtain ⟨outcome, s₁⟩ := r
  obtain ⟨_, s₁'⟩ := r'
  cases houtcome
  exact ⟨outcome, s₁, s₁', hparse, hparse', hworld, hlogged, hends⟩

namespace Twins

variable {s : Shared (List Char)} {s' : Shared Reader}

/-- The error is noted down if the tape was filled beyond the text. -/
theorem error_eq (ht : Twins p text feed outcome s s') (h : feed.Gives text.toList e) :
    s'.tape.state.error = if s'.tape.filled ≤ text.length then none else e := by
  rw [Reader.error_of_fed h ht.agrees.tape.fed', String.length_toList]

theorem parseFeed_eq_parse (ht : Twins p text feed outcome s s')
    (herror : s'.tape.state.error = none) : p.parseFeed feed = p.parse text := by
  rw [ht.parse, ht.parseFeed]
  exact conclude_congr ht.agrees rfl herror

theorem parseFeed_eq_error (ht : Twins p text feed outcome s s')
    (herror : s'.tape.state.error = some err) : p.parseFeed feed = .error err := by
  rw [ht.parseFeed]
  exact conclude_of_error ht.ends herror

/-- The tape is filled beyond the text just if there was a call for the chunk in which
    the text ends. -/
theorem lt_filled_iff (ht : Twins p text feed outcome s s') : text.length < s'.tape.filled ↔
    ∃ calls ∈ p.callsOn text, 10 * (text.length / 10) < calls := by
  have hfilled := ht.agrees.tape.filled
  have hlogged := ht.logged (10 * (text.length / 10)) (Nat.dvd_mul_right 10 _)
  obtain ⟨i, hi⟩ := s'.tape.chunkSize_dvd_filled
  rw [Fork.chunkSize] at hi
  rw [← hlogged]
  omega

end Twins

/-- A tree with the end of input in it is not returned if the source has failed. -/
theorem not_occurs_endOfInput (hg : p.grammar.Made memo)
    (hseq : p.settings.strategy = .sequential) (hpasses : p.passes = [])
    (h : feed.Gives text.toList (some err)) {result : ParseResult} {t : Tree}
    (hresult : p.parseFeed feed = .ok result) (ht : result.tree? = some t) :
    ¬Tree.Occurs (.leaf .endOfInput) t := by
  intro hocc
  obtain ⟨outcome, s, s', htwins⟩ := exists_twins hg hseq h
  cases herror : s'.tape.state.error with
  | some err' =>
    rw [htwins.parseFeed_eq_error herror] at hresult
    cases hresult
  | none =>
    have hconclude := htwins.parseFeed
    cases htwins.ends with
    | exhausted | stopped =>
      dsimp only [conclude] at hconclude
      rw [hresult, herror] at hconclude
      cases hconclude
      cases ht
    | found hv hhosts =>
      rw [hresult, conclude_accepted hv hhosts herror, hpasses] at hconclude
      cases hconclude
      cases ht
      -- The end of input comes last, so nothing was left to read.
      have hrest := (hv.covers hg).eq_nil_of_occurs (List.mem_singleton_self _) hocc
      have hfilled := hhosts.length_lt_filled hrest
      rw [String.length_toList] at hfilled
      rw [htwins.error_eq h, if_neg (Nat.not_le_of_lt hfilled)] at herror
      cases herror

end Parser

/-- Every source brings just one text, which may break off with an error. If all bytes
    are a text, it is parsed as the text is, however the bytes are spread. If the text
    breaks off, the error is returned if some attempt at the text reads often enough to
    need the chunk in which it does so, and otherwise the source is parsed as the text
    is. No tree with the end of input in it is returned then, whatever the passes make
    of it. -/
theorem Plan.parseFeed_eq {p : Plan} {parser : Parser}
    (hflat : ∀ g, p.rules = .flat g → g.Analysed) (hbuild : p.build = .ok parser)
    (hseq : p.settings.strategy = .sequential) (feed : Feed) :
    (∃! x : String × Option ParseError, feed.Gives x.1.toList x.2) ∧
    (∀ text : String, feed.contents = (text.toList.flatMap String.utf8EncodeChar, none) →
      parser.parseFeed feed = parser.parse text) ∧
    ∀ (text : String) (e : ParseError), feed.Gives text.toList (some e) →
      ((∃ calls ∈ parser.callsOn text, 10 * (text.length / 10) < calls) →
        parser.parseFeed feed = .error e) ∧
      ((∀ calls ∈ parser.callsOn text, calls ≤ 10 * (text.length / 10)) →
        parser.parseFeed feed = parser.parse text) ∧
      ∀ result, parser.parseFeed feed = .ok result → ∃ tree?,
        parser.raw.parseFeed feed = .ok { result with tree? := tree? } ∧
        result.tree? = tree?.map (Pass.applyAll parser.passes) ∧
        ∀ t, tree? = some t → ¬Tree.Occurs (.leaf .endOfInput) t := by
  obtain ⟨-, -, -, hsettings, -⟩ := build_eq_ok hbuild
  obtain ⟨memo, hg⟩ := (analysed_of_build hflat hbuild).made
  rw [← hsettings] at hseq
  refine ⟨?_, fun text hcontents => ?_, fun text e h => ⟨fun hcalls => ?_, fun hcalls => ?_,
    fun result hresult => ?_⟩⟩
  · obtain ⟨cs, e, h⟩ := Source.exists_decodes feed.contents.2 feed.contents.1
    rw [← String.toList_ofList (l := cs)] at h
    refine ⟨(String.ofList cs, e), h, fun x hx => ?_⟩
    obtain ⟨htext, he⟩ := Reader.gives_unique hx h
    exact Prod.ext (String.toList_inj.1 htext) he
  · have h := Feed.gives_none_iff.2 hcontents
    obtain ⟨outcome, s, s', htwins⟩ := Parser.exists_twins hg hseq h
    exact htwins.parseFeed_eq_parse ((htwins.error_eq h).trans (ite_self none))
  · obtain ⟨outcome, s, s', htwins⟩ := Parser.exists_twins hg hseq h
    have hfilled := htwins.lt_filled_iff.2 hcalls
    exact htwins.parseFeed_eq_error
      ((htwins.error_eq h).trans (if_neg (Nat.not_le_of_lt hfilled)))
  · obtain ⟨outcome, s, s', htwins⟩ := Parser.exists_twins hg hseq h
    have hfilled : ¬text.length < s'.tape.filled := by
      rw [htwins.lt_filled_iff]
      rintro ⟨calls, hmem, hlt⟩
      exact Nat.not_le_of_lt hlt (hcalls calls hmem)
    exact htwins.parseFeed_eq_parse
      ((htwins.error_eq h).trans (if_pos (Nat.le_of_not_lt hfilled)))
  · have hpasses := parser.parseFeed_eq_map_raw feed
    rw [hresult] at hpasses
    cases hraw : parser.raw.parseFeed feed with
    | error e =>
      rw [hraw] at hpasses
      cases hpasses
    | ok found =>
      rw [hraw] at hpasses
      cases hpasses
      exact ⟨found.tree?, rfl, rfl, fun t ht =>
        Parser.not_occurs_endOfInput (p := parser.raw) hg hseq rfl h hraw ht⟩

/-- A parser for parentheses. -/
def Plan.parentheses : Plan :=
  ⟨.extended Parse.parentheses, .nonTerminal "S", ⟨.sequential, false⟩, []⟩

/-- Parentheses come in two parts, or break off. With ten characters before the error
    it goes unnoticed, since no attempt reads more than ten times. -/
theorem Plan.parseFeed_eq_parentheses : ∃ parser, Plan.parentheses.build = .ok parser ∧
    parser.parseFeed [.bytes [40], .interrupted, .bytes [41]] = parser.parse "()" ∧
    parser.parseFeed [.bytes [40, 41], .failure "gone"] = .error (.source "gone") ∧
    parser.parseFeed [.bytes [40, 41, 40, 41, 40, 41, 40, 41, 40, 41], .failure "gone"] =
      parser.parse "()()()()()" := by
  obtain ⟨parser, hbuild, hfew, hmany⟩ : ∃ parser, Plan.parentheses.build = .ok parser ∧
      (∃ calls ∈ parser.callsOn "()", 10 * ("()".length / 10) < calls) ∧
      ∀ calls ∈ parser.callsOn "()()()()()", calls ≤ 10 * ("()()()()()".length / 10) :=
    ⟨_, rfl, by decide +kernel, by decide +kernel⟩
  have heq := parseFeed_eq (fun _ => Plan.Rules.noConfusion) hbuild rfl
  refine ⟨parser, hbuild, (heq _).2.1 "()" rfl, ((heq _).2.2 "()" (.source "gone") ?_).1 hfew,
    ((heq _).2.2 "()()()()()" (.source "gone") ?_).2.1 hmany⟩
  · exact .of_encoded ['(', ')']
  · exact .of_encoded ['(', ')', '(', ')', '(', ')', '(', ')', '(', ')']

end Ramify
