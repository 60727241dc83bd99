import Ramify.Flat.Metrics
import Ramify.Proofs.Flat.First
import Ramify.Proofs.Parse.Pool

/-!
# How far a step forks

A step that expands a name comes to one state for each candidate, and any other step to
a single state. How many candidates there are is told by three facts:

* no rule is offered twice: those that can begin with the lookahead are candidates, and
  the empty rule is none of them (`Machine.candidates_eq`);
* the empty rule comes on top if the name is nullable and the lookahead may follow it,
  whether or not it is one of the rules of the name;
* so there can be one more than any name has rules, if there are that many rules which can
  all begin with the lookahead (`Machine.Overfull`).

The largest number of rules of one name is thus exceeded by one at most, and just at such
names (`forks_bounded`).
-/

namespace Ramify

/-! ### Candidates -/

namespace Flat

section Starts

variable {entries : List Entry} {nullable : String → Bool} {α : List Symbol} {c : Char}

/-- Where no name has a choice, what derives the empty text can begin with nothing. -/
theorem Vanishes.not_starts
    (hone : ∀ n r r', Rewrites entries n r → Rewrites entries n r' → r = r')
    (h : Vanishes entries α) : ¬Starts entries nullable α c := by
  intro hstarts
  induction hstarts with
  | terminal | charClass | endOfInput => cases h
  | @name n rule c α hrule _ ih =>
    cases h with
    | cons hrule' hvanish _ =>
      obtain rfl := hone n _ _ hrule hrule'
      exact ih hvanish
  | behind _ _ ih =>
    cases h with
    | cons _ _ hrest => exact ih hrest

end Starts

theorem Production.length_openers_le (p : Production) (c : Lookahead) :
    (p.openers c).length ≤ p.rules.length :=
  calc (p.openers c).length
      = ((p.rules.zip p.firsts.perRule).filter (·.2.admits c)).length := by
        rw [openers, List.length_map]
    _ ≤ (p.rules.zip p.firsts.perRule).length := List.length_filter_le _ _
    _ ≤ p.rules.length := by
        rw [List.length_zip]
        exact Nat.min_le_left _ _

/-- The largest number of rules of one name. -/
abbrev Grammar.breadth (g : Grammar) : Nat := (Metrics.compute g).maxAlternatives

namespace Grammar

variable {g : Grammar} {memo : Memo} {n : String} {p : Production} {rule rule' : Rule}
  {c : Lookahead}

theorem length_rules_le (hp : g.find? n = some p) : p.rules.length ≤ g.breadth := by
  have hmem : p.rules.length ∈ g.productions.map (·.rules.length) :=
    List.mem_map_of_mem (g.find?_eq_some_iff.1 hp).1
  rw [breadth, Metrics.compute, List.foldl_max]
  exact Nat.le_trans (List.le_max?_getD_of_mem hmem) (Nat.le_max_right _ _)

/-- Names have no choice if none of them has more than one rule. -/
theorem eq_of_rewrites (hbreadth : g.breadth ≤ 1) (h : Rewrites g.entries n rule)
    (h' : Rewrites g.entries n rule') : rule = rule' := by
  obtain ⟨p, hp, hrule⟩ := rewrites_iff.1 h
  obtain ⟨p', hp', hrule'⟩ := rewrites_iff.1 h'
  obtain rfl := Option.some.inj (hp.symm.trans hp')
  obtain ⟨r, hr⟩ : ∃ r, p.rules = [r] := by
    have hle := Nat.le_trans (length_rules_le hp) hbreadth
    have hpos := List.length_pos_of_mem hrule
    exact List.length_eq_one_iff.1 (by omega)
  rw [hr] at hrule hrule'
  rw [List.mem_singleton.1 hrule, List.mem_singleton.1 hrule']

namespace Made

variable (hg : g.Made memo)

include hg

/-- The empty rule begins with nothing. -/
theorem isEpsilon_of_mem_openers (hp : g.find? n = some p) (h : rule ∈ p.openers c) :
    rule.isEpsilon = false := by
  obtain ⟨d, -, -, hstarts⟩ := (hg.mem_openers_iff hp).1 h
  cases hsymbols : rule.symbols with
  | nil => exact absurd (hsymbols ▸ hstarts) not_starts_nil
  | cons s α => simp [Rule.isEpsilon, hsymbols]

/-- All rules are counted just if all of them can begin with the lookahead. -/
theorem length_openers_eq_iff (hp : g.find? n = some p) :
    (p.openers c).length = p.rules.length ↔
      ∀ rule ∈ p.rules, ∃ d, c = some d ∧ Starts g.entries g.isNullable rule.symbols d := by
  obtain ⟨-, hopens⟩ := hg.opens hp
  have hzip : (p.rules.zip p.firsts.perRule).length = p.rules.length := by
    rw [List.length_zip, ← hopens.length_eq, Nat.min_self]
  rw [Production.openers, List.length_map, ← hzip, List.length_filter_eq_length_iff]
  generalize p.rules = rules, p.firsts.perRule = sets at hopens
  induction hopens with
  | nil => simp
  | cons hopen _ ih =>
    rw [List.zip_cons_cons, List.forall_mem_cons, List.forall_mem_cons]
    exact and_congr (hopen c) ih

end Made

end Grammar

end Flat

namespace Parse

open Flat (Starts)
open Search (Pick)

namespace Machine

variable {m : Machine} {memo : Flat.Memo} {n : String} {p : Flat.Production} {c : Lookahead}

/-- The candidates are the rules that can begin with the lookahead and, where the name may
    be left out, the empty rule. -/
theorem candidates_eq (hg : m.grammar.Made memo) (hp : m.grammar.find? n = some p) :
    m.candidates n c =
      p.openers c ++ if p.nullable ∧ m.follow.admits n c then [.epsilon] else [] := by
  have hopeners : (p.openers c).filter (!·.isEpsilon) = p.openers c := by
    refine List.filter_eq_self.2 fun rule hrule => ?_
    rw [hg.isEpsilon_of_mem_openers hp hrule]
    rfl
  rw [candidates, Flat.Grammar.candidates_of_find? hp]
  by_cases hfollow : m.follow.admits n c
  · simp [hfollow]
  · rw [if_neg hfollow, List.filter_append, hopeners]
    cases p.nullable <;> simp [hfollow, Flat.Rule.isEpsilon, Flat.Rule.epsilon]

theorem candidates_eq_nil (hp : m.grammar.find? n = none) : m.candidates n c = [] := by
  simp [candidates, Flat.Grammar.candidates, hp]

/-- At a lookahead, a name has more candidates than any name has rules: all of its own and
    the empty rule, which is none of them. -/
structure Overfull (m : Machine) (n : String) (c : Lookahead) : Prop where
  /-- The name may be left out. -/
  nullable : m.grammar.isNullable n
  /-- The lookahead may follow it. -/
  follows : m.follow.admits n c
  /-- No name has more rules, and none of them drops out. -/
  rules : ∃ rules, m.grammar.rules? n = some rules ∧ rules.length = m.grammar.breadth ∧
    ∀ rule ∈ rules, ∃ d, c = some d ∧
      Starts m.grammar.entries m.grammar.isNullable rule.symbols d

theorem overfull_iff (hg : m.grammar.Made memo) (hp : m.grammar.find? n = some p) :
    m.Overfull n c ↔
      (p.nullable ∧ m.follow.admits n c) ∧ (p.openers c).length = m.grammar.breadth := by
  have hnull : m.grammar.isNullable n = p.nullable := by
    rw [Flat.Grammar.isNullable, hp, Option.any_some]
  have hrules : m.grammar.rules? n = some p.rules := by
    rw [Flat.Grammar.rules?, hp, Option.map_some]
  constructor
  · rintro ⟨hnullable, hfollows, rules, heq, hlength, hstarts⟩
    obtain rfl := Option.some.inj (hrules.symm.trans heq)
    exact ⟨⟨hnull ▸ hnullable, hfollows⟩, ((hg.length_openers_eq_iff hp).2 hstarts).trans hlength⟩
  · rintro ⟨⟨hnullable, hfollows⟩, hlength⟩
    -- No name has more rules, and of these all are counted.
    have hopeners := p.length_openers_le c
    have hbreadth := Flat.Grammar.length_rules_le hp
    have hall : (p.openers c).length = p.rules.length := by omega
    exact ⟨hnull ▸ hnullable, hfollows, p.rules, hrules, hall.symm.trans hlength,
      (hg.length_openers_eq_iff hp).1 hall⟩

/-- There is no such name where no name has a choice. -/
theorem Overfull.two_le (hg : m.grammar.Made memo) (h : m.Overfull n c) :
    2 ≤ m.grammar.breadth := by
  by_contra hlt
  have hone : ∀ n r r', Flat.Rewrites m.grammar.entries n r → Flat.Rewrites m.grammar.entries n r' →
      r = r' := fun n r r' => Flat.Grammar.eq_of_rewrites (by omega)
  obtain ⟨rules, hrules, -, hstarts⟩ := h.rules
  obtain ⟨p, hp, rfl⟩ := Option.map_eq_some_iff.1 hrules
  -- Some rule derives the empty text, and yet it can begin with a character.
  cases hg.isNullable_iff.1 h.nullable with
  | cons hrule hvanish _ =>
    obtain ⟨p', hp', hmem⟩ := Flat.Grammar.rewrites_iff.1 hrule
    obtain rfl := Option.some.inj (hp.symm.trans hp')
    obtain ⟨d, -, hd⟩ := hstarts _ hmem
    exact hvanish.not_starts hone hd

/-- There are more candidates than any name has rules just if none of the rules drops out
    and the empty rule comes on top. -/
theorem length_candidates (hg : m.grammar.Made memo) (n : String) (c : Lookahead) :
    (m.Overfull n c ∧ (m.candidates n c).length = m.grammar.breadth + 1) ∨
      (¬m.Overfull n c ∧ (m.candidates n c).length ≤ m.grammar.breadth) := by
  cases hp : m.grammar.find? n with
  | none =>
    refine .inr ⟨?_, by simp [candidates_eq_nil hp]⟩
    rintro ⟨-, -, rules, hrules, -⟩
    simp [Flat.Grammar.rules?, hp] at hrules
  | some p =>
    have hle := Nat.le_trans (p.length_openers_le c) (Flat.Grammar.length_rules_le hp)
    rw [overfull_iff hg hp, candidates_eq hg hp, List.length_append]
    by_cases hempty : p.nullable ∧ m.follow.admits n c
    · rw [if_pos hempty, List.length_singleton]
      by_cases hfull : (p.openers c).length = m.grammar.breadth
      · exact .inl ⟨⟨hempty, hfull⟩, by omega⟩
      · exact .inr ⟨fun h => hfull h.2, by omega⟩
    · rw [if_neg hempty]
      exact .inr ⟨fun h => hempty h.1, hle⟩

end Machine

/-! ### Steps -/

namespace Solo

variable {m : Machine} {memo : Flat.Memo} {a : Solo} {t : State} {ts : List State}

theorem length_expand (n : String) :
    (a.expand m n).length = max 1 (m.candidates n a.rest.head?).length := by
  rw [expand]
  split
  · rename_i hnil
    rw [hnil]
    rfl
  · rename_i rules hne
    rw [List.length_map, Nat.max_eq_right (List.length_pos_iff.2 hne)]

/-- Only where a name is expanded, there is more than one way to go on. -/
theorem length_consume {symbol : Symbol} (hs : ∀ n, symbol ≠ .nonTerminal n) :
    (a.consume m symbol).length = 1 := by
  cases symbol with
  | nonTerminal n => exact absurd rfl (hs n)
  | endOfInput | charClass k | terminal t =>
    rw [consume]
    split
    all_goals first | rfl | (split <;> rfl)

/-- An attempt on its own is about to expand a name that is overfull. -/
def State.AtOverfull (m : Machine) : State → Prop
  | running a => ∃ n, due a.top = some (.nonTerminal n) ∧ m.Overfull n a.rest.head?
  | _ => False

/-- A step comes to a single state, or to one for each candidate. -/
theorem length_step (hg : m.grammar.Made memo) (h : a.step m = .ok ts) :
    ((State.running a).AtOverfull m ∧ 2 ≤ m.grammar.breadth ∧
        ts.length = m.grammar.breadth + 1) ∨
      (¬(State.running a).AtOverfull m ∧ ts.length ≤ max 1 m.grammar.breadth) := by
  obtain hlen | ⟨symbol, hdue⟩ := length_eq_or_due (length_le_of_step h)
  · -- The branch is complete, so that no symbol is due.
    have hnone : due a.top = none := List.getElem?_eq_none (Nat.le_of_eq hlen.symm)
    refine .inr ⟨fun ⟨n, hn, _⟩ => (nomatch hnone.symm.trans hn), ?_⟩
    rw [step_of_complete hlen] at h
    split at h <;> cases h <;> exact Nat.le_max_left _ _
  · obtain rfl := Except.ok.inj ((step_of_due hdue).symm.trans h)
    by_cases hname : ∃ n, symbol = .nonTerminal n
    · obtain ⟨n, rfl⟩ := hname
      have hat : (State.running a).AtOverfull m ↔ m.Overfull n a.rest.head? := by
        simp [State.AtOverfull, hdue]
      rw [hat, consume, length_expand]
      obtain ⟨hfull, hlength⟩ | ⟨hfull, hlength⟩ := m.length_candidates hg n a.rest.head?
      · have htwo := hfull.two_le hg
        exact .inl ⟨hfull, htwo, by omega⟩
      · exact .inr ⟨hfull, by omega⟩
    · refine .inr ⟨fun ⟨n, hn, _⟩ => hname ⟨n, Option.some.inj (hdue.symm.trans hn)⟩, ?_⟩
      rw [length_consume fun n hn => hname ⟨n, hn⟩]
      exact Nat.le_max_left _ _

theorem length_next (hg : m.grammar.Made memo) (h : next m t = .ok ts) :
    (t.AtOverfull m → 2 ≤ m.grammar.breadth ∧ ts.length = m.grammar.breadth + 1) ∧
      (¬t.AtOverfull m → ts.length ≤ max 1 m.grammar.breadth) := by
  cases t with
  | running a =>
    obtain ⟨hat, hlength⟩ | ⟨hat, hlength⟩ := length_step hg h
    · exact ⟨fun _ => hlength, fun hnot => absurd hat hnot⟩
    · exact ⟨fun hat' => absurd hat' hat, fun _ => hlength⟩
  | accepted a | failed =>
    cases h
    exact ⟨False.elim, fun _ => Nat.le_max_left _ _⟩

end Solo

section Sharing

variable {σ : Type} {m : Machine} {w : List Char} {s : Shared σ} {guests : List Guest}
  {a : Attempt} {state : State} {t : Solo.State}

/-- The symbol that comes next at the marker of an attempt. -/
def Shared.due? (s : Shared σ) (a : Attempt) : Option Symbol :=
  match s.standpoint a with
  | .error _ => none
  | .ok place => place.site.rule.symbols[place.children]?

/-- An attempt is about to expand a name that is overfull. -/
def State.AtOverfull (m : Machine) (s : Shared σ) : State → Prop
  | running a => ∃ n, s.due? a = some (.nonTerminal n) ∧ m.Overfull n a.lookahead
  | _ => False

theorem Hosts.Beside.due?_eq {rest : List Char} {l : Bough} {ls : List Bough}
    (h : Beside w s guests a (l :: ls) rest) : s.due? a = due l := by
  obtain ⟨p, -, hmarker, hsite, hcount⟩ := h.marker
  rw [Shared.due?, Shared.standpoint, hmarker]
  dsimp only
  rw [hsite]
  dsimp only
  rw [hcount, due]

/-- A state is about to expand such a name just if what it stands for is. -/
theorem Hosts.atOverfull_iff (h : Hosts w s ((state, t) :: guests)) :
    state.AtOverfull m s ↔ t.AtOverfull m := by
  cases h.stands _ List.mem_cons_self with
  | running =>
    obtain ⟨hl, hb⟩ := running_iff.1 h
    rw [State.AtOverfull, Solo.State.AtOverfull, hb.due?_eq, hl]
  | accepted | failed => exact Iff.rfl

end Sharing

/-- At any moment of a parse, the next step of a state forks no further than the largest
    number of rules of one name, unless a name is expanded that is overfull. Then it comes
    to one more state, and some name has a choice between rules. -/
theorem forks_bounded {σ : Type} {g : Flat.Grammar} (hg : g.Analysed) (follow : Flat.FollowSets)
    (start : Symbol) {w : List Char} {produce : σ → Option Char × σ} {source : σ}
    (hw : Fork.Tape.Yields produce w source) :
    ∃ a s, begin start (.new produce source) 0 = .ok (a, s) ∧
      ∀ picks : List Pick, ∃ states s',
        (Machine.automaton ⟨g, follow⟩).play Shared.release picks [.running a] s =
          .ok (states, s') ∧
        ∀ state ∈ states, ∃ new s'', Machine.next ⟨g, follow⟩ state s' = (.ok new, s'') ∧
          (state.AtOverfull ⟨g, follow⟩ s' → 2 ≤ (Flat.Metrics.compute g).maxAlternatives ∧
            new.length = (Flat.Metrics.compute g).maxAlternatives + 1) ∧
          (¬state.AtOverfull ⟨g, follow⟩ s' →
            new.length ≤ max 1 (Flat.Metrics.compute g).maxAlternatives) := by
  obtain ⟨memo, hmade⟩ := hg.made
  obtain ⟨a, s, hbegin, h⟩ := hosts_begin hw start
  refine ⟨a, s, hbegin, fun picks => ?_⟩
  obtain ⟨guests, s', hplay, -, h', hsound⟩ := h.play (m := ⟨g, follow⟩) picks
  refine ⟨_, s', hplay, fun state hstate => ?_⟩
  obtain ⟨x, hx, rfl⟩ := List.mem_map.1 hstate
  have hx' := h'.thin (List.singleton_sublist.2 hx).subperm
  obtain ⟨new, s'', hnew, hts⟩ := hx'.exists_next (hsound x hx)
  refine ⟨_, s'', hnew, ?_⟩
  -- There are as many states as there are without sharing.
  have hlength := Solo.length_next (m := ⟨g, follow⟩) hmade hts
  rwa [hx'.atOverfull_iff, List.length_map, ← List.length_map (·.2)]

/-- A letter that both rules of a name begin with. The name may also be left out. -/
def threefold : List Flat.Entry :=
  [⟨"S", [⟨[.nonTerminal "A"]⟩, ⟨[.terminal ⟨'a', []⟩]⟩], false⟩,
    ⟨"A", [⟨[.terminal ⟨'a', []⟩]⟩, .epsilon], false⟩]

/-- The first step at this letter. -/
theorem next_threefold : ∃ g, Flat.Grammar.analyse threefold = .ok g ∧
    (Flat.Metrics.compute g).maxAlternatives = 2 ∧
    ∃ a s, begin (.nonTerminal "S") (.ofList ['a']) 0 = .ok (a, s) ∧
      ∃ new s', Machine.next ⟨g, .compute g (.nonTerminal "S")⟩ (.running a) s = (.ok new, s') ∧
        new.length = 3 :=
  ⟨_, rfl, rfl, _, _, rfl, _, _, rfl, rfl⟩

theorem forks_bounded_threefold : ∃ g, Flat.Grammar.analyse threefold = .ok g ∧
    ∃ a s, begin (.nonTerminal "S") (.ofList ['a']) 0 = .ok (a, s) ∧
      (State.running a).AtOverfull ⟨g, .compute g (.nonTerminal "S")⟩ s ∧
      ∀ picks : List Pick, ∃ states s',
        (Machine.automaton ⟨g, .compute g (.nonTerminal "S")⟩).play Shared.release picks
          [.running a] s = .ok (states, s') ∧
        ∀ state ∈ states, ∃ new s'',
          Machine.next ⟨g, .compute g (.nonTerminal "S")⟩ state s' = (.ok new, s'') ∧
          (state.AtOverfull ⟨g, .compute g (.nonTerminal "S")⟩ s' → new.length = 3) ∧
          (¬state.AtOverfull ⟨g, .compute g (.nonTerminal "S")⟩ s' → new.length ≤ 2) := by
  obtain ⟨g, hg, hmost, a, s, hbegin, first, s₁, hfirst, hthree⟩ := next_threefold
  obtain ⟨a', s', hbegin', h⟩ := forks_bounded ⟨_, hg⟩ (.compute g (.nonTerminal "S"))
    (.nonTerminal "S") (Fork.Tape.yields_fromList ['a'])
  obtain ⟨rfl, rfl⟩ := Prod.mk.inj (Except.ok.inj (hbegin.symm.trans hbegin'))
  simp only [hmost] at h
  refine ⟨g, hg, a, s, hbegin, ?_, fun picks => ?_⟩
  · -- Otherwise there would not be three states after the first step.
    by_contra hnot
    obtain ⟨_, _, hplay, hstates⟩ := h []
    cases hplay
    obtain ⟨new, s₂, hnew, -, hle⟩ := hstates _ (List.mem_singleton_self _)
    obtain rfl := Except.ok.inj (Prod.mk.inj (hfirst.symm.trans hnew)).1
    exact absurd (hthree ▸ hle hnot) (by decide)
  · obtain ⟨states, s', hplay, hstates⟩ := h picks
    refine ⟨states, s', hplay, fun state hstate => ?_⟩
    obtain ⟨new, s'', hnew, hfull, hnot⟩ := hstates state hstate
    exact ⟨new, s'', hnew, fun hat => (hfull hat).2, hnot⟩

/-- The number of rules of a name is no bound: the first step at this letter comes to three
    states. -/
theorem not_forall_length_next_le : ¬∀ (g : Flat.Grammar) (start : Symbol) (w : List Char),
    g.Analysed → ∀ a s, begin start (.ofList w) 0 = .ok (a, s) → ∀ picks states s',
      (Machine.automaton ⟨g, .compute g start⟩).play Shared.release picks [.running a] s =
        .ok (states, s') →
      ∀ state ∈ states, ∀ new s'', Machine.next ⟨g, .compute g start⟩ state s' = (.ok new, s'') →
        new.length ≤ max 1 (Flat.Metrics.compute g).maxAlternatives := by
  intro h
  obtain ⟨g, hg, hmost, a, s, hbegin, new, s', hnew, hlength⟩ := next_threefold
  have hle := h g _ _ ⟨_, hg⟩ a s hbegin [] _ _ rfl _ (List.mem_singleton_self _) new s' hnew
  rw [hlength, hmost] at hle
  exact absurd hle (by decide)

end Parse

end Ramify
