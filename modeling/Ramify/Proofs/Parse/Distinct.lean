import Ramify.Proofs.Parse.Forking
import Ramify.Proofs.Parse.Intact
import Ramify.Proofs.Search.Placing
import Ramify.Proofs.Tree.Equality

/-!
# No parse is found twice

Attempts part at a name that can be expanded in several ways, and go on without knowing of
each other. Still no two of them build the same tree, if no name has two equal rules
(`finds_once`). There are two parts to it:

* The way of an attempt is told by where it ends. No rule is offered twice for a name
  (`Machine.distinct_candidates`), and every step can be undone: what was built last shows
  what the step was (`Solo.back`). So different ways end in different states
  (`Solo.reversible`).
* A state is told by its tree. Where an expansion to nothing was cut off to a placeholder,
  there is but one that it can have been, and everywhere else the tree tells the rule
  (`Machine.Grows.of_beq`).

What a state is can only be said of an attempt on its own. With sharing, states are told apart
by their places in the course of the search (`Finds`).
-/

namespace Ramify

/-! ### Different rules -/

namespace Flat

/-- No two of some rules are equal, however their classes are defined. -/
def Distinct (rules : List Rule) : Prop := rules.Pairwise fun r r' => (r == r') = false

instance (rules : List Rule) : Decidable (Distinct rules) :=
  inferInstanceAs (Decidable (rules.Pairwise fun r r' => (r == r') = false))

namespace Distinct

variable {rules : List Rule} {r r' : Rule}

theorem nodup (h : Distinct rules) : rules.Nodup := by
  refine h.imp ?_
  rintro r r' hne rfl
  simp at hne

theorem eq_of_beq (h : Distinct rules) (hr : r ∈ rules) (hr' : r' ∈ rules)
    (heq : (r == r') = true) : r = r' := by
  have : Std.Symm fun r r' : Rule => (r == r') = false := ⟨fun _ _ h => Rule.beq_comm.trans h⟩
  by_contra hne
  exact absurd heq (Bool.eq_false_iff.1 (h.forall hr hr' hne))

end Distinct

theorem Production.openers_sublist (p : Production) (c : Lookahead) :
    (p.openers c).Sublist p.rules := by
  have hzip : ((p.rules.zip p.firsts.perRule).map (·.1)).Sublist p.rules := by
    generalize p.rules = rules, p.firsts.perRule = sets
    induction rules generalizing sets with
    | nil => simp
    | cons r rules ih =>
      cases sets with
      | nil => simp
      | cons f sets => exact (ih sets).cons_cons r
  exact (List.filter_sublist.map _).trans hzip

end Flat

namespace Parse

open Fork (View Limb)
open Search (Pick Lies Reversible)

namespace Machine

variable {m : Machine} {memo : Flat.Memo}

/-- The empty rule is offered only once, even if the name has it as a rule. -/
theorem countP_isEpsilon_le (hg : m.grammar.Made memo) (n : String) (c : Lookahead) :
    (m.candidates n c).countP (·.isEpsilon) ≤ 1 := by
  cases hp : m.grammar.find? n with
  | none => simp [candidates_eq_nil hp]
  | some p =>
    have hopeners : (p.openers c).countP (·.isEpsilon) = 0 := by
      refine List.countP_eq_zero.2 fun rule hrule => ?_
      rw [hg.isEpsilon_of_mem_openers hp hrule]
      exact Bool.false_ne_true
    rw [candidates_eq hg hp, List.countP_append, hopeners, Nat.zero_add]
    refine List.countP_le_length.trans ?_
    split
    · exact Nat.le_refl 1
    · exact Nat.zero_le 1

/-- No rule is offered twice for a name, if the name does not have it twice. -/
theorem distinct_candidates (hg : m.grammar.Made memo)
    (hrules : ∀ n rules, m.grammar.rules? n = some rules → Flat.Distinct rules) (n : String)
    (c : Lookahead) : Flat.Distinct (m.candidates n c) := by
  cases hp : m.grammar.find? n with
  | none =>
    rw [candidates_eq_nil hp]
    exact .nil
  | some p =>
    have hdistinct : Flat.Distinct p.rules :=
      hrules n p.rules (by rw [Flat.Grammar.rules?, hp, Option.map_some])
    rw [candidates_eq hg hp]
    refine List.pairwise_append.2 ⟨hdistinct.sublist (p.openers_sublist c), ?_, ?_⟩
    · split
      · exact List.pairwise_singleton _ _
      · exact .nil
    · -- The empty rule is not among the others.
      intro rule hrule rule' hrule'
      have hsome := hg.isEpsilon_of_mem_openers hp hrule
      split at hrule'
      · obtain rfl := List.mem_singleton.1 hrule'
        refine Bool.eq_false_iff.2 fun heq => ?_
        have hnil := List.map_eq_nil_iff.1 (Flat.Rule.beq_iff.1 heq)
        rw [Flat.Rule.isEpsilon, hnil] at hsome
        cases hsome
      · cases hrule'

end Machine

/-! ### Running backwards -/

namespace Solo

variable {m : Machine} {a b : Solo} {start : Symbol} {w : List Char}

/-- Undoes the last step of an attempt: a leaf is given back to the input, a branch that was
    closed is opened again, and one that was just opened is taken back. -/
def back (b : Solo) : Option Solo :=
  match b.top.children.getLast? with
  | some (.leaf token) =>
    some ⟨⟨b.top.data, b.top.children.dropLast⟩, b.above, token.text ++ b.rest⟩
  | some (.branch site vs) =>
    some ⟨⟨site, vs⟩, ⟨b.top.data, b.top.children.dropLast⟩ :: b.above, b.rest⟩
  | none =>
    match b.above with
    | [] => none
    | limb :: limbs => some ⟨limb, limbs, b.rest⟩

theorem back_grow (token : Token) (rest : List Char) :
    (a.grow token rest).back = some ⟨a.top, a.above, token.text ++ rest⟩ := by
  simp [back, grow, Limb.add]

theorem back_begin : (begin start w).back = none := rfl

/-- A step is told by what was built last. -/
theorem Turn.back (h : Turn m a (.running b)) : b.back = some a := by
  obtain ⟨top, above, rest⟩ := a
  cases h with
  | ascend _ habove =>
    obtain rfl : above = _ := habove
    simp [Solo.back, Limb.add, Limb.close]
  | endOfInput _ hrest =>
    obtain rfl : rest = [] := hrest
    rw [back_grow]
    rfl
  | charClass _ hrest _ =>
    obtain rfl : rest = _ := hrest
    rw [back_grow, text_charClass]
    rfl
  | terminal _ hrest =>
    obtain rfl : rest = _ := hrest
    rw [back_grow, text_terminal]
  | descend => rfl

/-- The successors of an attempt differ from each other. -/
theorem nodup_step (hdistinct : ∀ n c, Flat.Distinct (m.candidates n c)) {ts : List State}
    (h : a.step m = .ok ts) : ts.Nodup := by
  obtain hlen | ⟨symbol, hdue⟩ := length_eq_or_due (length_le_of_step h)
  · rw [step_of_complete hlen] at h
    split at h <;> cases h <;> exact List.nodup_singleton _
  · obtain rfl := Except.ok.inj ((step_of_due hdue).symm.trans h)
    by_cases hname : ∃ n, symbol = .nonTerminal n
    · obtain ⟨n, rfl⟩ := hname
      rw [consume, expand]
      split
      · exact List.nodup_singleton _
      · refine List.Nodup.map_on ?_ (hdistinct n a.rest.head?).nodup
        intro rule _ rule' _ heq
        cases heq
        rfl
    · obtain ⟨t, ht⟩ := List.length_eq_one_iff.1
        (length_consume (m := m) (a := a) fun n hn => hname ⟨n, hn⟩)
      rw [ht]
      exact List.nodup_singleton t

theorem State.exists_running {u : State} (h : u.kind = .unfinished) : ∃ a, u = .running a := by
  cases u with
  | running a => exact ⟨a, rfl⟩
  | accepted a | failed => cases h

/-- Different ways end in different states. -/
theorem reversible (hdistinct : ∀ n c, Flat.Distinct (m.candidates n c)) (start : Symbol)
    (w : List Char) : Reversible State.kind (next m) (.running (begin start w)) where
  start {u ts} hu hts hmem := by
    obtain ⟨a, rfl⟩ := State.exists_running hu
    have hback := (turn_of_next hts hmem State.noConfusion).back
    rw [back_begin] at hback
    cases hback
  back {u u' ts ts' t} hu hts ht hu' hts' ht' hne := by
    obtain ⟨a, rfl⟩ := State.exists_running hu
    obtain ⟨a', rfl⟩ := State.exists_running hu'
    cases t with
    | running b =>
      have hback := (turn_of_next hts ht State.noConfusion).back
      have hback' := (turn_of_next hts' ht' State.noConfusion).back
      rw [Option.some.inj (hback.symm.trans hback')]
    | accepted b =>
      cases turn_of_next hts ht State.noConfusion
      cases turn_of_next hts' ht' State.noConfusion
      rfl
    | failed => exact absurd rfl hne
  nodup {u ts} hu hts := by
    obtain ⟨a, rfl⟩ := State.exists_running hu
    exact nodup_step hdistinct hts

end Solo

/-! ### Telling a derivation by its tree -/

section Telling

variable {m : Machine} {α : List Symbol} {vs vs' us us' : List Sight} {n : String}
  {rule rule' : Flat.Rule} {i r r' : List Char}

/-- What equal pictures of branches tell: the rules are equal, or nothing is below. -/
theorem beqAll_pictures_branch (h : Tree.beqAll
    ((pictures (.branch ⟨n, rule⟩ us :: vs)).zip (pictures (.branch ⟨n, rule'⟩ us' :: vs')))) :
    (us = [] ∧ us' = [] ∨ (rule == rule') = true) ∧
      Tree.beqAll ((pictures us).zip (pictures us')) ∧
      Tree.beqAll ((pictures vs).zip (pictures vs')) := by
  rw [pictures, pictures, Tree.beqAll_cons, Bool.and_eq_true, Bool.and_eq_true] at h
  obtain ⟨⟨hnode, hbelow⟩, hrest⟩ := h
  cases us with
  | nil =>
    cases us' with
    | nil => exact ⟨.inl ⟨rfl, rfl⟩, hbelow, hrest⟩
    | cons u' us' => simp [picture, Tree.sameNode] at hnode
  | cons u us =>
    cases us' with
    | nil => simp [picture, Tree.sameNode] at hnode
    | cons u' us' =>
      rw [picture, picture, Tree.sameNode, Bool.and_eq_true, Bool.and_eq_true] at hnode
      rw [picture, picture] at hbelow
      exact ⟨.inr hnode.1.2, hbelow, hrest⟩

/-- A rule of which nothing is built is the empty one. -/
theorem Machine.Grows.eq_epsilon (h : m.Grows rule.symbols [] i r) : rule = .epsilon := by
  obtain ⟨symbols⟩ := rule
  cases h
  rfl

/-- Derivations of the same symbols from the same place are told apart by their trees. -/
theorem Machine.Grows.of_beq (hdistinct : ∀ n c, Flat.Distinct (m.candidates n c))
    (h : m.Grows α vs i r) (h' : m.Grows α vs' i r')
    (heq : Tree.beqAll ((pictures vs).zip (pictures vs'))) : vs = vs' ∧ r = r' := by
  have htail : ∀ {v v' : Sight} {vs vs' : List Sight},
      Tree.beqAll ((pictures (v :: vs)).zip (pictures (v' :: vs'))) →
      Tree.beqAll ((pictures vs).zip (pictures vs')) := by
    intro v v' vs vs' heq
    rw [pictures, pictures, Tree.beqAll_cons, Bool.and_eq_true] at heq
    exact heq.2
  induction h generalizing vs' r' with
  | nil =>
    cases h'
    exact ⟨rfl, rfl⟩
  | endOfInput _ ih =>
    cases h' with
    | endOfInput h' =>
      obtain ⟨rfl, rfl⟩ := ih h' (htail heq)
      exact ⟨rfl, rfl⟩
  | charClass _ _ ih =>
    cases h' with
    | charClass _ h' =>
      obtain ⟨rfl, rfl⟩ := ih h' (htail heq)
      exact ⟨rfl, rfl⟩
  | @terminal t _ _ i _ _ ih =>
    generalize hi : t.chars ++ i = j at h'
    cases h' with
    | terminal h' =>
      obtain rfl := List.append_cancel_left hi
      obtain ⟨rfl, rfl⟩ := ih h' (htail heq)
      exact ⟨rfl, rfl⟩
  | @nonTerminal _ rule _ _ _ _ _ _ hmem hus _ ihu ih =>
    cases h' with
    | @nonTerminal _ rule' _ _ _ _ _ _ hmem' hus' hvs' =>
      obtain ⟨hsame, hbelow, hrest⟩ := beqAll_pictures_branch heq
      obtain rfl : rule = rule' := by
        rcases hsame with ⟨rfl, rfl⟩ | hbeq
        · exact hus.eq_epsilon.trans hus'.eq_epsilon.symm
        · exact (hdistinct _ _).eq_of_beq hmem hmem' hbeq
      obtain ⟨rfl, rfl⟩ := ihu hus' hbelow
      obtain ⟨rfl, rfl⟩ := ih hvs' hrest
      exact ⟨rfl, rfl⟩

end Telling

/-! ### Successes and their places -/

section Sharing

variable {σ : Type} {m : Machine} {memo : Flat.Memo} {start : Symbol} {w : List Char}
  {s s' : Shared σ} {a b : Attempt} {path : List Nat} {t : Tree}

/-- Some search comes upon a success at a place, and this is its tree. -/
def Finds (m : Machine) (a : Attempt) (s : Shared σ) (path : List Nat) (t : Tree) : Prop :=
  ∃ (picks : List Pick) (states : List (List Nat × State)) (s' : Shared σ) (b : Attempt),
    m.automaton.placed.play (fun x => Shared.release x.2) picks [([], .running a)] s =
      .ok (states, s') ∧
    (path, .accepted b) ∈ states ∧ harvest s' b = .ok t

/-- The places of the successes among some states. -/
def successes (states : List (List Nat × State)) : List (List Nat) :=
  (states.filter (·.2.kind = .success)).map (·.1)

/-- Successes that can be harvested are found. -/
theorem finds_of_mem_successes {picks : List Pick} {states : List (List Nat × State)}
    (hplay : m.automaton.placed.play (fun x => Shared.release x.2) picks [([], .running a)] s =
      .ok (states, s'))
    (hharvest : ∀ path b, (path, .accepted b) ∈ states → ∃ t, harvest s' b = .ok t)
    (hpath : path ∈ successes states) : ∃ t, Finds m a s path t := by
  obtain ⟨⟨_, state⟩, hmem, rfl⟩ := List.mem_map.1 hpath
  obtain ⟨hstate, hkind⟩ := List.mem_filter.1 hmem
  cases state with
  | accepted b =>
    obtain ⟨t, ht⟩ := hharvest _ b hstate
    exact ⟨t, picks, states, s', b, hplay, hstate, ht⟩
  | running b | failed => simp [State.kind] at hkind

/-- A success stands for a derivation, at its place and with its tree. -/
structure Meets (m : Machine) (start : Symbol) (w : List Char) (path : List Nat) (v : Sight)
    (rest : List Char) : Prop where
  /-- The derivation can be built. -/
  grows : m.Grows [start] [v] w rest
  /-- It is built on the way to the place. -/
  lies : Lies Solo.State.kind (Solo.next m) path (.running (Solo.begin start w))
    (.accepted ⟨⟨⟨"", ⟨[start]⟩⟩, [v]⟩, [], rest⟩)

/-- Whatever is picked, the states have places, and all successes are derivations. -/
theorem Hosts.play_placed (h : Hosts w s [(.running a, .running (Solo.begin start w))])
    (picks : List Pick) : ∃ states s',
      m.automaton.placed.play (fun x => Shared.release x.2) picks [([], .running a)] s =
        .ok (states, s') ∧
      ∀ path b, (path, .accepted b) ∈ states →
        ∃ v rest, Meets m start w path v rest ∧ harvest s' b = .ok (picture v) := by
  have hplaced : Search.Placed Solo.State.kind (Solo.next m) (Hosts w)
      (.running (Solo.begin start w)) s
      [(([], .running a), .running (Solo.begin start w))] :=
    ⟨h, List.forall_mem_singleton.2 (.root _)⟩
  obtain ⟨guests, s', hplay, -, hguests, hsound⟩ :=
    ((simulates m w).placed _).play ((steady m start w).placed _) picks hplaced
      (List.forall_mem_singleton.2 Underway.begin)
  refine ⟨_, s', hplay, fun path b hb => ?_⟩
  obtain ⟨⟨_, u⟩, hx, rfl⟩ := List.mem_map.1 hb
  -- The success stands for one that lies at the same place.
  have hlone := hguests.stands.thin
    (List.singleton_sublist.2 (List.mem_map_of_mem hx)).subperm
  cases hlone.stands _ List.mem_cons_self with
  | @accepted _ c =>
    obtain ⟨v, hc, hv⟩ := hsound _ hx
    have hlies := hguests.lies _ hx
    refine ⟨v, c.rest, ⟨hv, ?_⟩, harvest_eq_ok hlone hc hv.solid⟩
    rw [← hc]
    exact hlies

/-- What is found stands for a derivation. -/
theorem Hosts.meets (h : Hosts w s [(.running a, .running (Solo.begin start w))])
    (hfinds : Finds m a s path t) : ∃ v rest, Meets m start w path v rest ∧ t = picture v := by
  obtain ⟨picks, states, s', b, hplay, hb, ht⟩ := hfinds
  obtain ⟨states', s'', hplay', hfound⟩ := h.play_placed (m := m) picks
  cases hplay.symm.trans hplay'
  obtain ⟨v, rest, hv, ht'⟩ := hfound path b hb
  exact ⟨v, rest, hv, Except.ok.inj (ht.symm.trans ht')⟩

/-- The place of a success is told by its tree, and its tree by the place. -/
theorem Meets.path_eq_iff {path' : List Nat} {v v' : Sight} {rest rest' : List Char}
    (hdistinct : ∀ n c, Flat.Distinct (m.candidates n c)) (h : Meets m start w path v rest)
    (h' : Meets m start w path' v' rest') :
    path = path' ↔ (picture v == picture v') = true := by
  constructor
  · rintro rfl
    cases h.lies.unique h'.lies
    exact Tree.beq_self _
  · intro heq
    obtain ⟨hviews, rfl⟩ := h.grows.of_beq hdistinct h'.grows heq
    obtain rfl := (List.cons.inj hviews).1
    exact (Solo.reversible hdistinct start w).place_eq h.lies h'.lies Search.Kind.noConfusion

/-- No parse is found twice: whatever is picked, all states that are held have different
    places, and any two successes, found by whichever picks, have different trees just if
    they have different places. The empty rule is offered only once for a name. -/
theorem finds_once {g : Flat.Grammar} (hg : g.Analysed)
    (hrules : ∀ n rules, g.rules? n = some rules → Flat.Distinct rules)
    (follow : Flat.FollowSets) (start : Symbol) {produce : σ → Option Char × σ} {source : σ}
    (hw : Fork.Tape.Yields produce w source) :
    ∃ a s, begin start (.new produce source) 0 = .ok (a, s) ∧
      (∀ picks : List Pick, ∃ states s',
        (Machine.automaton ⟨g, follow⟩).placed.play (fun x => Shared.release x.2) picks
          [([], .running a)] s = .ok (states, s') ∧
        (Machine.automaton ⟨g, follow⟩).play Shared.release picks [.running a] s =
          .ok (states.map (·.2), s') ∧
        (states.map (·.1)).Nodup ∧
        ∀ path b, (path, .accepted b) ∈ states → ∃ t, harvest s' b = .ok t) ∧
      (∀ path path' t t', Finds ⟨g, follow⟩ a s path t → Finds ⟨g, follow⟩ a s path' t' →
        (path = path' ↔ (t == t') = true)) ∧
      ∀ n c, ((Machine.mk g follow).candidates n c).countP (·.isEpsilon) ≤ 1 := by
  obtain ⟨memo, hmade⟩ := hg.made
  have hdistinct := Machine.distinct_candidates (m := ⟨g, follow⟩) hmade hrules
  obtain ⟨a, s, hbegin, h⟩ := hosts_begin hw start
  refine ⟨a, s, hbegin, fun picks => ?_, ?_, Machine.countP_isEpsilon_le hmade⟩
  · obtain ⟨states, s', hplay, hfound⟩ := h.play_placed (m := ⟨g, follow⟩) picks
    refine ⟨states, s', hplay, ?_, ?_, fun path b hb => ?_⟩
    · have hplain : (Machine.automaton ⟨g, follow⟩).play Shared.release picks [State.running a] s =
          _ := Search.play_placed picks [([], State.running a)] s
      rw [hplay] at hplain
      exact hplain
    · exact (Search.abreast_play hplay (List.pairwise_singleton _ _)).nodup
    · obtain ⟨v, rest, -, hv⟩ := hfound path b hb
      exact ⟨_, hv⟩
  · intro path path' t t' hpath hpath'
    obtain ⟨v, rest, hv, rfl⟩ := h.meets hpath
    obtain ⟨v', rest', hv', rfl⟩ := h.meets hpath'
    exact hv.path_eq_iff hdistinct hv'

/-- Two names in a row, each of which stands for a letter or, by a rule of its own, for nothing. -/
def twofold : List Flat.Entry :=
  [⟨"S", [⟨[.nonTerminal "A", .nonTerminal "A"]⟩], false⟩,
    ⟨"A", [⟨[.terminal ⟨'a', []⟩]⟩, .epsilon], false⟩]

/-- The letter can be that of the first name, and that of the second one. -/
theorem finds_once_twofold : ∃ g, Flat.Grammar.analyse twofold = .ok g ∧
    ∃ a s, begin (.nonTerminal "S") (.ofList ['a']) 0 = .ok (a, s) ∧
      ∃ t t', Finds ⟨g, .compute g (.nonTerminal "S")⟩ a s [0, 0, 0, 0, 0, 0, 0, 0] t ∧
        Finds ⟨g, .compute g (.nonTerminal "S")⟩ a s [0, 1, 0, 0, 0, 0, 0, 0] t' ∧
        (t == t') = false := by
  obtain ⟨g, hg, hrules⟩ : ∃ g, Flat.Grammar.analyse twofold = .ok g ∧
      ∀ p ∈ g.productions, Flat.Distinct p.rules := ⟨_, rfl, by decide⟩
  -- The picks are played once, to see where the successes are.
  have hplaces : (match Flat.Grammar.analyse twofold with
      | .ok g => (match begin (.nonTerminal "S") (.ofList ['a']) 0 with
        | .ok (a, s) => (match (Machine.automaton ⟨g, .compute g (.nonTerminal "S")⟩).placed.play
            (fun x => Shared.release x.2)
            (List.replicate 8 (.step 0) ++ List.replicate 6 (.step 1)) [([], .running a)] s with
          | .ok (states, _) => successes states
          | .error _ => [])
        | .error _ => [])
      | .error _ => []) = [[0, 0, 0, 0, 0, 0, 0, 0], [0, 1, 0, 0, 0, 0, 0, 0]] := by
    decide +kernel
  obtain ⟨a, s, hbegin, hplays, hdiffer, -⟩ := finds_once ⟨_, hg⟩ (fun n rules hn => by
      obtain ⟨p, hp, rfl⟩ := Option.map_eq_some_iff.1 hn
      exact hrules p (List.mem_of_find?_eq_some hp)) (.compute g (.nonTerminal "S"))
    (.nonTerminal "S") (Fork.Tape.yields_fromList ['a'])
  obtain ⟨states, s', hplay, -, -, hharvest⟩ :=
    hplays (List.replicate 8 (.step 0) ++ List.replicate 6 (.step 1))
  have hsuccesses : successes states = [[0, 0, 0, 0, 0, 0, 0, 0], [0, 1, 0, 0, 0, 0, 0, 0]] := by
    rw [hg] at hplaces
    dsimp only [Fork.Tape.ofList] at hplaces
    rw [hbegin] at hplaces
    dsimp only at hplaces
    rwa [hplay] at hplaces
  obtain ⟨t, ht⟩ := finds_of_mem_successes hplay hharvest (hsuccesses ▸ List.mem_cons_self)
  obtain ⟨t', ht'⟩ := finds_of_mem_successes hplay hharvest
    (hsuccesses ▸ List.mem_cons_of_mem _ List.mem_cons_self)
  refine ⟨g, hg, a, s, hbegin, t, t', ht, ht', Bool.eq_false_iff.2 fun heq => ?_⟩
  exact absurd ((hdiffer _ _ _ _ ht ht').2 heq) (by decide)

end Sharing

end Parse

end Ramify
