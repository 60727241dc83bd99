import Mathlib.Order.Bounds.Defs
import Ramify.Proofs.Flat.Follow

/-!
# What the sets of a grammar predict

The sets that a parser goes by say neither more nor less than they should:

* The FIRST-set of a rule holds the characters that the rule can begin with
  (`Begins`), that of a name holds those of its rules, and the end of input is in
  none of them, whatever the character classes of the grammar say about it
  (`Grammar.first_exact`).
* The FOLLOW-sets of the names are the least sets that grant what the grammar asks
  of them (`Sustains`, `FollowSets.compute_isLeast`).
-/

namespace Ramify.Flat

/-! ### FIRST-sets -/

section Begins

variable {entries : List Entry} {nullable : String → Bool} {s : Symbol} {α before : List Symbol}
  {c : Char}

/-- Nothing has to be read for these symbols: each is the end of input or a name
    that derives the empty text. -/
def Passable (entries : List Entry) (α : List Symbol) : Prop :=
  ∀ s ∈ α, s = .endOfInput ∨ ∃ k, s = .nonTerminal k ∧ Vanishes entries [.nonTerminal k]

/-- Symbols can begin with a character: one of them can, and nothing has to be
    read for those in front of it. -/
inductive Begins (entries : List Entry) : List Symbol → Char → Prop
  | terminal {before after : List Symbol} {t : Terminal} {c : Char} : Passable entries before →
    t.literal.toList.head? = some c → Begins entries (before ++ .terminal t :: after) c
  | charClass {before after : List Symbol} {k : CharClass} {c : Char} : Passable entries before →
    k.accepts (some c) → Begins entries (before ++ .charClass k :: after) c
  | name {before after : List Symbol} {n : String} {rule : Rule} {c : Char} :
    Passable entries before → Rewrites entries n rule → Begins entries rule.symbols c →
    Begins entries (before ++ .nonTerminal n :: after) c

theorem passable_nil : Passable entries [] := fun _ hs => absurd hs List.not_mem_nil

theorem head?_literal {t : Terminal} : t.literal.toList.head? = some t.first := by
  rw [Terminal.literal, String.toList_ofList]
  rfl

theorem Begins.cons (hs : s = .endOfInput ∨ ∃ k, s = .nonTerminal k ∧
    Vanishes entries [.nonTerminal k]) (h : Begins entries α c) : Begins entries (s :: α) c := by
  cases h with
  | terminal hbefore ht => exact .terminal (List.forall_mem_cons.2 ⟨hs, hbefore⟩) ht
  | charClass hbefore hk => exact .charClass (List.forall_mem_cons.2 ⟨hs, hbefore⟩) hk
  | name hbefore hrule h => exact .name (List.forall_mem_cons.2 ⟨hs, hbefore⟩) hrule h

theorem Starts.append (hnull : ∀ n, nullable n ↔ Vanishes entries [.nonTerminal n])
    (hbefore : Passable entries before) (h : Starts entries nullable α c) :
    Starts entries nullable (before ++ α) c := by
  induction before with
  | nil => exact h
  | cons s before ih =>
    obtain ⟨hs, hrest⟩ := List.forall_mem_cons.1 hbefore
    rcases hs with rfl | ⟨k, rfl, hk⟩
    · exact .endOfInput (ih hrest)
    · exact .behind ((hnull k).2 hk) (ih hrest)

/-- The walk of the analysis looks for what the symbols can begin with. -/
theorem starts_iff_begins (hnull : ∀ n, nullable n ↔ Vanishes entries [.nonTerminal n]) :
    Starts entries nullable α c ↔ Begins entries α c := by
  constructor
  · intro h
    induction h with
    | @terminal t α => exact @Begins.terminal _ [] α t _ passable_nil head?_literal
    | @charClass k c α hk => exact @Begins.charClass _ [] α k c passable_nil hk
    | endOfInput _ ih => exact ih.cons (.inl rfl)
    | @name n rule c α hrule _ ih => exact @Begins.name _ [] α n rule c passable_nil hrule ih
    | @behind n c α hn _ ih => exact ih.cons (.inr ⟨n, rfl, (hnull n).1 hn⟩)
  · intro h
    induction h with
    | terminal hbefore ht =>
      obtain rfl := Option.some.inj (head?_literal.symm.trans ht)
      exact Starts.append hnull hbefore .terminal
    | charClass hbefore hk => exact Starts.append hnull hbefore (.charClass hk)
    | name hbefore hrule _ ih => exact Starts.append hnull hbefore (.name hrule ih)

end Begins

namespace Grammar

variable {g : Grammar} {n : String} {rules : List Rule}

theorem rules?_eq_some (hn : g.rules? n = some rules) :
    ∃ p, g.find? n = some p ∧ p.rules = rules := Option.map_eq_some_iff.1 hn

/-- The FIRST-sets of an analysed grammar are exact. -/
theorem first_exact (hg : g.Analysed) (hn : g.rules? n = some rules) :
    ∃ sets whole, g.ruleFirsts? n = some sets ∧ g.first? n = some whole ∧
      sets.length = rules.length ∧
      (∀ (i : Nat) (rule : Rule) (set : LookaheadSet), rules[i]? = some rule →
        sets[i]? = some set →
        ∀ c : Char, set.admits (some c) ↔ Begins g.entries rule.symbols c) ∧
      (∀ c, whole.admits c ↔ ∃ set ∈ sets, set.admits c) ∧
      (∀ set ∈ sets, set.admits none = false) ∧ whole.admits none = false := by
  obtain ⟨memo, hmade⟩ := hg.made
  obtain ⟨p, hp, rfl⟩ := rules?_eq_some hn
  obtain ⟨hsum, hopens⟩ := hmade.opens hp
  have hwhole : ∀ c, p.firsts.whole.admits c ↔ ∃ set ∈ p.firsts.perRule, set.admits c := by
    intro c
    rw [hsum, LookaheadSet.admits_sum]
  -- A set is one that some rule begins with, so the end of input is not in it.
  have hnone : ∀ set ∈ p.firsts.perRule, set.admits none = false := by
    intro set hset
    obtain ⟨i, hi, rfl⟩ := List.getElem_of_mem hset
    have hi' : i < p.rules.length := hopens.length_eq ▸ hi
    have hiff := hopens.get hi' hi none
    rw [← Bool.not_eq_true]
    intro hadmits
    obtain ⟨d, hd, -⟩ := hiff.1 hadmits
    cases hd
  refine ⟨p.firsts.perRule, p.firsts.whole, by rw [ruleFirsts?, hp, Option.map_some],
    by rw [first?, hp, Option.map_some], hopens.length_eq.symm, fun i rule set hrule hset c => ?_,
    hwhole, hnone, ?_⟩
  · obtain ⟨hi, rfl⟩ := List.getElem?_eq_some_iff.1 hrule
    obtain ⟨hi', rfl⟩ := List.getElem?_eq_some_iff.1 hset
    rw [← starts_iff_begins fun _ => hmade.isNullable_iff]
    have hiff := hopens.get hi hi' (some c)
    simpa using hiff
  · rw [← Bool.not_eq_true, hwhole none]
    rintro ⟨set, hset, hadmits⟩
    rw [hnone set hset] at hadmits
    cases hadmits

/-- A number begins with its sign or, as that may be left out, with a digit. -/
theorem first_exact_signed :
    let number : Rule := ⟨[.nonTerminal "Sign", .charClass .digit]⟩
    let minus : Rule := ⟨[.terminal ⟨'-', []⟩]⟩
    let es : List Entry := [⟨"Number", [number], false⟩, ⟨"Sign", [minus, .epsilon], false⟩]
    ∃ g, analyse es = .ok g ∧ g.rules? "Number" = some [number] ∧ ∃ set,
      g.ruleFirsts? "Number" = some [set] ∧ set.admits (some '-') ∧ set.admits (some '7') ∧
      set.admits none = false := by
  intro number minus es
  obtain ⟨g, hg, hn⟩ : ∃ g, analyse es = .ok g ∧ g.rules? "Number" = some [number] :=
    ⟨_, rfl, rfl⟩
  obtain ⟨sets, whole, hsets, -, hlength, hexact, -, hnone, -⟩ := first_exact ⟨es, hg⟩ hn
  obtain ⟨set, rfl⟩ := List.length_eq_one_iff.1 hlength
  have hset := hexact 0 number set rfl rfl
  rw [entries_of_analyse hg] at hset
  have hminus : Rewrites es "Sign" minus := ⟨es[1], by simp [es], rfl, List.mem_cons_self⟩
  have hempty : Rewrites es "Sign" .epsilon := ⟨es[1], by simp [es], rfl, by simp [es]⟩
  have hleft : Vanishes es [.nonTerminal "Sign"] := .cons hempty .nil .nil
  refine ⟨g, hg, hn, set, hsets, (hset '-').2 ?_, (hset '7').2 ?_, hnone set List.mem_cons_self⟩
  · refine @Begins.name _ [] [.charClass .digit] "Sign" minus '-' passable_nil hminus ?_
    exact @Begins.terminal _ [] [] ⟨'-', []⟩ '-' passable_nil (by decide)
  · refine @Begins.charClass _ [.nonTerminal "Sign"] [] .digit '7' (fun s hs => ?_) (by decide)
    exact .inr ⟨"Sign", List.mem_singleton.1 hs, hleft⟩

end Grammar

/-! ### FOLLOW-sets -/

section Follow

open FollowSets (compute admits_iff occurrences mem_occurrences)

variable {g : Grammar} {start : Symbol} {gap α : List Symbol} {n p : String} {c : Lookahead}

/-- A symbol can stand for a lookahead, where the end of input stands for itself
    and a name for what its FIRST-set admits. -/
def StandsFor (g : Grammar) : Symbol → Lookahead → Prop
  | .terminal t, c => c = t.literal.toList.head?
  | .charClass k, c => k.admits c
  | .endOfInput, c => c = none
  | .nonTerminal n, c => ∃ set, g.first? n = some set ∧ set.admits c

/-- What a grammar asks of the pairs of a name and a lookahead that follows it, if
    it is used from a start symbol. -/
structure Sustains (g : Grammar) (start : Symbol) (follow : Set (String × Lookahead)) : Prop where
  /-- Everything follows the start. -/
  start : ∀ n ∈ g.names, start = .nonTerminal n → ∀ c, (n, c) ∈ follow
  /-- A name is followed by what comes after it in a rule, behind any number of
      nullable names. -/
  direct : ∀ n ∈ g.names, ∀ p gap s after c, Precedes g p n (gap ++ s :: after) →
    AllNullable g gap → StandsFor g s c → (n, c) ∈ follow
  /-- Where all the rest of a rule is nullable, a name is followed by what follows the
      name whose rule it is. -/
  flow : ∀ n ∈ g.names, ∀ p rest c, Precedes g p n rest → AllNullable g rest →
    (p, c) ∈ follow → (n, c) ∈ follow

theorem Heads.append (hgap : AllNullable g gap) (h : Heads g α c) : Heads g (gap ++ α) c := by
  induction gap with
  | nil => exact h
  | cons s gap ih =>
    obtain ⟨⟨n, rfl, hn⟩, hrest⟩ := allNullable_cons.1 hgap
    exact .behind hn (ih hrest)

theorem heads_iff : Heads g α c ↔
    ∃ gap s after, α = gap ++ s :: after ∧ AllNullable g gap ∧ StandsFor g s c := by
  constructor
  · intro h
    induction h with
    | @terminal t α => exact ⟨[], _, α, rfl, allNullable_nil, head?_literal.symm⟩
    | @charClass k c α hk => exact ⟨[], _, α, rfl, allNullable_nil, hk⟩
    | @endOfInput α => exact ⟨[], _, α, rfl, allNullable_nil, rfl⟩
    | @name n set c α hset hc => exact ⟨[], _, α, rfl, allNullable_nil, set, hset, hc⟩
    | @behind n c α hn _ ih =>
      obtain ⟨gap, s, after, rfl, hgap, hs⟩ := ih
      exact ⟨.nonTerminal n :: gap, s, after, rfl, allNullable_cons.2 ⟨⟨n, rfl, hn⟩, hgap⟩, hs⟩
  · rintro ⟨gap, s, after, rfl, hgap, hs⟩
    refine Heads.append hgap ?_
    cases s with
    | terminal t =>
      obtain rfl : c = some t.first := hs.trans head?_literal
      exact .terminal
    | charClass k => exact .charClass hs
    | endOfInput =>
      obtain rfl := hs
      exact .endOfInput
    | nonTerminal n =>
      obtain ⟨set, hset, hc⟩ := hs
      exact .name hset hc

/-- What follows a name is in all sets that grant what the grammar asks. -/
theorem Sustains.of_follows {follow : Set (String × Lookahead)} (hg : Sustains g start follow)
    (hn : n ∈ g.names) (h : Follows g start n c) : (n, c) ∈ follow := by
  induction h with
  | start hstart => exact hg.start _ hn hstart _
  | direct hoccurs hc =>
    obtain ⟨gap, s, after, rfl, hgap, hs⟩ := heads_iff.1 hc
    exact hg.direct _ hn _ gap s after _ hoccurs hgap hs
  | flow hoccurs hnull _ ih => exact hg.flow _ hn _ _ _ hoccurs hnull (ih hoccurs.mem_names)

/-- The FOLLOW-sets of the names are the least ones that grant what the grammar asks. -/
theorem FollowSets.compute_isLeast (g : Grammar) (start : Symbol) :
    IsLeast {follow | Sustains g start follow}
      {x | x.1 ∈ g.names ∧ (compute g start).admits x.1 x.2} := by
  refine ⟨⟨fun n hn hstart c => ⟨hn, ?_⟩, fun n hn p gap s after c hoccurs hgap hs => ⟨hn, ?_⟩,
    fun n hn p rest c hoccurs hrest hc => ⟨hn, ?_⟩⟩, fun follow hfollow x hx => ?_⟩
  · exact (admits_iff hn).2 (.start hstart)
  · exact (admits_iff hn).2 (.direct hoccurs (heads_iff.2 ⟨gap, s, after, rfl, hgap, hs⟩))
  · exact (admits_iff hn).2 (.flow hoccurs hrest ((admits_iff hc.1).1 hc.2))
  · obtain ⟨hn, hc⟩ := hx
    exact hfollow.of_follows hn ((admits_iff hn).1 hc)

/-- Letters that alternate up to the end of the input. The FOLLOW-sets of `A` and `B` flow
    into each other. -/
def alternating : List Entry :=
  [⟨"Text", [⟨[.nonTerminal "A", .endOfInput]⟩], false⟩,
    ⟨"A", [⟨[.terminal ⟨'a', []⟩, .nonTerminal "B"]⟩, .epsilon], false⟩,
    ⟨"B", [⟨[.terminal ⟨'b', []⟩, .nonTerminal "A"]⟩, .epsilon], false⟩]

theorem precedes_alternating (hg : Grammar.analyse alternating = .ok g) :
    Precedes g p n α ↔ p = "Text" ∧ n = "A" ∧ α = [.endOfInput] ∨
      p = "A" ∧ n = "B" ∧ α = [] ∨ p = "B" ∧ n = "A" ∧ α = [] := by
  obtain ⟨g', hg', hoccurrences⟩ : ∃ g', Grammar.analyse alternating = .ok g' ∧ occurrences g' =
      [⟨"Text", "A", [.endOfInput]⟩, ⟨"A", "B", []⟩, ⟨"B", "A", []⟩] := ⟨_, rfl, rfl⟩
  obtain rfl := Except.ok.inj (hg.symm.trans hg')
  rw [← mem_occurrences (o := ⟨p, n, α⟩), hoccurrences]
  simp

/-- Nothing but the end of the input is asked for behind the letters. -/
theorem sustains_alternating (hg : Grammar.analyse alternating = .ok g) :
    Sustains g (.nonTerminal "Text") {x | x.1 = "Text" ∨ x.2 = none} where
  start n _ hstart c := .inl (Symbol.nonTerminal.inj hstart).symm
  direct n _ p gap s after c hoccurs _ hs := by
    rcases (precedes_alternating hg).1 hoccurs with ⟨-, -, heq⟩ | ⟨-, -, heq⟩ | ⟨-, -, heq⟩
    · obtain ⟨rfl, heq⟩ | ⟨-, heq⟩ := List.append_eq_singleton_iff.1 heq
      · obtain rfl := (List.cons.inj heq).1
        exact .inr hs
      · cases heq
    · simp at heq
    · simp at heq
  flow n _ p rest c hoccurs hrest hc := by
    rcases (precedes_alternating hg).1 hoccurs with ⟨-, -, rfl⟩ | ⟨rfl, -, -⟩ | ⟨rfl, -, -⟩
    · exact absurd hrest (not_allNullable_cons rfl)
    · exact .inr (hc.resolve_left (by decide : "A" ≠ "Text"))
    · exact .inr (hc.resolve_left (by decide : "B" ≠ "Text"))

/-- The end of the input follows `B`, as it follows `A`, and no letter does. -/
theorem FollowSets.compute_isLeast_alternating : ∃ g, Grammar.analyse alternating = .ok g ∧
    ∀ c, (compute g (.nonTerminal "Text")).admits "B" c ↔ c = none := by
  obtain ⟨g, hg, hnames⟩ : ∃ g, Grammar.analyse alternating = .ok g ∧
      g.names = ["Text", "A", "B"] := ⟨_, rfl, rfl⟩
  have hA : "A" ∈ g.names := by simp [hnames]
  have hB : "B" ∈ g.names := by simp [hnames]
  obtain ⟨hfollow, hleast⟩ := compute_isLeast g (.nonTerminal "Text")
  refine ⟨g, hg, fun c => ⟨fun hc => ?_, ?_⟩⟩
  · have hmem := @hleast _ (sustains_alternating hg) ("B", c) ⟨hB, hc⟩
    exact hmem.resolve_left (by decide : "B" ≠ "Text")
  · rintro rfl
    have hend := hfollow.direct "A" hA "Text" [] .endOfInput [] none
      ((precedes_alternating hg).2 (.inl ⟨rfl, rfl, rfl⟩)) allNullable_nil rfl
    exact (hfollow.flow "B" hB "A" [] none
      ((precedes_alternating hg).2 (.inr (.inl ⟨rfl, rfl, rfl⟩))) allNullable_nil
        hend).2

end Follow

end Ramify.Flat
