import Ramify.Proofs.Parse.Verdict
import Ramify.Proofs.Search.Pruning

/-!
# What the FOLLOW-sets leave out

The machine leaves out the empty rule of a name where the lookahead cannot
follow it. Without FOLLOW-sets it would take the empty rule there, and the
attempt would come to nothing:

* an attempt that gets to the end completes all its open branches by what the
  text goes on with (`Completable`, `Solo.completable_of_leads`);
* if the branches behind a name can be completed, then the lookahead there
  follows the name (`Underway.follows`).

So the attempts that are left out are doomed (`prunes`), and the search finds the
same tree in the same generation as if it went without FOLLOW-sets, in no more
steps (`concurs_without_follow`).
-/

namespace Ramify.Parse

open Flat (FollowSets Follows Precedes Rule)
open Search (Leads Doomed Thins)

/-! ### What is left to be done -/

/-- The symbols of its rule that a branch has not got yet. -/
def pending (b : Bough) : List Symbol := b.data.rule.symbols.drop b.children.length

/-- Open branches, innermost first, can be completed by what a text goes on
    with. A branch that is not the innermost one gets it as a child. -/
inductive Completable (m : Machine) : List Bough → List Char → Prop
  | root {l : Bough} {vs : List Sight} {i r : List Char} : m.Grows (pending l) vs i r →
    Completable m [l] i
  | branch {l above : Bough} {ls : List Bough} {v : Sight} {vs : List Sight} {i j : List Char} :
    m.Grows (pending l) vs i j → Completable m (above.add v :: ls) j →
    Completable m (l :: above :: ls) i

variable {m : Machine} {start symbol : Symbol} {w i j : List Char} {l : Bough} {ls : List Bough}
  {u v : Sight} {n : String} {memo : Flat.Memo}

theorem pending_of_due (h : due l = some symbol) (v : Sight) :
    pending l = symbol :: pending (l.add v) := by
  obtain ⟨hlt, rfl⟩ := List.getElem?_eq_some_iff.1 h
  rw [pending, pending, Fork.Limb.add, List.length_append, List.length_singleton,
    List.getElem_cons_drop]

/-- What is due comes first, and then the rest. -/
theorem grows_pending {vs : List Sight} {r : List Char} (hdue : due l = some symbol)
    (hv : m.Grows [symbol] [v] i j) (h : m.Grows (pending (l.add u)) vs j r) :
    m.Grows (pending l) (v :: vs) i r := by
  rw [pending_of_due hdue u]
  exact hv.append h

/-- A branch that has got a child goes on with the rest. -/
theorem Completable.grow (h : Completable m (l.add u :: ls) j) (hdue : due l = some symbol)
    (hv : m.Grows [symbol] [v] i j) : Completable m (l :: ls) i := by
  cases h with
  | root hrest => exact .root (grows_pending hdue hv hrest)
  | branch hrest habove => exact .branch (grows_pending hdue hv hrest) habove

theorem grows_of_complete (h : l.children.length = l.data.rule.length) :
    m.Grows (pending l) [] i i := by
  rw [pending, List.drop_eq_nil_of_le (Nat.le_of_eq h.symm)]
  exact .nil

/-- A complete branch becomes a child of the one above. -/
theorem Completable.close {above : Bough} (h : Completable m (above.add v :: ls) i)
    (hlen : l.children.length = l.data.rule.length) : Completable m (l :: above :: ls) i :=
  .branch (grows_of_complete hlen) h

/-- An attempt that gets to the end completes all its branches. -/
theorem Solo.completable_of_leads {k : Nat} {a b : Solo}
    (h : Leads State.kind (next m) k (.running a) (.accepted b)) :
    Completable m (a.top :: a.above) a.rest := by
  generalize hs : State.running a = s at h
  generalize ht : State.accepted b = t at h
  induction h generalizing a with
  | refl =>
    subst hs
    cases ht
  | @step k s t u ts _ hnext hmem hlead ih =>
    subst hs ht
    have hne : t ≠ .failed := by
      rintro rfl
      cases hlead.eq_of_finished Search.Kind.noConfusion
    cases turn_of_next hnext hmem hne with
    | accept hlen habove =>
      rw [habove]
      exact .root (grows_of_complete hlen)
    | ascend hlen habove =>
      rw [habove]
      exact (ih rfl rfl).close hlen
    | endOfInput hdue hrest =>
      rw [hrest]
      exact (ih rfl rfl).grow hdue (.endOfInput .nil)
    | charClass hdue hrest hk =>
      rw [hrest]
      exact (ih rfl rfl).grow hdue (.charClass hk .nil)
    | terminal hdue hrest =>
      rw [hrest]
      exact (ih rfl rfl).grow hdue (.terminal .nil)
    | descend hdue hrule =>
      -- The branch that was opened is completed first.
      cases ih rfl rfl with
      | branch hbelow habove => exact habove.grow hdue (.nonTerminal hrule hbelow .nil)

/-- The rule of an open branch in which a name is due is a rule of the grammar,
    where what is pending comes behind the name. -/
theorem precedes_of_due {p : String} {rule : Rule} {vs : List Sight} {c : Lookahead}
    (hg : m.grammar.Made memo) (hrule : rule ∈ m.candidates p c)
    (hdue : due ⟨⟨p, rule⟩, vs⟩ = some (.nonTerminal n)) (v : Sight) :
    Precedes m.grammar p n (pending (Fork.Limb.add ⟨⟨p, rule⟩, vs⟩ v)) := by
  have hrewrites : Flat.Rewrites m.grammar.entries p rule := by
    rcases hg.mem_candidates_iff.1 (Machine.mem_candidates_iff.1 hrule).1 with
      ⟨-, -, hrewrites, -⟩ | ⟨-, rfl⟩
    · exact hrewrites
    · cases hdue
  refine ⟨rule, hrewrites, rule.symbols.take vs.length, ?_⟩
  rw [← pending_of_due hdue v]
  exact (List.take_append_drop vs.length rule.symbols).symm

/-- If all that comes behind a name can be completed, the lookahead there follows
    the name. -/
theorem Underway.follows (hg : m.grammar.Made memo) (h : Underway m start w (l :: ls) i)
    (hdue : due l = some (.nonTerminal n)) (hrest : Completable m (l.add v :: ls) j) :
    Follows m.grammar start n j.head? := by
  generalize hall : l :: ls = all at h
  -- The induction goes up the open branches: what follows the name of a branch
  -- follows the last name in its rule.
  induction h generalizing l ls n v j with
  | @root vs =>
    cases hall
    have hmem : Symbol.nonTerminal n ∈ [start] := List.mem_of_getElem? hdue
    exact .start (List.mem_singleton.1 hmem).symm
  | @branch above ls' p rule vs i _ _ hdue' hrule _ ih =>
    cases hall
    cases hrest with
    | @branch _ _ _ v' us _ k hbehind habove =>
      have hfollows : Follows m.grammar start p k.head? := ih hdue' habove rfl
      obtain ⟨ts, hts, hground⟩ := hbehind.derives hg
      exact hts.follows hg (precedes_of_due hg hrule hdue v) hground hfollows

/-- An attempt that takes the empty rule where the lookahead does not follow the
    name is doomed. -/
theorem Solo.doomed_of_not_follows (hg : m.grammar.Made memo) {a : Solo}
    (h : Underway m start w (a.top :: a.above) a.rest) (hdue : due a.top = some (.nonTerminal n))
    (hnot : ¬Follows m.grammar start n a.rest.head?) :
    Doomed State.kind (next m) (.running (a.descend ⟨n, .epsilon⟩)) := by
  intro k u hlead hu
  cases u with
  | accepted b =>
    cases completable_of_leads hlead with
    | branch hbelow habove =>
      cases hbelow
      exact hnot (h.follows hg hdue habove)
  | running b | failed => cases hu

/-! ### Leaving out the empty rule -/

theorem candidates_unrestricted (g : Flat.Grammar) (n : String) (c : Lookahead) :
    Machine.candidates ⟨g, .unrestricted⟩ n c = g.candidates n c := by
  rw [Machine.candidates]
  exact if_pos rfl

/-- Expanding a name gives an attempt for each candidate, and no success. -/
theorem Solo.filter_expand (a : Solo) (n : String) :
    (a.expand m n).filter (State.kind · = .unfinished) =
        ((m.candidates n a.rest.head?).map fun rule => .running (a.descend ⟨n, rule⟩)) ∧
      (a.expand m n).find? (State.kind · = .success) = none := by
  rw [expand]
  split
  · rename_i hnil
    rw [hnil]
    exact ⟨rfl, rfl⟩
  · refine ⟨List.filter_eq_self.2 fun s hs => ?_, List.find?_eq_none.2 fun s hs => ?_⟩
    · obtain ⟨rule, -, rfl⟩ := List.mem_map.1 hs
      rfl
    · obtain ⟨rule, -, rfl⟩ := List.mem_map.1 hs
      exact Bool.false_ne_true

/-- What a machine knows of the grammar matters only where a name is due. -/
theorem Solo.step_eq_or_due (m m' : Machine) {a : Solo}
    (hle : a.top.children.length ≤ a.top.data.rule.length) :
    a.step m = a.step m' ∨ ∃ n, due a.top = some (.nonTerminal n) := by
  rcases length_eq_or_due hle with hlen | ⟨symbol, hdue⟩
  · left
    rw [step_of_complete hlen, step_of_complete hlen]
  · cases symbol with
    | nonTerminal n => exact .inr ⟨n, hdue⟩
    | endOfInput | charClass k | terminal t =>
      left
      rw [step_of_due hdue, step_of_due hdue]
      rfl

/-- With the FOLLOW-sets, only what is doomed is left out of an expansion. -/
theorem Solo.thins_expand {g : Flat.Grammar} (hg : g.Made memo) {a : Solo}
    (h : Underway ⟨g, .unrestricted⟩ start w (a.top :: a.above) a.rest)
    (hdue : due a.top = some (.nonTerminal n)) :
    Thins (Doomed State.kind (next ⟨g, .unrestricted⟩))
      ((a.expand ⟨g, .compute g start⟩ n).filter (State.kind · = .unfinished))
      ((a.expand ⟨g, .unrestricted⟩ n).filter (State.kind · = .unfinished)) := by
  rw [(a.filter_expand n).1, (a.filter_expand n).1, candidates_unrestricted, Machine.candidates]
  dsimp only
  split
  · exact .refl _
  · rename_i hnot
    refine .filter fun rule hrule hepsilon => ?_
    obtain rfl : rule = .epsilon := by
      obtain ⟨symbols⟩ := rule
      simpa [Rule.isEpsilon, Rule.epsilon] using hepsilon
    refine doomed_of_not_follows (m := ⟨g, .unrestricted⟩) hg h hdue fun hfollows => hnot ?_
    exact (FollowSets.admits_iff (mem_names_of_mem_candidates hrule)).2 hfollows

/-- The machine with the FOLLOW-sets does what the one without them does, but for
    attempts that are doomed. -/
theorem prunes {g : Flat.Grammar} (hg : g.Made memo) (start : Symbol) (w : List Char) :
    Search.Prunes Solo.State.kind (Solo.next ⟨g, .unrestricted⟩)
      (Solo.next ⟨g, .compute g start⟩) (Solo.State.Sound ⟨g, .unrestricted⟩ start w) := by
  intro t ht hopen
  cases t with
  | accepted b | failed => cases hopen
  | running a =>
    obtain ⟨us, hus, -⟩ := Solo.step_eq_ok (m := ⟨g, .unrestricted⟩) ht.length_le
    have hsound : ∀ u ∈ us, u.Sound ⟨g, .unrestricted⟩ start w := fun u hu => ht.next hus hu
    rcases Solo.step_eq_or_due ⟨g, .compute g start⟩ ⟨g, .unrestricted⟩ ht.length_le with
      hsame | ⟨n, hdue⟩
    · exact ⟨us, us, hsame.trans hus, hus, hsound, rfl, .refl _⟩
    · obtain rfl := Except.ok.inj ((Solo.step_of_due hdue).symm.trans hus)
      exact ⟨_, _, Solo.step_of_due hdue, hus, hsound,
        (a.filter_expand n).2.trans (a.filter_expand n).2.symm, Solo.thins_expand hg ht hdue⟩

/-! ### Counting steps -/

section Transitions

variable {σ : Type} {s : Shared σ} {a : Attempt} {node : Nat}

namespace Shared

theorem transitions_descendAll {name : String} {c : Lookahead}
    (forks : List (Nat × Nat × Rule)) :
    (descendAll node name c forks s).2.transitions = s.transitions := by
  induction forks generalizing s with
  | nil => rfl
  | cons f forks ih => exact ih

theorem transitions_forkOver {name : String} {rules : List Rule} :
    (s.forkOver a node name rules).2.transitions = s.transitions := by
  rw [forkOver]
  split
  · rfl
  · exact transitions_descendAll _

end Shared

theorem Machine.transitions_expand {name : String} :
    (m.expand a node name s).2.transitions = s.transitions := by
  rw [expand]
  split
  · rfl
  · rfl
  · exact Shared.transitions_forkOver

theorem Machine.transitions_consume (symbol : Symbol) :
    (m.consume a node symbol s).2.transitions = s.transitions := by
  cases symbol with
  | nonTerminal n => exact transitions_expand
  | endOfInput =>
    rw [consume]
    split <;> rfl
  | charClass k =>
    rw [consume]
    split
    · rfl
    · rename_i c _
      obtain ⟨tape, hread⟩ :=
        (s.addLeaf a node ⟨.charClass k, String.singleton c⟩).exists_readNext_eq a
      split
      · generalize (s.addLeaf a node ⟨.charClass k, String.singleton c⟩).readNext a = r at hread ⊢
        obtain ⟨o, s'⟩ := r
        obtain rfl : s' = _ := hread
        cases o <;> rfl
      · rfl
  | terminal t =>
    obtain ⟨tape, htext⟩ := s.exists_readText_eq a t.chars a.lookahead
    rw [consume]
    generalize s.readText a t.chars a.lookahead = r at htext ⊢
    obtain ⟨o, s'⟩ := r
    obtain rfl : s' = _ := htext
    obtain _ | _ | next := o <;> rfl

/-- A step is counted once. -/
theorem Machine.transitions_step : (m.step a s).2.transitions = s.transitions + 1 := by
  rw [step]
  dsimp only
  split
  · rfl
  · split
    · rfl
    · split
      · rfl
      · split <;> rfl
      · exact transitions_consume _

theorem keepsUp (m : Machine) : Search.Simulates.KeepsUp
    (m.automaton : Search.Automaton State (Shared σ) Fault)
    (.counting Solo.State.kind (Solo.next m)) Solo.State.kind (Solo.next m)
    fun s count => s.transitions = count where
  kinds := rfl
  steps _ _ := rfl
  pace {state _ s count} hopen hcount := by
    subst hcount
    cases state with
    | running a => exact Machine.transitions_step
    | accepted a | failed => cases hopen

end Transitions

/-! ### Searching with and without FOLLOW-sets -/

section Search

variable {σ : Type} {g : Flat.Grammar} {s : Shared σ} {a : Attempt}

/-- The search of a machine from an attempt, generation by generation. -/
def Machine.search (m : Machine) (limit : Nat) (a : Attempt) (s : Shared σ) :
    Search.Outcome State Fault × Shared σ :=
  Search.Breadth.run m.automaton limit (.running a) s

/-- Two searches come to the same: they find the same tree, or none. Of two
    searches that find none, the first may come to the end sooner. -/
inductive Concurs : Search.Outcome State Fault × Shared σ →
    Search.Outcome State Fault × Shared σ → Prop
  | found {a a' : Attempt} {s s' : Shared σ} {tree : Tree} : harvest s a = .ok tree →
    harvest s' a' = .ok tree → Concurs (.found (.accepted a), s) (.found (.accepted a'), s')
  | exhausted {s s' : Shared σ} : Concurs (.exhausted, s) (.exhausted, s')
  | stopped {s s' : Shared σ} : Concurs (.stopped, s) (.stopped, s')
  | sooner {s s' : Shared σ} : Concurs (.exhausted, s) (.stopped, s')

/-- Two states that stand for the same accepted attempt are harvested alike. -/
theorem Concurs.of_accepted {u u' : State} {s s' : Shared σ} {t : Solo.State}
    (h : Hosts w s [(u, t)]) (h' : Hosts w s' [(u', t)]) (hsucc : t.kind = .success)
    (ht : t.Sound m start w) : Concurs (.found u, s) (.found u', s') := by
  cases t with
  | running b | failed => cases hsucc
  | accepted b =>
    obtain ⟨v, hb, hv⟩ := ht
    cases h.stands _ List.mem_cons_self with
    | accepted =>
      cases h'.stands _ List.mem_cons_self with
      | accepted => exact .found (harvest_eq_ok h hb hv.solid) (harvest_eq_ok h' hb hv.solid)

/-- What was said of attempts on their own holds of those they are stood for by. -/
theorem Concurs.of_spared {o o' : Search.Outcome State Fault}
    {p p' : Search.Outcome Solo.State Fault} {s s' : Shared σ}
    (h : Search.Simulates.Agree (Hosts w) s o p) (h' : Search.Simulates.Agree (Hosts w) s' o' p')
    (hspared : Search.Spared Solo.State.kind (Solo.State.Sound m start w) p p') :
    Concurs (o, s) (o', s') := by
  cases hspared with
  | found hsucc ht =>
    cases h with
    | found hu =>
      cases h' with
      | found hu' => exact .of_accepted hu hu' hsucc ht
  | exhausted =>
    cases h
    cases h'
    exact .exhausted
  | stopped =>
    cases h
    cases h'
    exact .stopped
  | sooner =>
    cases h
    cases h'
    exact .sooner

/-- A search is one of attempts on their own with the steps counted. -/
theorem Hosts.search (h : Hosts w s [(.running a, .running (Solo.begin start w))]) (m : Machine)
    (limit : Nat) :
    Search.Simulates.Agree (Hosts w) (m.search limit a s).2 (m.search limit a s).1
        (Search.Breadth.run (.counting Solo.State.kind (Solo.next m)) limit
          (.running (Solo.begin start w)) s.transitions).1 ∧
      (m.search limit a s).2.transitions =
        (Search.Breadth.run (.counting Solo.State.kind (Solo.next m)) limit
          (.running (Solo.begin start w)) s.transitions).2 :=
  (simulates m w).run_beside (keepsUp m) h rfl

/-- A search with the FOLLOW-sets comes to the same as one without, in no more
    steps. -/
theorem Hosts.concurs (hg : g.Made memo)
    (h : Hosts w s [(.running a, .running (Solo.begin start w))]) (limit : Nat) :
    Concurs (Machine.search ⟨g, .compute g start⟩ limit a s)
        (Machine.search ⟨g, .unrestricted⟩ limit a s) ∧
      (Machine.search ⟨g, .compute g start⟩ limit a s).2.transitions ≤
        (Machine.search ⟨g, .unrestricted⟩ limit a s).2.transitions := by
  obtain ⟨hagree, hcount⟩ := h.search ⟨g, .compute g start⟩ limit
  obtain ⟨hagree', hcount'⟩ := h.search ⟨g, .unrestricted⟩ limit
  have hbegin : (Solo.State.running (Solo.begin start w)).Sound ⟨g, .unrestricted⟩ start w :=
    Underway.begin
  obtain ⟨hspared, hle⟩ := (prunes hg start w).run rfl hbegin limit s.transitions
  rw [← hcount, ← hcount'] at hle
  exact ⟨.of_spared hagree hagree' hspared, hle⟩

/-- Leaving out empty rules by the FOLLOW-sets changes nothing but the number of
    steps, which gets no larger. Whatever the number of generations, a search
    with the FOLLOW-sets has found a tree by then just if one without them has,
    and then they have found the same. With generations enough, both have found
    a tree or come to the end. -/
theorem concurs_without_follow {g : Flat.Grammar} (hg : g.Analysed) (start : Symbol)
    {produce : σ → Option Char × σ} {source : σ} (hw : Fork.Tape.Yields produce w source) :
    ∃ a s, begin start (.new produce source) 0 = .ok (a, s) ∧ ∀ limit,
      Concurs (Machine.search ⟨g, .compute g start⟩ limit a s)
        (Machine.search ⟨g, .unrestricted⟩ limit a s) ∧
      (Machine.search ⟨g, .compute g start⟩ limit a s).2.transitions ≤
        (Machine.search ⟨g, .unrestricted⟩ limit a s).2.transitions ∧
      (Parser.stepLimit g w.length ≤ limit →
        (Machine.search ⟨g, .compute g start⟩ limit a s).1 ≠ .stopped ∧
          (Machine.search ⟨g, .unrestricted⟩ limit a s).1 ≠ .stopped) := by
  obtain ⟨memo, hmade⟩ := hg.made
  obtain ⟨a, s, hbegin, h⟩ := hosts_begin hw start
  refine ⟨a, s, hbegin, fun limit => ?_⟩
  obtain ⟨hconcurs, hle⟩ := h.concurs hmade limit
  exact ⟨hconcurs, hle, fun hlimit =>
    ⟨Hosts.run_ne_stopped (m := ⟨g, .compute g start⟩) hmade h hlimit,
      Hosts.run_ne_stopped (m := ⟨g, .unrestricted⟩) hmade h hlimit⟩⟩

/-- Of a text of parentheses, nothing but a closing one or the end of the input can follow
    an `S`, so a step is spared wherever an `S` was left out in front of an opening one. -/
theorem concurs_without_follow_onlyParentheses : ∃ g, Plan.onlyParentheses.flatten = .ok g ∧
    ∃ a s, begin (.nonTerminal "Text") (.ofList ['(', ')']) 0 = .ok (a, s) ∧
      (∀ limit, Concurs (Machine.search ⟨g, .compute g (.nonTerminal "Text")⟩ limit a s)
          (Machine.search ⟨g, .unrestricted⟩ limit a s) ∧
        (Machine.search ⟨g, .compute g (.nonTerminal "Text")⟩ limit a s).2.transitions ≤
          (Machine.search ⟨g, .unrestricted⟩ limit a s).2.transitions ∧
        (Parser.stepLimit g 2 ≤ limit →
          (Machine.search ⟨g, .compute g (.nonTerminal "Text")⟩ limit a s).1 ≠ .stopped ∧
            (Machine.search ⟨g, .unrestricted⟩ limit a s).1 ≠ .stopped)) ∧
      (Machine.search ⟨g, .compute g (.nonTerminal "Text")⟩ 10 a s).2.transitions = 10 ∧
      (Machine.search ⟨g, .unrestricted⟩ 10 a s).2.transitions = 12 := by
  obtain ⟨g, a, s, hg, hbegin, hcounts⟩ : ∃ g a s, Plan.onlyParentheses.flatten = .ok g ∧
      begin (.nonTerminal "Text") (.ofList ['(', ')']) 0 = .ok (a, s) ∧
      (Machine.search ⟨g, .compute g (.nonTerminal "Text")⟩ 10 a s).2.transitions = 10 ∧
      (Machine.search ⟨g, .unrestricted⟩ 10 a s).2.transitions = 12 :=
    ⟨_, _, _, rfl, rfl, by decide +kernel, by decide +kernel⟩
  have hanalysed : g.Analysed := by
    dsimp only [Plan.flatten, Plan.onlyParentheses] at hg
    exact .of_flatten hg
  obtain ⟨a', s', hbegin', hconcurs⟩ := concurs_without_follow hanalysed (.nonTerminal "Text")
    (Fork.Tape.yields_fromList ['(', ')'])
  obtain ⟨rfl, rfl⟩ : a' = a ∧ s' = s := by
    have heq := hbegin'.symm.trans hbegin
    exact Prod.mk.inj (Except.ok.inj heq)
  exact ⟨g, hg, a', s', hbegin', hconcurs, hcounts⟩

end Search

end Ramify.Parse
