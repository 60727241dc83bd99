import Ramify.Proofs.Fork.Outlook
import Ramify.Proofs.Parse.Halting
import Ramify.Proofs.Parse.Harvest
import Ramify.Proofs.Search.Order

/-!
# Trees stay intact

Whatever the order in which the attempts of a parse take their steps, and
whichever are given up, what each of them sees is a tree in good order
(`Attempt.Intact`): the marker is on a branch that has no more children than its
rule has symbols, all other branches but those on the way to it are complete,
and the text of the leaves, the lookahead and what is left to be read make up
the input. So none of the faults that a step or the harvest looks out for ever
occurs (`play_orderly`).
-/

namespace Ramify.Parse

open Fork (View Limb Grove)
open Search (Pick)

/-! ### The text of a tree -/

/-- The text of a token: that of the leaf it becomes. -/
def Token.text (t : Token) : List Char :=
  match t.toLeaf with
  | .ok l => l.text.toList
  | .error _ => []

/-- The text of a node, which only a leaf has. -/
def labelText : Fork.Label Site Token → List Char
  | .branch _ => []
  | .leaf token => token.text

/-- The text of the tree that an attempt sees. -/
def Shared.text {σ : Type} (s : Shared σ) (a : Attempt) : List Char :=
  (s.seen a).flatMap (labelText ·.2)

/-- What an attempt sees below the root is a tree in good order. -/
structure Attempt.Intact {σ : Type} (w : List Char) (s : Shared σ) (a : Attempt)
    (root marker : Nat) : Prop where
  /-- The handle of the tree can be used. -/
  root_eq : s.grove.root a.tree = .ok root
  marker_eq : s.grove.marker a.tree = .ok marker
  /-- The marker is on a branch, which does not have too many children. -/
  fits : ∃ site, s.site? marker = some site ∧
    s.grove.visibleCount a.tree marker ≤ site.rule.length
  /-- The branch above the marker, to which the marker moves up, lives. -/
  parent_eq : s.grove.parent a.tree marker = .ok (s.grove.link? marker)
  /-- All branches that are seen are complete, but for those the marker is seen
      from. -/
  complete : ∀ n site, s.grove.Sees a.tree root n → s.site? n = some site →
    s.grove.Sees a.tree n marker ∨ s.grove.visibleCount a.tree n = site.rule.length
  /-- The text of the tree and what is left of the input make up the input. -/
  covers : ∃ unread, s.tape.Unread a.cursor unread ∧
    w = s.text a ++ (a.lookahead.toList ++ unread)

/-! ### What is underway -/

variable {σ : Type} {m : Machine} {start : Symbol} {w i j : List Char} {α : List Symbol}
  {vs : List Sight} {l : Bough} {ls : List Bough} {s : Shared σ} {a : Attempt} {guests : List Guest}
  {rest : List Char}

theorem text_terminal (t : Terminal) : Token.text ⟨.terminal t, ""⟩ = t.chars :=
  String.toList_ofList

theorem text_charClass (k : CharClass) (c : Char) :
    Token.text ⟨.charClass k, String.singleton c⟩ = [c] := by
  rw [Token.text, toLeaf_charClass]
  exact String.toList_singleton c

/-- A branch has as many children as its rule has symbols. -/
def Complete (site : Site) (count : Nat) : Prop := count = site.rule.length

namespace Machine.Grows

theorem every (h : m.Grows α vs i j) : View.Every Complete vs := by
  induction h with
  | nil => exact .nil
  | endOfInput _ ih | charClass _ _ ih | terminal _ ih => exact .leaf ih
  | nonTerminal _ hus _ ihu ih => exact .branch hus.length_eq ihu ih

/-- What is derived has the text that was consumed. -/
theorem text (h : m.Grows α vs i j) : i = (View.leavesOf vs).flatMap Token.text ++ j := by
  induction h with
  | nil => rfl
  | endOfInput _ ih => exact ih
  | charClass _ _ ih =>
    rw [View.leavesOf, View.leaves, List.singleton_append, List.flatMap_cons, text_charClass,
      List.append_assoc, ← ih]
    rfl
  | terminal _ ih =>
    rw [View.leavesOf, View.leaves, List.singleton_append, List.flatMap_cons, text_terminal,
      List.append_assoc, ← ih]
  | nonTerminal _ _ _ ihu ih =>
    rw [View.leavesOf, View.leaves, List.flatMap_append, List.append_assoc, ← ih, ← ihu]

end Machine.Grows

namespace Underway

theorem every (h : Underway m start w ls j) : ∀ l ∈ ls, View.Every Complete l.children := by
  induction h with
  | root h => exact List.forall_mem_singleton.2 h.every
  | branch _ _ _ h ih => exact List.forall_mem_cons.2 ⟨h.every, ih⟩

/-- What an attempt has built has the text that it has consumed. -/
theorem text (h : Underway m start w (l :: ls) j) :
    w = (View.ofLimbs l ls).leaves.flatMap Token.text ++ j := by
  generalize hall : l :: ls = all at h
  induction h generalizing l ls with
  | root h =>
    cases hall
    rw [View.ofLimbs, Limb.close, View.leaves]
    exact h.text
  | @branch l' ls' n rule vs i j _ _ _ h ih =>
    cases hall
    rw [View.ofLimbs, View.leaves_ofLimbs_add, Limb.close, View.leaves, List.flatMap_append,
      List.append_assoc, ← h.text]
    exact ih rfl

end Underway

/-! ### What is seen -/

/-- What an attempt that shares sees from its root. -/
theorem Hosts.Beside.seen (h : Hosts.Beside w s guests a (l :: ls) rest) :
    s.seen a = (View.ofLimbs l ls).outline 0 := by
  obtain ⟨p, hu, -⟩ := h.grove.head
  rw [Shared.seen, Grove.root_of_use hu]
  exact h.grove.head.outline hu

theorem Hosts.Beside.intact (h : Hosts.Beside w s guests a (l :: ls) rest)
    (hl : a.lookahead = rest.head?) (hway : Underway m start w (l :: ls) rest) :
    ∃ root marker, a.Intact w s root marker := by
  obtain ⟨p, hu, hmarker, hsite, hcount⟩ := h.marker
  have hrest : a.lookahead.toList ++ rest.tail = rest := by
    rw [hl]
    cases rest <;> rfl
  refine ⟨p.root, p.marker, Grove.root_of_use hu, hmarker, ⟨l.data, hsite, ?_⟩,
    h.grove.head.parent hu, fun n site hsees hn => ?_, rest.tail, h.tape.unread, ?_⟩
  · rw [hcount]
    exact hway.length_le
  · rw [Grove.visibleCount_eq]
    exact h.grove.head.every hu hway.every hsees (label?_of_site? hn)
  · rw [hrest, Shared.text, h.seen, View.flatMap_outline labelText fun _ => rfl]
    exact hway.text

/-- Also an accepted attempt is underway, with nothing left to do. -/
theorem Solo.State.Sound.underway {b : Solo} (h : (State.accepted b).Sound m start w) :
    Underway m start w (b.top :: b.above) b.rest := by
  obtain ⟨top, above, rest⟩ := b
  obtain ⟨v, heq, hv⟩ := h
  cases heq
  exact .root hv

/-- What the attempt of a state stands for, be the state accepted or not. -/
theorem Hosts.beside {state : State} {t : Solo.State} (h : Hosts w s [(state, t)])
    (ht : t.Sound m start w) (ha : state.attempt? = some a) :
    ∃ b : Solo, a.lookahead = b.rest.head? ∧
      Hosts.Beside w s [] a (b.top :: b.above) b.rest ∧
      Underway m start w (b.top :: b.above) b.rest := by
  cases h.stands _ List.mem_cons_self with
  | @running _ b =>
    cases ha
    obtain ⟨hl, hb⟩ := running_iff.1 h
    exact ⟨b, hl, hb, ht⟩
  | @accepted _ b =>
    cases ha
    obtain ⟨hl, hb⟩ := accepted_iff.1 h
    exact ⟨b, hl, hb, ht.underway⟩
  | failed => cases ha

/-- An accepted attempt is harvested without a fault. -/
theorem Hosts.exists_harvest_eq_ok {t : Solo.State} (h : Hosts w s [(.accepted a, t)])
    (ht : t.Sound m start w) : ∃ tree, harvest s a = .ok tree := by
  cases h.stands _ List.mem_cons_self with
  | accepted =>
    obtain ⟨v, hb, hv⟩ := ht
    exact ⟨_, harvest_eq_ok h hb hv.solid⟩

/-- A state is in good order: what its attempt sees is, and neither a step of it
    nor the harvest ends in a fault. -/
structure State.Orderly (m : Machine) (w : List Char) (s : Shared σ) (state : State) : Prop where
  intact : ∀ a, state.attempt? = some a → ∃ root marker, a.Intact w s root marker
  steps : ∃ new s', m.next state s = (.ok new, s')
  harvested : ∀ a, state = .accepted a → ∃ tree, harvest s a = .ok tree

theorem Hosts.orderly {state : State} {t : Solo.State} (h : Hosts w s [(state, t)])
    (ht : t.Sound m start w) : state.Orderly m w s where
  intact a ha := by
    obtain ⟨b, hl, hb, hway⟩ := h.beside ht ha
    exact hb.intact hl hway
  steps := by
    obtain ⟨new, s', hnew, -⟩ := h.exists_next ht
    exact ⟨_, s', hnew⟩
  harvested a ha := by
    subst ha
    exact h.exists_harvest_eq_ok ht

/-- Whichever attempts take steps and whichever are given up, all states that are
    held are in good order. -/
theorem play_orderly (m : Machine) (start : Symbol) {produce : σ → Option Char × σ} {source : σ}
    (hw : Fork.Tape.Yields produce w source) :
    ∃ a s, begin start (.new produce source) 0 = .ok (a, s) ∧
      ∀ picks : List Pick, ∃ states s',
        m.automaton.play Shared.release picks [.running a] s = .ok (states, s') ∧
          ∀ state ∈ states, state.Orderly m w s' := by
  obtain ⟨a, s, hbegin, h⟩ := hosts_begin hw start
  refine ⟨a, s, hbegin, fun picks => ?_⟩
  obtain ⟨guests, s', hplay, -, h', hsound⟩ := h.play (m := m) picks
  refine ⟨_, s', hplay, fun state hstate => ?_⟩
  obtain ⟨x, hx, rfl⟩ := List.mem_map.1 hstate
  -- What can be said of a state does not depend on the others.
  exact Hosts.orderly (h'.thin (List.singleton_sublist.2 hx).subperm) (hsound x hx)

theorem play_orderly_parentheses : ∃ g, parentheses.flatten = .ok g ∧
    ∃ a s, begin (.nonTerminal "S") (.ofList ['(', ')']) 0 = .ok (a, s) ∧
      ∀ picks : List Pick, ∃ states s',
        (Machine.automaton ⟨g, .compute g (.nonTerminal "S")⟩).play Shared.release picks
          [.running a] s = .ok (states, s') ∧
          ∀ state ∈ states,
            state.Orderly ⟨g, .compute g (.nonTerminal "S")⟩ ['(', ')'] s' := by
  obtain ⟨g, hg⟩ : ∃ g, parentheses.flatten = .ok g := ⟨_, rfl⟩
  exact ⟨g, hg, play_orderly _ _ (Fork.Tape.yields_fromList ['(', ')'])⟩

end Ramify.Parse
