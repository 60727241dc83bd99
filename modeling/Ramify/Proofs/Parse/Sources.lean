import Ramify.Proofs.Fork.Chunks
import Ramify.Proofs.Search.Lockstep
import Ramify.Parse.Harvest
import Ramify.Parse.Machine

/-!
# Input from different sources

A parse sees of its source only the characters that it yields. So two parses of the
same characters do the same at every step, wherever they come from
(`Machine.lockstep`): their worlds stay the same but for the producers of their tapes
(`Shared.Agrees`), and so do the syntax trees that are harvested.
-/

namespace Ramify.Parse

open Fork (Tape)

variable {σ τ β : Type} {origin : Tape σ Char} {origin' : Tape τ Char} {w : List Char}
  {s : Shared σ} {s' : Shared τ} {a : Attempt} {node : Nat} {m : Machine}

/-- Two worlds differ in nothing but the producers of their tapes. -/
structure Shared.Agrees (origin : Tape σ Char) (origin' : Tape τ Char) (w : List Char)
    (s : Shared σ) (s' : Shared τ) : Prop where
  tape : Tape.Agrees origin origin' w s.tape s'.tape
  grove : s'.grove = s.grove
  transitions : s'.transitions = s.transitions
  forks : s'.forks = s.forks

/-- What is done in two worlds comes to the same, and they go on to agree. -/
structure Same (origin : Tape σ Char) (origin' : Tape τ Char) (w : List Char)
    (r : β × Shared σ) (r' : β × Shared τ) : Prop where
  result : r.1 = r'.1
  world : r.2.Agrees origin origin' w r'.2

theorem Same.exists_eq {r : β × Shared σ} {r' : β × Shared τ} (h : Same origin origin' w r r') :
    ∃ o s s', r = (o, s) ∧ r' = (o, s') ∧ s.Agrees origin origin' w s' :=
  ⟨r.1, r.2, r'.2, rfl, Prod.ext h.result.symm rfl, h.world⟩

namespace Shared.Agrees

theorem of_tape {u : Tape τ Char} (h : Tape.Agrees origin origin' w s.tape u) :
    s.Agrees origin origin' w ⟨s.grove, u, s.transitions, s.forks⟩ :=
  ⟨h, rfl, rfl, rfl⟩

section Operations

variable (h : s.Agrees origin origin' w s')

include h

theorem exists_eq : ∃ u, s' = ⟨s.grove, u, s.transitions, s.forks⟩ ∧
    Tape.Agrees origin origin' w s.tape u := by
  obtain ⟨grove, u, transitions, forks⟩ := s'
  obtain ⟨htape, rfl, rfl, rfl⟩ := h
  exact ⟨u, rfl, htape⟩

theorem discard (a : Attempt) : (s.discard a).Agrees origin origin' w (s'.discard a) :=
  ⟨h.tape.drop a.cursor, congrArg (Fork.Grove.drop a.tree) h.grove, h.transitions, h.forks⟩

theorem fail (a : Attempt) : Same origin origin' w (s.fail a) (s'.fail a) :=
  ⟨rfl, h.discard a⟩

theorem addLeaf (a : Attempt) (node : Nat) (token : Token) :
    (s.addLeaf a node token).Agrees origin origin' w (s'.addLeaf a node token) :=
  ⟨h.tape, congrArg (Fork.Grove.attach a.tree node (.leaf token)) h.grove, h.transitions, h.forks⟩

theorem descend (a : Attempt) (node : Nat) (site : Site) :
    (s.descend a node site).Agrees origin origin' w (s'.descend a node site) := by
  refine ⟨h.tape, ?_, h.transitions, h.forks⟩
  rw [Shared.descend, Shared.descend, h.grove]

theorem moveTo (a : Attempt) (node : Nat) :
    (s.moveTo a node).Agrees origin origin' w (s'.moveTo a node) :=
  ⟨h.tape, congrArg (Fork.Grove.mark a.tree node) h.grove, h.transitions, h.forks⟩

theorem readNext (a : Attempt) : Same origin origin' w (s.readNext a) (s'.readNext a) := by
  obtain ⟨hread, htape⟩ := h.tape.advance a.cursor
  rw [Shared.readNext, Shared.readNext, h.tape.roster]
  cases s.tape.roster.use a.cursor with
  | error e => exact ⟨rfl, h⟩
  | ok c => exact ⟨congrArg Except.ok hread, htape, h.grove, h.transitions, h.forks⟩

theorem readText (a : Attempt) (chars : List Char) (c : Lookahead) :
    Same origin origin' w (s.readText a chars c) (s'.readText a chars c) := by
  induction chars generalizing s s' c with
  | nil => exact ⟨rfl, h⟩
  | cons expected chars ih =>
    have hnext := h.readNext a
    rw [Shared.readText, Shared.readText]
    split
    · generalize s.readNext a = r at hnext ⊢
      generalize s'.readNext a = r' at hnext ⊢
      obtain ⟨e | next, s₁, s₁', rfl, rfl, hworld⟩ := hnext.exists_eq
      · exact ⟨rfl, hworld⟩
      · exact ih hworld next
    · exact ⟨rfl, h⟩

theorem descendAll (node : Nat) (name : String) (c : Lookahead)
    (forks : List (Nat × Nat × Flat.Rule)) :
    Same origin origin' w (s.descendAll node name c forks) (s'.descendAll node name c forks) := by
  induction forks generalizing s s' with
  | nil => exact ⟨rfl, h⟩
  | cons fork forks ih =>
    obtain ⟨tree, cursor, rule⟩ := fork
    obtain ⟨hstates, hworld⟩ := ih (h.descend ⟨tree, cursor, c⟩ node ⟨name, rule⟩)
    exact ⟨congrArg (List.cons _) hstates, hworld⟩

theorem forkOver (a : Attempt) (node : Nat) (name : String) (rules : List Flat.Rule) :
    Same origin origin' w (s.forkOver a node name rules) (s'.forkOver a node name rules) := by
  obtain ⟨u, rfl, htape⟩ := h.exists_eq
  rw [Shared.forkOver, Shared.forkOver]
  dsimp only
  rw [htape.roster]
  cases hu : s.tape.roster.use a.cursor with
  | error e => exact ⟨rfl, h⟩
  | ok c =>
    obtain ⟨hcursors, hsplit⟩ := htape.split hu rules.length
    dsimp only
    rw [hcursors]
    -- The forks are the same, and so are the branches that are opened for them.
    have hall := (of_tape (s := ⟨(s.grove.split a.tree rules.length).2,
      (s.tape.split a.cursor rules.length).2, s.transitions, s.forks + 1⟩) hsplit).descendAll node
      name a.lookahead ((s.grove.split a.tree rules.length).1.zip
        ((u.split a.cursor rules.length).1.zip rules))
    exact ⟨congrArg Except.ok hall.result, hall.world.discard a⟩

theorem expand (m : Machine) (a : Attempt) (node : Nat) (name : String) :
    Same origin origin' w (m.expand a node name s) (m.expand a node name s') := by
  rw [Machine.expand, Machine.expand]
  split
  · exact h.fail a
  · exact ⟨rfl, h.descend a node _⟩
  · exact h.forkOver a node name _

theorem consume (m : Machine) (a : Attempt) (node : Nat) (symbol : Symbol) :
    Same origin origin' w (m.consume a node symbol s) (m.consume a node symbol s') := by
  cases symbol with
  | nonTerminal name => exact h.expand m a node name
  | endOfInput =>
    rw [Machine.consume, Machine.consume]
    split
    · exact h.fail a
    · exact ⟨rfl, h.addLeaf a node _⟩
  | charClass k =>
    rw [Machine.consume, Machine.consume]
    cases hlook : a.lookahead with
    | none => exact h.fail a
    | some c =>
      dsimp only
      have hnext := (h.addLeaf a node ⟨.charClass k, String.singleton c⟩).readNext a
      split
      · generalize (s.addLeaf a node ⟨.charClass k, String.singleton c⟩).readNext a = r at hnext ⊢
        generalize (s'.addLeaf a node ⟨.charClass k, String.singleton c⟩).readNext a = r' at hnext ⊢
        obtain ⟨e | next, s₁, s₁', rfl, rfl, hworld⟩ := hnext.exists_eq
        · exact ⟨rfl, hworld⟩
        · exact ⟨rfl, hworld⟩
      · exact h.fail a
  | terminal t =>
    have htext := h.readText a t.chars a.lookahead
    rw [Machine.consume, Machine.consume]
    generalize s.readText a t.chars a.lookahead = r at htext ⊢
    generalize s'.readText a t.chars a.lookahead = r' at htext ⊢
    obtain ⟨e | _ | next, s₁, s₁', rfl, rfl, hworld⟩ := htext.exists_eq
    · exact ⟨rfl, hworld⟩
    · exact hworld.fail a
    · exact ⟨rfl, hworld.addLeaf a node _⟩

theorem step (m : Machine) (a : Attempt) : Same origin origin' w (m.step a s) (m.step a s') := by
  obtain ⟨u, rfl, htape⟩ := h.exists_eq
  have h₁ := of_tape (s := { s with transitions := s.transitions + 1 }) htape
  rw [Machine.step, Machine.step]
  dsimp only
  cases s.grove.marker a.tree with
  | error e => exact ⟨rfl, h₁⟩
  | ok node =>
    dsimp only [Shared.site?]
    split
    · exact ⟨rfl, h₁⟩
    · rename_i site _
      cases site.agenda (s.grove.visibleCount a.tree node) with
      | overflow => exact ⟨rfl, h₁⟩
      | complete =>
        dsimp only
        cases s.grove.link? node with
        | none => exact ⟨rfl, h₁⟩
        | some above => exact ⟨rfl, h₁.moveTo a above⟩
      | symbol symbol => exact h₁.consume m a node symbol

end Operations

end Shared.Agrees

/-- Two parses of the same characters do the same. -/
theorem Machine.lockstep (m : Machine) (origin : Tape σ Char) (origin' : Tape τ Char)
    (w : List Char) : Search.Lockstep (m.automaton : Search.Automaton State (Shared σ) Fault)
      m.automaton (Shared.Agrees origin origin' w) where
  kind := rfl
  next {state s s'} h := by
    cases state with
    | running a =>
      obtain ⟨hresult, hworld⟩ := h.step m a
      exact ⟨hresult, hworld⟩
    | accepted | failed => exact ⟨rfl, h⟩

/-! ### Beginning and harvesting -/

section Begin

variable {produce : σ → Option Char × σ} {produce' : τ → Option Char × τ} {source : σ}
  {source' : τ} {start : Symbol}

/-- The first attempt, and the world it is in. -/
theorem begin_new : begin start (.new produce source) 0 =
    .ok (⟨0, 0, ((Tape.new produce source).advance 0).1⟩,
      ⟨Fork.Grove.empty.plant (.branch ⟨"", ⟨[start]⟩⟩), ((Tape.new produce source).advance 0).2,
        0, 0⟩) := by
  rw [begin, Tape.next, Tape.use_new]

/-- The first attempt is the same. -/
theorem begin_agrees (hw : Tape.Yields produce w source) (hw' : Tape.Yields produce' w source')
    (hbegin : begin start (.new produce source) 0 = .ok (a, s)) :
    ∃ s', begin start (.new produce' source') 0 = .ok (a, s') ∧
      s.Agrees (.new produce source) (.new produce' source') w s' := by
  obtain ⟨hread, htape⟩ := (Tape.agrees_new hw hw').advance 0
  rw [begin_new] at hbegin
  obtain ⟨rfl, rfl⟩ := Prod.mk.inj (Except.ok.inj hbegin)
  exact ⟨_, by rw [begin_new, hread], .of_tape htape⟩

end Begin

/-- What is harvested does not depend on the source. -/
theorem harvest_congr (hgrove : s'.grove = s.grove) : harvest s' a = harvest s a := by
  simp only [harvest, convert, hgrove]

end Ramify.Parse
