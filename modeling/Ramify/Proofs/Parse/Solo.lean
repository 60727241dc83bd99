import Mathlib.Algebra.GroupWithZero.Nat
import Mathlib.Data.List.Basic
import Ramify.Parse.Machine
import Ramify.Proofs.Fork.View
import Ramify.Proofs.Search.Paths

/-!
# Attempts on their own

The parsing machine without sharing: an attempt that owns its tree and its
input (`Solo`), and takes the steps of the machine on them (`Solo.next`). Its tree
is given by the limbs from the marker up to the root, and its input is what is
left of it, the lookahead included.

On its own, an attempt is easy to follow. It builds a derivation from the left
to the right, expanding names by candidates only:

* `Machine.Grows`: symbols derive views from one place of the input to another,
  with the rules the machine would choose from;
* `Underway`: what an attempt has built at any moment is such a derivation up
  to there, for all limbs;
* `leads_accepted_iff`: the attempts that complete the start symbol are exactly
  its derivations, and how many steps it takes is told by what was built (`toll`).
-/

namespace Ramify.Parse

open Fork (View Limb)
open Search (Leads)

/-- What an attempt sees at a node. -/
abbrev Sight := View Site Token

/-- An open branch of an attempt. -/
abbrev Bough := Limb Site Token

mutual

/-- The number of steps it takes to build a view: branches are opened and closed. -/
def toll : Sight → Nat
  | .leaf _ => 1
  | .branch _ vs => 2 + tolls vs

/-- The number of steps it takes to build views. -/
def tolls : List Sight → Nat
  | [] => 0
  | v :: vs => toll v + tolls vs

end

theorem tolls_append (us vs : List Sight) : tolls (us ++ vs) = tolls us + tolls vs := by
  induction us with
  | nil => rw [List.nil_append, tolls, Nat.zero_add]
  | cons u us ih => rw [List.cons_append, tolls, tolls, ih, Nat.add_assoc]

/-- An attempt on its own. -/
structure Solo where
  /-- The branch at the marker. -/
  top : Bough
  /-- The branches above it, up to the root. -/
  above : List Bough
  /-- The rest of the input. -/
  rest : List Char

namespace Solo

/-- A state of the machine, where every attempt is on its own. -/
inductive State where
  /-- An attempt in progress. -/
  | running (a : Solo)
  /-- An attempt that completed the start symbol. -/
  | accepted (a : Solo)
  /-- An attempt that came to nothing. -/
  | failed

/-- What is to be done with a state. -/
def State.kind : State → Search.Kind
  | running _ => .unfinished
  | accepted _ => .success
  | failed => .fail

/-- The first attempt at a start symbol. -/
def begin (start : Symbol) (w : List Char) : Solo := ⟨⟨⟨"", ⟨[start]⟩⟩, []⟩, [], w⟩

/-- An attempt whose marked branch gets a leaf. -/
def grow (a : Solo) (token : Token) (rest : List Char) : Solo :=
  ⟨a.top.add (.leaf token), a.above, rest⟩

/-- An attempt that opens a branch. -/
def descend (a : Solo) (site : Site) : Solo := ⟨⟨site, []⟩, a.top :: a.above, a.rest⟩

variable (m : Machine)

/-- Expands a name. -/
def expand (a : Solo) (name : String) : List State :=
  match m.candidates name a.rest.head? with
  | [] => [.failed]
  | rules => rules.map fun rule => .running (a.descend ⟨name, rule⟩)

/-- Deals with a symbol. -/
def consume (a : Solo) : Symbol → List State
  | .endOfInput => if a.rest = [] then [.running (a.grow ⟨.endOfInput, ""⟩ [])] else [.failed]
  | .charClass k =>
    match a.rest with
    | [] => [.failed]
    | c :: rest =>
      if k.accepts (some c) then
        [.running (a.grow ⟨.charClass k, String.singleton c⟩ rest)]
      else [.failed]
  | .terminal t =>
    match t.chars.isPrefixOf? a.rest with
    | some rest => [.running (a.grow ⟨.terminal t, ""⟩ rest)]
    | none => [.failed]
  | .nonTerminal name => a.expand m name

/-- One step of an attempt. -/
def step (a : Solo) : Except Fault (List State) :=
  match a.top.data.agenda a.top.children.length with
  | .overflow => .error (.childOverflow a.top.children.length a.top.data.rule.length)
  | .complete =>
    match a.above with
    | [] => .ok [.accepted a]
    | limb :: limbs => .ok [.running ⟨limb.add a.top.close, limbs, a.rest⟩]
  | .symbol symbol => .ok (a.consume m symbol)

/-- One step of a state. -/
def next : State → Except Fault (List State)
  | .running a => a.step m
  | done => .ok [done]

end Solo

/-! ### What a step can do -/

/-- The symbol that comes next at an open branch. -/
def due (b : Bough) : Option Symbol := b.data.rule.symbols[b.children.length]?

/-- What a step can make of an attempt, other than a failure. -/
inductive Solo.Turn (m : Machine) (a : Solo) : Solo.State → Prop
  | accept : a.top.children.length = a.top.data.rule.length → a.above = [] → Turn m a (.accepted a)
  | ascend {limb : Bough} {limbs : List Bough} :
    a.top.children.length = a.top.data.rule.length → a.above = limb :: limbs →
    Turn m a (.running ⟨limb.add a.top.close, limbs, a.rest⟩)
  | endOfInput : due a.top = some .endOfInput → a.rest = [] →
    Turn m a (.running (a.grow ⟨.endOfInput, ""⟩ []))
  | charClass {k : CharClass} {c : Char} {rest : List Char} :
    due a.top = some (.charClass k) → a.rest = c :: rest → k.accepts (some c) →
    Turn m a (.running (a.grow ⟨.charClass k, String.singleton c⟩ rest))
  | terminal {t : Terminal} {rest : List Char} :
    due a.top = some (.terminal t) → a.rest = t.chars ++ rest →
    Turn m a (.running (a.grow ⟨.terminal t, ""⟩ rest))
  | descend {n : String} {rule : Flat.Rule} :
    due a.top = some (.nonTerminal n) → rule ∈ m.candidates n a.rest.head? →
    Turn m a (.running (a.descend ⟨n, rule⟩))

namespace Solo

variable {m : Machine} {a : Solo} {s : State}

theorem mem_expand {n : String} : s ∈ a.expand m n ∧ s ≠ .failed ↔
    ∃ rule ∈ m.candidates n a.rest.head?, s = .running (a.descend ⟨n, rule⟩) := by
  rw [expand]
  split
  · rename_i hnil
    simp [hnil]
  · rw [List.mem_map]
    constructor
    · rintro ⟨⟨rule, hmem, rfl⟩, -⟩
      exact ⟨rule, hmem, rfl⟩
    · rintro ⟨rule, hmem, rfl⟩
      exact ⟨⟨rule, hmem, rfl⟩, State.noConfusion⟩

theorem turn_of_mem_consume {symbol : Symbol} (hdue : due a.top = some symbol)
    (hs : s ∈ a.consume m symbol) (hne : s ≠ .failed) : Turn m a s := by
  cases symbol with
  | endOfInput =>
    rw [consume] at hs
    split at hs
    · rename_i hrest
      rw [List.mem_singleton.1 hs]
      exact .endOfInput hdue hrest
    · exact absurd (List.mem_singleton.1 hs) hne
  | charClass k =>
    rw [consume] at hs
    split at hs
    · exact absurd (List.mem_singleton.1 hs) hne
    · rename_i c rest hrest
      split at hs
      · rename_i hk
        rw [List.mem_singleton.1 hs]
        exact .charClass hdue hrest hk
      · exact absurd (List.mem_singleton.1 hs) hne
  | terminal t =>
    rw [consume] at hs
    split at hs
    · rename_i rest hrest
      rw [List.mem_singleton.1 hs]
      exact .terminal hdue (List.isPrefixOf?_eq_some_iff_append_eq.1 hrest).symm
    · exact absurd (List.mem_singleton.1 hs) hne
  | nonTerminal n =>
    obtain ⟨rule, hmem, rfl⟩ := mem_expand.1 ⟨hs, hne⟩
    exact .descend hdue hmem

theorem Turn.mem_consume {symbol : Symbol} (h : Turn m a s) (hdue : due a.top = some symbol) :
    s ∈ a.consume m symbol ∧ s ≠ .failed := by
  have hlt : a.top.children.length < a.top.data.rule.length :=
    (List.getElem?_eq_some_iff.1 hdue).1
  cases h with
  | accept hlen | ascend hlen => exact absurd hlen (Nat.ne_of_lt hlt)
  | endOfInput hdue' hrest =>
    obtain rfl := Option.some.inj (hdue.symm.trans hdue')
    rw [consume, if_pos hrest]
    exact ⟨List.mem_singleton_self _, State.noConfusion⟩
  | charClass hdue' hrest hk =>
    obtain rfl := Option.some.inj (hdue.symm.trans hdue')
    rw [consume, hrest]
    dsimp only
    rw [if_pos hk]
    exact ⟨List.mem_singleton_self _, State.noConfusion⟩
  | terminal hdue' hrest =>
    obtain rfl := Option.some.inj (hdue.symm.trans hdue')
    rw [consume, List.isPrefixOf?_eq_some_iff_append_eq.2 hrest.symm]
    exact ⟨List.mem_singleton_self _, State.noConfusion⟩
  | descend hdue' hmem =>
    obtain rfl := Option.some.inj (hdue.symm.trans hdue')
    exact mem_expand.2 ⟨_, hmem, rfl⟩

theorem mem_consume {symbol : Symbol} (hdue : due a.top = some symbol) :
    s ∈ a.consume m symbol ∧ s ≠ .failed ↔ Turn m a s :=
  ⟨fun h => turn_of_mem_consume hdue h.1 h.2, fun h => h.mem_consume hdue⟩

/-- The agenda of an attempt with no more children than its rule has symbols. -/
theorem step_of_due {symbol : Symbol} (hdue : due a.top = some symbol) :
    a.step m = .ok (a.consume m symbol) := by
  rw [due] at hdue
  rw [step, Site.agenda, hdue]

theorem step_of_complete (hlen : a.top.children.length = a.top.data.rule.length) :
    a.step m = match a.above with
      | [] => .ok [.accepted a]
      | limb :: limbs => .ok [.running ⟨limb.add a.top.close, limbs, a.rest⟩] := by
  have hnone : a.top.data.rule.symbols[a.top.children.length]? = none :=
    List.getElem?_eq_none (Nat.le_of_eq hlen.symm)
  rw [step, Site.agenda, hnone]
  dsimp only
  rw [if_pos hlen]

/-- A branch either has all its children or is due another one. -/
theorem length_eq_or_due {b : Bough} (hle : b.children.length ≤ b.data.rule.length) :
    b.children.length = b.data.rule.length ∨ ∃ symbol, due b = some symbol := by
  rcases Nat.eq_or_lt_of_le hle with heq | hlt
  · exact .inl heq
  · exact .inr ⟨_, List.getElem?_eq_getElem hlt⟩

/-- An attempt with no more children than its rule has symbols can take a step. -/
theorem step_eq_ok (hle : a.top.children.length ≤ a.top.data.rule.length) :
    ∃ ss, a.step m = .ok ss ∧ ∀ s, s ∈ ss ∧ s ≠ .failed ↔ Turn m a s := by
  rcases length_eq_or_due hle with hlen | ⟨symbol, hdue⟩
  · have hnone : due a.top = none := List.getElem?_eq_none (Nat.le_of_eq hlen.symm)
    rw [step_of_complete hlen]
    split
    · rename_i hnil
      refine ⟨_, rfl, fun s => ⟨?_, fun hturn => ?_⟩⟩
      · rintro ⟨hs, -⟩
        rw [List.mem_singleton.1 hs]
        exact .accept hlen hnil
      · cases hturn with
        | accept => exact ⟨List.mem_singleton_self _, State.noConfusion⟩
        | ascend _ habove => exact nomatch hnil.symm.trans habove
        | endOfInput hdue | charClass hdue | terminal hdue | descend hdue =>
          exact nomatch hnone.symm.trans hdue
    · rename_i limb limbs habove
      refine ⟨_, rfl, fun s => ⟨?_, fun hturn => ?_⟩⟩
      · rintro ⟨hs, -⟩
        rw [List.mem_singleton.1 hs]
        exact .ascend hlen habove
      · cases hturn with
        | accept _ hnil => exact nomatch hnil.symm.trans habove
        | ascend _ habove' =>
          obtain ⟨rfl, rfl⟩ := List.cons.inj (habove.symm.trans habove')
          exact ⟨List.mem_singleton_self _, State.noConfusion⟩
        | endOfInput hdue | charClass hdue | terminal hdue | descend hdue =>
          exact nomatch hnone.symm.trans hdue
  · exact ⟨_, step_of_due hdue, fun s => mem_consume hdue⟩

end Solo

/-! ### Derivations by candidates -/

/-- Symbols derive views from one place of the input to another. A name is
    expanded by a rule that is a candidate for the lookahead there. -/
inductive Machine.Grows (m : Machine) :
    List Symbol → List Sight → List Char → List Char → Prop
  | nil {i : List Char} : Grows m [] [] i i
  | endOfInput {α : List Symbol} {vs : List Sight} {r : List Char} :
    Grows m α vs [] r → Grows m (.endOfInput :: α) (.leaf ⟨.endOfInput, ""⟩ :: vs) [] r
  | charClass {k : CharClass} {c : Char} {α : List Symbol} {vs : List Sight} {i r : List Char} :
    k.accepts (some c) → Grows m α vs i r →
    Grows m (.charClass k :: α) (.leaf ⟨.charClass k, String.singleton c⟩ :: vs) (c :: i) r
  | terminal {t : Terminal} {α : List Symbol} {vs : List Sight} {i r : List Char} :
    Grows m α vs i r → Grows m (.terminal t :: α) (.leaf ⟨.terminal t, ""⟩ :: vs) (t.chars ++ i) r
  | nonTerminal {n : String} {rule : Flat.Rule} {α : List Symbol} {us vs : List Sight}
      {i j r : List Char} :
    rule ∈ m.candidates n i.head? → Grows m rule.symbols us i j → Grows m α vs j r →
    Grows m (.nonTerminal n :: α) (.branch ⟨n, rule⟩ us :: vs) i r

namespace Machine.Grows

variable {m : Machine} {α β : List Symbol} {vs us : List Sight} {i j r : List Char}

theorem append (h : m.Grows α vs i j) (h' : m.Grows β us j r) :
    m.Grows (α ++ β) (vs ++ us) i r := by
  induction h with
  | nil => exact h'
  | endOfInput _ ih => exact .endOfInput (ih h')
  | charClass hk _ ih => exact .charClass hk (ih h')
  | terminal _ ih => exact .terminal (ih h')
  | nonTerminal hmem hus _ _ ih => exact .nonTerminal hmem hus (ih h')

theorem length_eq (h : m.Grows α vs i j) : vs.length = α.length := by
  induction h with
  | nil => rfl
  | endOfInput _ ih | charClass _ _ ih | terminal _ ih | nonTerminal _ _ _ _ ih =>
    rw [List.length_cons, List.length_cons, ih]

end Machine.Grows

/-! ### What an attempt has built -/

/-- The open branches of an attempt that began with a text, innermost first:
    each was opened for a symbol that was due, by a candidate, and has derived
    its children up to where the next one was opened, or up to where the
    attempt is. -/
inductive Underway (m : Machine) (start : Symbol) (w : List Char) :
    List Bough → List Char → Prop
  | root {vs : List Sight} {i : List Char} : m.Grows ([start].take vs.length) vs w i →
    Underway m start w [⟨⟨"", ⟨[start]⟩⟩, vs⟩] i
  | branch {l : Bough} {ls : List Bough} {n : String} {rule : Flat.Rule} {vs : List Sight}
      {i j : List Char} :
    Underway m start w (l :: ls) i → due l = some (.nonTerminal n) →
    rule ∈ m.candidates n i.head? → m.Grows (rule.symbols.take vs.length) vs i j →
    Underway m start w (⟨⟨n, rule⟩, vs⟩ :: l :: ls) j

namespace Underway

variable {m : Machine} {start symbol : Symbol} {w i j : List Char} {l : Bough} {ls : List Bough}
  {v : Sight}

theorem begin : Underway m start w [⟨⟨"", ⟨[start]⟩⟩, []⟩] w := .root .nil

/-- What the innermost branch has derived. -/
theorem grows (h : Underway m start w (l :: ls) j) :
    ∃ i, m.Grows (l.data.rule.symbols.take l.children.length) l.children i j := by
  cases h with
  | root h => exact ⟨_, h⟩
  | branch _ _ _ h => exact ⟨_, h⟩

theorem length_le (h : Underway m start w (l :: ls) j) :
    l.children.length ≤ l.data.rule.length := by
  obtain ⟨i, h⟩ := h.grows
  rw [h.length_eq, Flat.Rule.length]
  exact List.length_take_le' _ _

/-- The innermost branch gets a child. -/
theorem add (h : Underway m start w (l :: ls) i) (hdue : due l = some symbol)
    (hv : m.Grows [symbol] [v] i j) : Underway m start w (l.add v :: ls) j := by
  have htake : ∀ {vs : List Sight} {α : List Symbol}, α[vs.length]? = some symbol →
      α.take (vs ++ [v]).length = α.take vs.length ++ [symbol] := by
    intro vs α hα
    rw [List.length_append, List.length_singleton, List.take_add_one, hα]
    rfl
  cases h with
  | root h =>
    refine .root ?_
    rw [htake hdue]
    exact h.append hv
  | branch hls hl hmem h =>
    refine .branch hls hl hmem ?_
    rw [htake hdue]
    exact h.append hv

/-- The innermost branch, with all its children, becomes a child itself. -/
theorem close {limb : Bough} (h : Underway m start w (l :: limb :: ls) j)
    (hlen : l.children.length = l.data.rule.length) :
    Underway m start w (limb.add l.close :: ls) j := by
  cases h with
  | branch hls hdue hmem h =>
    rw [List.take_of_length_le (Nat.le_of_eq hlen.symm)] at h
    exact hls.add hdue (.nonTerminal hmem h .nil)

/-- A step goes on with the derivation. -/
theorem turn {a b : Solo} (h : Underway m start w (a.top :: a.above) a.rest)
    (ht : a.Turn m (.running b)) : Underway m start w (b.top :: b.above) b.rest := by
  cases ht with
  | ascend hlen habove =>
    rw [habove] at h
    exact h.close hlen
  | endOfInput hdue hrest =>
    rw [hrest] at h
    exact h.add hdue (.endOfInput .nil)
  | charClass hdue hrest hk =>
    rw [hrest] at h
    exact h.add hdue (.charClass hk .nil)
  | terminal hdue hrest =>
    rw [hrest] at h
    exact h.add hdue (.terminal .nil)
  | descend hdue hmem => exact .branch h hdue hmem .nil

/-- An attempt is accepted with a derivation of the start symbol. -/
theorem accepted {a b : Solo} (h : Underway m start w (a.top :: a.above) a.rest)
    (ht : a.Turn m (.accepted b)) :
    b = a ∧ ∃ v, a = ⟨⟨⟨"", ⟨[start]⟩⟩, [v]⟩, [], a.rest⟩ ∧ m.Grows [start] [v] w a.rest := by
  obtain ⟨top, above, rest⟩ := a
  cases ht with
  | accept hlen hnil =>
    obtain rfl : above = [] := hnil
    refine ⟨rfl, ?_⟩
    cases h with
    | @root vs _ h =>
      obtain ⟨v, rfl⟩ := List.length_eq_one_iff.1 hlen
      exact ⟨v, rfl, h⟩

end Underway

/-! ### Runs -/

namespace Solo

variable {m : Machine} {start : Symbol} {w i j : List Char} {a b : Solo} {s : State} {k : Nat}

theorem leads_of_turn (hle : a.top.children.length ≤ a.top.data.rule.length) (ht : Turn m a s) :
    Leads State.kind (next m) 1 (.running a) s := by
  obtain ⟨ss, hss, hmem⟩ := step_eq_ok hle
  exact .single rfl hss ((hmem s).2 ht).1

/-- A branch with too many children has no next step. -/
theorem length_le_of_step {ss : List State} (h : a.step m = .ok ss) :
    a.top.children.length ≤ a.top.data.rule.length := by
  refine Nat.le_of_not_lt fun hlt => ?_
  have hnone : a.top.data.rule.symbols[a.top.children.length]? = none :=
    List.getElem?_eq_none (Nat.le_of_lt hlt)
  rw [step, Site.agenda, hnone] at h
  dsimp only at h
  rw [if_neg (Nat.ne_of_gt hlt)] at h
  cases h

theorem turn_of_next {ss : List State} (hss : next m (.running a) = .ok ss) (hs : s ∈ ss)
    (hne : s ≠ .failed) : Turn m a s := by
  obtain ⟨ss', hss', hmem⟩ := step_eq_ok (m := m) (length_le_of_step hss)
  obtain rfl : ss = ss' := Except.ok.inj (hss.symm.trans hss')
  exact (hmem s).1 ⟨hs, hne⟩

/-- A state that is reached stands for a derivation: up to where it is, or, if
    it was accepted, of the start symbol. -/
def State.Sound (m : Machine) (start : Symbol) (w : List Char) : State → Prop
  | running a => Underway m start w (a.top :: a.above) a.rest
  | accepted a =>
    ∃ v, a = ⟨⟨⟨"", ⟨[start]⟩⟩, [v]⟩, [], a.rest⟩ ∧ m.Grows [start] [v] w a.rest
  | failed => True

theorem State.Sound.next {t : State} {ts : List State} (hs : s.Sound m start w)
    (hts : Solo.next m s = .ok ts) (ht : t ∈ ts) : t.Sound m start w := by
  cases s with
  | running a =>
    cases t with
    | running b => exact hs.turn (turn_of_next hts ht State.noConfusion)
    | accepted b =>
      obtain ⟨rfl, hb⟩ := hs.accepted (turn_of_next hts ht State.noConfusion)
      exact hb
    | failed => trivial
  | accepted a | failed =>
    cases hts
    rw [List.mem_singleton.1 ht]
    exact hs

theorem sound_of_leads (h : Leads State.kind (next m) k (.running (begin start w)) s) :
    s.Sound m start w :=
  h.preserves (fun _ _ _ hs _ hts ht => hs.next hts ht) Underway.begin

/-- No attempt ever has more children at a branch than its rule has symbols. -/
theorem exists_next_eq_ok (h : Leads State.kind (next m) k (.running (begin start w)) s) :
    ∃ ss, next m s = .ok ss := by
  cases s with
  | running a =>
    obtain ⟨ss, hss, -⟩ := step_eq_ok (m := m) (sound_of_leads h).length_le
    exact ⟨ss, hss⟩
  | accepted a | failed => exact ⟨_, rfl⟩

/-- Symbols are the next ones of the rule of a branch. -/
def Faces (b : Bough) (α : List Symbol) : Prop :=
  ∃ before after, b.data.rule.symbols = before ++ (α ++ after) ∧
    b.children.length = before.length

namespace Faces

variable {b : Bough} {symbol : Symbol} {α : List Symbol}

theorem whole (site : Site) : Faces ⟨site, []⟩ site.rule.symbols :=
  ⟨[], [], by rw [List.nil_append, List.append_nil], rfl⟩

theorem length_le (h : Faces b α) : b.children.length ≤ b.data.rule.length := by
  obtain ⟨before, after, hsymbols, hlen⟩ := h
  rw [Flat.Rule.length, hsymbols, List.length_append, hlen]
  exact Nat.le_add_right _ _

theorem due (h : Faces b (symbol :: α)) : due b = some symbol := by
  obtain ⟨before, after, hsymbols, hlen⟩ := h
  rw [Parse.due, hsymbols, hlen, List.getElem?_append_right (Nat.le_refl _), Nat.sub_self]
  rfl

theorem add (h : Faces b (symbol :: α)) (v : Sight) : Faces (b.add v) α := by
  obtain ⟨before, after, hsymbols, hlen⟩ := h
  refine ⟨before ++ [symbol], after, ?_, ?_⟩
  · rw [List.append_assoc]
    exact hsymbols
  · rw [Limb.add, List.length_append, List.length_append, hlen]
    rfl

end Faces

/-- A step, and the rest of the way. -/
theorem leads_turn {b : Solo} (hle : a.top.children.length ≤ a.top.data.rule.length)
    (ht : Turn m a (.running b)) (h : Leads State.kind (next m) k (.running b) s) :
    Leads State.kind (next m) (1 + k) (.running a) s :=
  (leads_of_turn hle ht).trans h

/-- What can be derived is built, one symbol after the other. -/
theorem leads_of_grows {α : List Symbol} {vs : List Sight} (h : m.Grows α vs i j)
    {site : Site} {children : List Sight} (above : List Bough) (hf : Faces ⟨site, children⟩ α)
    (hgo : Leads State.kind (next m) k (.running ⟨⟨site, children ++ vs⟩, above, j⟩) s) :
    Leads State.kind (next m) (tolls vs + k) (.running ⟨⟨site, children⟩, above, i⟩) s := by
  induction h generalizing site children above k with
  | nil => rwa [List.append_nil, ← Nat.zero_add k] at hgo
  | endOfInput _ ih =>
    rw [tolls, toll, Nat.add_assoc]
    refine leads_turn hf.length_le (.endOfInput hf.due rfl) (ih above (hf.add _) ?_)
    rwa [List.append_assoc]
  | charClass hk _ ih =>
    rw [tolls, toll, Nat.add_assoc]
    refine leads_turn hf.length_le (.charClass hf.due rfl hk) (ih above (hf.add _) ?_)
    rwa [List.append_assoc]
  | terminal _ ih =>
    rw [tolls, toll, Nat.add_assoc]
    refine leads_turn hf.length_le (.terminal hf.due rfl) (ih above (hf.add _) ?_)
    rwa [List.append_assoc]
  | @nonTerminal n rule α us vs i j r hmem hus _ ihu ihv =>
    -- The branch is opened, gets its children and is closed again.
    have hlen : us.length = rule.length := hus.length_eq
    have htoll : tolls (.branch ⟨n, rule⟩ us :: vs) + k = 1 + (tolls us + (1 + (tolls vs + k))) := by
      rw [tolls, toll]
      omega
    rw [htoll]
    refine leads_turn hf.length_le (.descend hf.due hmem) ?_
    refine ihu (⟨site, children⟩ :: above) (Faces.whole ⟨n, rule⟩) ?_
    refine leads_turn (Nat.le_of_eq hlen) (.ascend hlen rfl) (ihv above (hf.add _) ?_)
    rwa [List.append_assoc]

/-- The number of steps an attempt has taken, as told by its open branches: all
    but the last one were opened, and their children were built. -/
def taken (a : Solo) : Nat :=
  a.above.length + ((a.top :: a.above).map fun limb => tolls limb.children).sum

theorem Turn.taken (h : Turn m a (.running b)) : b.taken = a.taken + 1 := by
  cases h with
  | ascend _ habove =>
    simp only [Solo.taken, habove, Limb.add, Limb.close, tolls_append, tolls, toll,
      List.length_cons, List.map_cons, List.sum_cons]
    omega
  | endOfInput | charClass | terminal =>
    simp only [Solo.taken, grow, Limb.add, tolls_append, tolls, toll, List.map_cons, List.sum_cons]
    omega
  | descend =>
    simp only [Solo.taken, Solo.descend, tolls, List.length_cons, List.map_cons, List.sum_cons]
    omega

/-- All ways to complete an attempt take the same number of steps. -/
theorem taken_of_leads (h : Leads State.kind (next m) k (.running a) (.accepted b)) :
    b.taken + 1 = a.taken + k := by
  generalize hs : State.running a = s at h
  generalize ht : State.accepted b = t at h
  induction h generalizing a with
  | refl =>
    cases hs
    cases ht
  | @step k s u t us _ hnext hu hlead ih =>
    subst hs
    subst ht
    cases u with
    | running c =>
      have hturn := (turn_of_next hnext hu State.noConfusion).taken
      have hrest := ih rfl rfl
      omega
    | accepted c =>
      cases turn_of_next hnext hu State.noConfusion
      cases hlead with
      | refl => rfl
      | step hk => cases hk
    | failed => exact nomatch hlead.eq_of_finished Search.Kind.noConfusion

/-- The attempts that complete the start symbol are its derivations. -/
theorem leads_accepted_iff :
    Leads State.kind (next m) k (.running (begin start w)) (.accepted a) ↔
      ∃ v, a = ⟨⟨⟨"", ⟨[start]⟩⟩, [v]⟩, [], a.rest⟩ ∧ m.Grows [start] [v] w a.rest ∧
        k = toll v + 1 := by
  constructor
  · intro h
    obtain ⟨v, ha, hv⟩ := sound_of_leads h
    refine ⟨v, ha, hv, ?_⟩
    have htaken := taken_of_leads h
    rw [ha] at htaken
    simpa [taken, begin, tolls] using htaken.symm
  · rintro ⟨v, ha, hv, rfl⟩
    have hturn : Turn m ⟨⟨⟨"", ⟨[start]⟩⟩, [v]⟩, [], a.rest⟩
        (.accepted ⟨⟨⟨"", ⟨[start]⟩⟩, [v]⟩, [], a.rest⟩) := .accept rfl rfl
    rw [ha]
    exact leads_of_grows hv [] (Faces.whole ⟨"", ⟨[start]⟩⟩) (leads_of_turn (Nat.le_refl 1) hturn)

end Solo

end Ramify.Parse
