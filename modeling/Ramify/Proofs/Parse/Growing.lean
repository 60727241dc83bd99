import Ramify.Parse.Parser
import Ramify.Proofs.Fork.Finite
import Ramify.Proofs.Parse.Hosting
import Ramify.Proofs.Search.Keeping

/-!
# The parse trees of a search

A search does nothing to its parse trees but plant one, add nodes below branches, move
markers, fork handles and give them up. Each step does so with handles that can be used,
whatever the state it starts from (`Machine.keeps_grown`). So the trees have grown, wherever
the search stops (`Parser.grown_search`), and then what a handle sees at a node is a finite
tree in which no node is met twice (`Parser.beholds_uniquely_of_search`).
-/

namespace Ramify

namespace Parse

variable {σ : Type} {s : Shared σ} {a : Attempt} {node : Nat} {p : Fork.Place} {site : Site}

namespace Shared

theorem isBranch_of_site? (h : s.site? node = some site) : s.grove.isBranch node := by
  rw [Fork.Grove.isBranch, label?_of_site? h]
  rfl

/-! ### Growing -/

section Grown

variable (hg : s.grove.Grown)

include hg

theorem grown_discard : (s.discard a).grove.Grown := hg.drop a.tree

theorem grown_fail : (s.fail a).2.grove.Grown := grown_discard hg

variable (hn : s.grove.isBranch node)

include hn

section Use

variable (hu : s.grove.roster.use a.tree = .ok p)

include hu

theorem grown_addLeaf (token : Token) : (s.addLeaf a node token).grove.Grown :=
  hg.attach hu hn (.leaf token)

theorem grown_descend (site : Site) : (s.descend a node site).grove.Grown :=
  (hg.attach hu hn (.branch site)).mark hu _

end Use

/-- A branch is opened for each of some handles that can be used. -/
theorem grown_descendAll (name : String) (c : Lookahead) (forks : List (Nat × Nat × Flat.Rule))
    (hforks : ∀ f ∈ forks, ∃ p, s.grove.roster.use f.1 = .ok p) :
    (descendAll node name c forks s).2.grove.Grown := by
  induction forks generalizing s with
  | nil => exact hg
  | cons f forks ih =>
    obtain ⟨tree, cursor, rule⟩ := f
    obtain ⟨⟨p, hu⟩, hforks⟩ := List.forall_mem_cons.1 hforks
    refine ih (grown_descend (a := ⟨tree, cursor, c⟩) hg hn hu ⟨name, rule⟩) ?_ fun f hf => ?_
    · have hlt := Fork.Grove.lt_size_of_isBranch hn
      change ((s.grove.attach tree node (.branch ⟨name, rule⟩)).label? node).any (·.isBranch)
      rwa [Fork.Grove.label?_attach, if_neg (Nat.ne_of_lt hlt)]
    · -- Moving the marker of one handle leaves the others usable.
      obtain ⟨q, hq⟩ := hforks f hf
      exact ⟨_, Fork.Roster.use_update.2 ⟨q, hq, rfl⟩⟩

variable (hu : s.grove.roster.use a.tree = .ok p)

include hu

theorem grown_forkOver {name : String} {rules : List Flat.Rule} :
    (s.forkOver a node name rules).2.grove.Grown := by
  rw [forkOver]
  split
  · exact hg
  · dsimp only
    -- All handles that the fork gives can be used.
    have hforks : ∀ f ∈ (s.grove.split a.tree rules.length).1.zip
        ((s.tape.split a.cursor rules.length).1.zip rules),
        ∃ p, (s.grove.split a.tree rules.length).2.roster.use f.1 = .ok p := fun f hf => by
      have hmem := (List.of_mem_zip hf).1
      rw [Fork.Grove.split_fst hu, List.mem_range'_1] at hmem
      exact ⟨p, (Fork.Roster.use_split hu).2 (.inl ⟨hmem.1, hmem.2, rfl⟩)⟩
    have hall := grown_descendAll (s := ⟨(s.grove.split a.tree rules.length).2,
      (s.tape.split a.cursor rules.length).2, s.transitions, s.forks + 1⟩)
      (hg.split hu rules.length) hn name a.lookahead _ hforks
    exact grown_discard hall

end Grown

end Shared

namespace Machine

variable {m : Machine}

section Grown

variable (hg : s.grove.Grown)

include hg

section Use

variable (hn : s.grove.isBranch node) (hu : s.grove.roster.use a.tree = .ok p)

include hn hu

theorem grown_expand {name : String} : (m.expand a node name s).2.grove.Grown := by
  rw [expand]
  split
  · exact Shared.grown_fail hg
  · exact Shared.grown_descend hg hn hu _
  · exact Shared.grown_forkOver hg hn hu

theorem grown_consume (symbol : Symbol) : (m.consume a node symbol s).2.grove.Grown := by
  cases symbol with
  | nonTerminal n => exact grown_expand hg hn hu
  | endOfInput =>
    rw [consume]
    split
    · exact Shared.grown_fail hg
    · exact Shared.grown_addLeaf hg hn hu _
  | charClass k =>
    rw [consume]
    split
    · exact Shared.grown_fail hg
    · rename_i c _
      have hadd := Shared.grown_addLeaf hg hn hu ⟨.charClass k, String.singleton c⟩
      obtain ⟨tape, hread⟩ :=
        (s.addLeaf a node ⟨.charClass k, String.singleton c⟩).exists_readNext_eq a
      split
      · generalize (s.addLeaf a node ⟨.charClass k, String.singleton c⟩).readNext a = r at hread ⊢
        obtain ⟨o, s'⟩ := r
        obtain rfl : s' = _ := hread
        cases o with
        | error e => exact hadd
        | ok next => exact hadd
      · exact Shared.grown_fail hg
  | terminal t =>
    obtain ⟨tape, htext⟩ := s.exists_readText_eq a t.chars a.lookahead
    rw [consume]
    generalize s.readText a t.chars a.lookahead = r at htext ⊢
    obtain ⟨o, s'⟩ := r
    -- The leaf is added in the grove that was there before the characters were read.
    obtain rfl : s' = _ := htext
    obtain _ | _ | next := o
    · exact hg
    · exact Shared.grown_fail hg
    · exact Shared.grown_addLeaf hg hn hu _

end Use

theorem grown_step : (m.step a s).2.grove.Grown := by
  rw [step]
  dsimp only
  cases hu : s.grove.roster.use a.tree with
  | error e =>
    rw [Fork.Grove.marker, hu]
    exact hg
  | ok p =>
    rw [Fork.Grove.marker, hu]
    dsimp only [Except.map]
    split
    · exact hg
    · rename_i site hsite
      split
      · exact hg
      · split
        · exact hg.mark hu _
        · exact hg
      · exact grown_consume (s := { s with transitions := s.transitions + 1 }) hg
          (Shared.isBranch_of_site? hsite) hu _

end Grown

/-- A step lets the parse trees grow, whatever the state. -/
theorem keeps_grown (m : Machine) :
    (m.automaton : Search.Automaton State (Shared σ) Fault).Keeps (·.grove.Grown) := by
  intro state s hg
  cases state with
  | running a => exact grown_step hg
  | accepted a | failed => exact hg

end Machine

theorem grown_begin {start : Symbol} {tape : Fork.Tape σ Char} {cursor : Nat}
    (h : begin start tape cursor = .ok (a, s)) : s.grove.Grown := by
  rw [begin] at h
  split at h
  · cases h
  · cases h
    exact Fork.Grove.Grown.empty.plant _

end Parse

namespace Parser

open Parse (Shared State)

variable {σ : Type} {parser : Parser} {tape : Fork.Tape σ Char} {cursor limit h n : Nat}
  {a : Parse.Attempt} {s s' : Shared σ} {o : Search.Outcome State Fault} {p : Fork.Place}

section Search

variable (hbegin : Parse.begin parser.start tape cursor = .ok (a, s))
  (hsearch : parser.search limit (.running a) s = (o, s'))

include hbegin hsearch

/-- The parse trees have grown wherever a search stops, one by one or by a crew. -/
theorem grown_search : s'.grove.Grown := by
  have hkeeps := Parse.Machine.keeps_grown (σ := σ) parser.machine
  have hgrown := Parse.grown_begin hbegin
  obtain rfl : (parser.search limit (.running a) s).2 = s' := congrArg Prod.snd hsearch
  rw [search]
  split
  · exact hkeeps.run hgrown
  · exact hkeeps.search hgrown _

/-- There, each handle that can be used sees exactly one view at each node, and what is seen
    at a node has no more nodes than there are. -/
theorem beholds_uniquely_of_search (hu : s'.grove.roster.use h = .ok p)
    (hn : n < s'.grove.nodes.size) : (∃! v, s'.grove.Beholds h [n] [v]) ∧
      ∀ v, s'.grove.Beholds h [n] [v] → v.size ≤ s'.grove.nodes.size := by
  have hgrown := grown_search hbegin hsearch
  exact ⟨hgrown.beholds_uniquely hu hn, fun v hv => hgrown.size_le hv⟩

end Search

end Parser

end Ramify
