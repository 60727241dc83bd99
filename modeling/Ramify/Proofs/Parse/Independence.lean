import Ramify.Proofs.Parse.Intact

/-!
# Attempts do not disturb each other

All attempts of a parse write to one grove and read from one tape. Yet each is
what it would be if every fork had a tree and an input of its own
(`Solo`), whatever is done with the others and in whatever order: it is of the
same kind, has the same lookahead, sees the same tree with the marker at the same
place, and has the same left to be read (`State.Alike`).

So if no attempt is given up before it is finished, the trees that are found
are the same in every order: all that the machine can build
(`Hosts.treesOf_eq`).
-/

namespace Ramify.Parse

open Fork (View Limb)
open Search (Leads Pick)
open Search.Automaton (Thorough ComesUp ofPure)

/-- The tree of an attempt on its own. -/
def Solo.tree (b : Solo) : Sight := View.ofLimbs b.top b.above

/-- The way from the root of the tree to the marker, by the numbers of the
    children to go on with. -/
def Solo.path (b : Solo) : List Nat := (b.above.map (·.children.length)).reverse

variable {σ : Type}

/-- An attempt that shares is like one on its own. -/
structure Attempt.Alike (s : Shared σ) (a : Attempt) (b : Solo) : Prop where
  lookahead : a.lookahead = b.rest.head?
  /-- The lookahead was read already. -/
  unread : s.tape.Unread a.cursor b.rest.tail
  tree : s.seen a = b.tree.outline 0
  marker : ∃ root marker, s.grove.root a.tree = .ok root ∧ s.grove.marker a.tree = .ok marker ∧
    s.grove.descend? a.tree root b.path = some marker

/-- A state that shares is like one on its own. -/
inductive State.Alike (s : Shared σ) : State → Solo.State → Prop
  | running {a : Attempt} {b : Solo} : a.Alike s b → Alike s (.running a) (.running b)
  | accepted {a : Attempt} {b : Solo} : a.Alike s b → Alike s (.accepted a) (.accepted b)
  | failed : Alike s .failed .failed

/-- The trees of all attempts that are accepted while picks are played. -/
def treesOf (m : Machine) (picks : List Pick) (a : Attempt) (s : Shared σ) : Set Tree :=
  {tree | ∃ a' s', ComesUp m.automaton Shared.release (.accepted a') s' picks [.running a] s ∧
    harvest s' a' = .ok tree}

variable {m : Machine} {start : Symbol} {w : List Char} {s : Shared σ} {a : Attempt}
  {guests : List Guest} {picks : List Pick}

namespace Hosts

theorem Beside.alike {b : Solo} (h : Beside w s guests a (b.top :: b.above) b.rest)
    (hl : a.lookahead = b.rest.head?) : a.Alike s b where
  lookahead := hl
  unread := h.tape.unread
  tree := h.seen
  marker := by
    obtain ⟨p, hu, hmarker, -⟩ := h.marker
    exact ⟨p.root, p.marker, Fork.Grove.root_of_use hu, hmarker, h.grove.head.descend? hu⟩

theorem alike {x : Guest} (h : Hosts w s guests) (hx : x ∈ guests) : x.1.Alike s x.2 := by
  obtain ⟨state, t⟩ := x
  have halone : Hosts w s [(state, t)] := h.thin (List.singleton_sublist.2 hx).subperm
  cases h.stands _ hx with
  | running =>
    obtain ⟨hl, hb⟩ := running_iff.1 halone
    exact .running (hb.alike hl)
  | accepted =>
    obtain ⟨hl, hb⟩ := accepted_iff.1 halone
    exact .accepted (hb.alike hl)
  | failed => exact .failed

section

variable (h : Hosts w s [(.running a, .running (Solo.begin start w))])

include h

/-- Picks are thorough for attempts that share just if they are for attempts on
    their own. -/
theorem thorough_iff : Thorough m.automaton Shared.release picks [.running a] s ↔
    Thorough (ofPure Solo.State.kind (Solo.next m)) Search.keep picks
      [.running (Solo.begin start w)] () :=
  (simulates m w).thorough_iff (steady m start w) h (List.forall_mem_singleton.2 Underway.begin)

/-- What is found when no attempt is given up too early: all that the machine can
    build. -/
theorem treesOf_eq (hthorough : Thorough m.automaton Shared.release picks [.running a] s) :
    treesOf m picks a s = {tree | ∃ v rest, m.Grows [start] [v] w rest ∧ tree = picture v} := by
  have hsound : ∀ x ∈ [((.running a, .running (Solo.begin start w)) : Guest)],
      x.2.Sound m start w := List.forall_mem_singleton.2 Underway.begin
  have hpure := h.thorough_iff.1 hthorough
  ext tree
  constructor
  · rintro ⟨a', s', hup, hharvest⟩
    obtain ⟨t, ht, hcomes⟩ := (simulates m w).comesUp (steady m start w) h hsound hup
    cases ht.stands _ List.mem_cons_self with
    | @accepted _ b =>
      obtain ⟨t, ht', k, hlead⟩ := Search.leads_of_comesUp hcomes
      rw [List.mem_singleton.1 ht'] at hlead
      obtain ⟨v, hb, hv, -⟩ := Solo.leads_accepted_iff.1 hlead
      exact ⟨v, b.rest, hv, Except.ok.inj (hharvest.symm.trans (harvest_eq_ok ht hb hv.solid))⟩
  · rintro ⟨v, rest, hv, rfl⟩
    have hlead := (Solo.leads_accepted_iff
      (a := ⟨⟨⟨"", ⟨[start]⟩⟩, [v]⟩, [], rest⟩)).2 ⟨v, rfl, hv, rfl⟩
    obtain ⟨state, s', ht, hcomes⟩ := (simulates m w).exists_comesUp (steady m start w) h hsound
      ((Search.comesUp_iff hpure Search.Kind.noConfusion).2 ⟨_, List.mem_cons_self, _, hlead⟩)
    cases ht.stands _ List.mem_cons_self with
    | @accepted a' _ => exact ⟨a', s', hcomes, harvest_eq_ok ht rfl hv.solid⟩

end

end Hosts

/-- From where every sequence of moves ends, all attempts can be followed to
    their ends. -/
theorem Solo.exists_thorough {ts : List State} (hacc : Acc (fun us ts => Moves m ts us) ts)
    (hts : ∀ t ∈ ts, t.Sound m start w) :
    ∃ picks, Thorough (ofPure State.kind (next m)) Search.keep picks ts () := by
  induction hacc with
  | intro ts _ ih =>
    by_cases hopen : ∃ t ∈ ts, t.kind = .unfinished
    · obtain ⟨t, ht, hkind⟩ := hopen
      obtain ⟨before, after, rfl⟩ := List.append_of_mem ht
      cases t with
      | accepted | failed => cases hkind
      | running b =>
        obtain ⟨new, hnew, -⟩ := step_eq_ok (m := m) (hts _ ht).length_le
        have hall : ∀ u ∈ before ++ (new ++ after), u.Sound m start w := fun u hu => by
          rcases List.mem_append.1 hu with hu | hu
          · exact hts u (List.mem_append_left _ hu)
          · rcases List.mem_append.1 hu with hu | hu
            · exact (hts _ ht).next hnew hu
            · exact hts u (List.mem_append_right _ (List.mem_cons_of_mem _ hu))
        obtain ⟨picks, hpicks⟩ := ih _ (.advance hnew) hall
        refine ⟨.step before.length :: picks, .pick (fun i s => Pick.noConfusion) ?_ hpicks⟩
        rw [Search.Automaton.pick_step hkind, Search.Breadth.next_ofPure, next, hnew]
    · exact ⟨[], .done fun t ht hkind => hopen ⟨t, ht, hkind⟩⟩

/-- The attempts of a parse, beginning with one of them, do not depend on each
    other. -/
structure Independent (m : Machine) (start : Symbol) (w : List Char) (a : Attempt)
    (s : Shared σ) : Prop where
  /-- Whatever is picked, all states are like those that have all for their own,
      where the same is picked. -/
  alike : ∀ picks : List Pick, ∃ states ts s',
    m.automaton.play Shared.release picks [.running a] s = .ok (states, s') ∧
    (ofPure Solo.State.kind (Solo.next m)).play Search.keep picks
      [.running (Solo.begin start w)] () = .ok (ts, ()) ∧
    List.Forall₂ (State.Alike s') states ts
  /-- All attempts can be followed to their ends. -/
  ends : ∃ picks, Thorough m.automaton Shared.release picks [.running a] s
  /-- However they are followed to their ends, the same trees are found. -/
  same : ∀ picks picks', Thorough m.automaton Shared.release picks [.running a] s →
    Thorough m.automaton Shared.release picks' [.running a] s →
    treesOf m picks a s = treesOf m picks' a s

theorem Hosts.independent {memo : Flat.Memo} (hg : m.grammar.Made memo)
    (h : Hosts w s [(.running a, .running (Solo.begin start w))]) :
    Independent m start w a s where
  alike picks := by
    obtain ⟨guests, s', hplay, hsolo, h', -⟩ := h.play (m := m) picks
    refine ⟨_, _, s', hplay, hsolo, ?_⟩
    rw [List.forall₂_map_left_iff, List.forall₂_map_right_iff, List.forall₂_same]
    exact fun x hx => h'.alike hx
  ends := by
    obtain ⟨picks, hpicks⟩ := Solo.exists_thorough (Solo.acc_begin hg start w)
      (List.forall_mem_singleton.2 Underway.begin)
    exact ⟨picks, h.thorough_iff.2 hpicks⟩
  same picks picks' hpicks hpicks' := by
    rw [h.treesOf_eq hpicks, h.treesOf_eq hpicks']

/-- Whatever is done with the attempts of a parse, each is like the one that has
    all for its own, and if none is given up before it is finished, the trees
    that are found do not depend on the order. -/
theorem attempts_independent {g : Flat.Grammar} (hg : g.Analysed) (follow : Flat.FollowSets)
    (start : Symbol) {produce : σ → Option Char × σ} {source : σ}
    (hw : Fork.Tape.Yields produce w source) :
    ∃ a s, begin start (.new produce source) 0 = .ok (a, s) ∧
      Independent ⟨g, follow⟩ start w a s := by
  obtain ⟨memo, hmade⟩ := hg.made
  obtain ⟨a, s, hbegin, h⟩ := hosts_begin hw start
  exact ⟨a, s, hbegin, h.independent (m := ⟨g, follow⟩) hmade⟩

theorem attempts_independent_parentheses : ∃ g, parentheses.flatten = .ok g ∧
    ∃ a s, begin (.nonTerminal "S") (.ofList ['(', ')']) 0 = .ok (a, s) ∧
      Independent ⟨g, .compute g (.nonTerminal "S")⟩ (.nonTerminal "S") ['(', ')'] a s := by
  obtain ⟨g, hg⟩ : ∃ g, parentheses.flatten = .ok g := ⟨_, rfl⟩
  exact ⟨g, hg, attempts_independent (.of_flatten hg) _ _ (Fork.Tape.yields_fromList ['(', ')'])⟩

end Ramify.Parse
