import Ramify.Proofs.Fork.Private
import Ramify.Proofs.Parse.Solo
import Ramify.Proofs.Search.Simulation

/-!
# Attempts that share

The attempts of a parse share one grove and one tape, and yet each of them is
as if it was on its own. `Hosts` says so of all attempts that are held at some
moment: each stands for an attempt on its own, with the tree that it sees and
the input that it has left to read. A step of one of them is a step of what it
stands for, and leaves all others what they are (`Hosts.step`). Hence the machine
simulates the one without sharing (`simulates`), whatever the order in which
attempts take their steps.
-/

namespace Ramify.Parse

open Fork (Limb View Grove Tape)

/-- A state stands for a state of the machine without sharing. -/
inductive Stands : State → Solo.State → Prop
  | running {a : Attempt} {b : Solo} : a.lookahead = b.rest.head? → Stands (.running a) (.running b)
  | accepted {a : Attempt} {b : Solo} :
    a.lookahead = b.rest.head? → Stands (.accepted a) (.accepted b)
  | failed : Stands .failed .failed

/-- A state and what it stands for. -/
abbrev Guest := State × Solo.State

/-- The tree of a guest: its handle and the limbs it sees. -/
def Guest.tree? : Guest → Option (Nat × List Bough)
  | (.running a, .running b) | (.accepted a, .accepted b) => some (a.tree, b.top :: b.above)
  | _ => none

/-- The input of a guest: its cursor and what it has left to read. -/
def Guest.input? : Guest → Option (Nat × List Char)
  | (.running a, .running b) | (.accepted a, .accepted b) => some (a.cursor, b.rest)
  | _ => none

theorem map_zip_zip {α β γ : Type} {xs : List α} {ys : List β} {zs : List γ}
    (hxs : xs.length = zs.length) (hys : ys.length = zs.length) :
    (xs.zip (ys.zip zs)).map (·.1) = xs ∧ (xs.zip (ys.zip zs)).map (·.2.1) = ys ∧
      (xs.zip (ys.zip zs)).map (·.2.2) = zs := by
  have hle : (ys.zip zs).length = xs.length := by
    rw [List.length_zip, hxs, hys, Nat.min_self]
  have hsnd : (xs.zip (ys.zip zs)).map (·.2) = ys.zip zs := List.map_snd_zip (Nat.le_of_eq hle)
  have hcomp : ∀ {δ : Type} (f : β × γ → δ),
      (xs.zip (ys.zip zs)).map (fun x => f x.2) = (ys.zip zs).map f := fun f => by
    rw [← congrArg (List.map f) hsnd, List.map_map]
    rfl
  refine ⟨List.map_fst_zip (Nat.le_of_eq hle.symm), ?_, ?_⟩
  · exact (hcomp (·.1)).trans (List.map_fst_zip (Nat.le_of_eq hys))
  · exact (hcomp (·.2)).trans (List.map_snd_zip (Nat.le_of_eq hys.symm))

variable {σ : Type}

/-! ### Looking and reading -/

theorem label?_of_site? {s : Shared σ} {n : Nat} {site : Site} (h : s.site? n = some site) :
    s.grove.label? n = some (.branch site) := by
  rw [Shared.site?] at h
  split at h
  · rename_i hlabel
    cases h
    exact hlabel
  · cases h

namespace Shared

/-- Reading changes nothing but the tape. -/
theorem exists_readNext_eq (a : Attempt) (s : Shared σ) :
    ∃ tape, (s.readNext a).2 = { s with tape := tape } := by
  rw [readNext]
  split
  · exact ⟨s.tape, rfl⟩
  · exact ⟨_, rfl⟩

theorem exists_readText_eq (a : Attempt) (chars : List Char) (c : Lookahead) (s : Shared σ) :
    ∃ tape, (s.readText a chars c).2 = { s with tape := tape } := by
  induction chars generalizing s c with
  | nil => exact ⟨s.tape, rfl⟩
  | cons expected chars ih =>
    rw [readText]
    split
    · obtain ⟨tape, hread⟩ := s.exists_readNext_eq a
      generalize s.readNext a = r at hread ⊢
      obtain ⟨_ | next, s'⟩ := r
      · exact ⟨tape, hread⟩
      · obtain rfl : s' = { s with tape := tape } := hread
        exact ih next _
    · exact ⟨s.tape, rfl⟩

end Shared

/-! ### Sharing -/

/-- All that a parse of a text shares, and the states that are held. -/
structure Hosts (w : List Char) (s : Shared σ) (guests : List Guest) : Prop where
  stands : ∀ x ∈ guests, Stands x.1 x.2
  grove : s.grove.Bears (guests.filterMap Guest.tree?)
  tape : s.tape.Serves w (guests.filterMap Guest.input?)

/-- An attempt on its own in the middle of a step, beside other states: its
    lookahead may lag behind. -/
structure Hosts.Beside (w : List Char) (s : Shared σ) (guests : List Guest) (a : Attempt)
    (ls : List Bough) (rest : List Char) : Prop where
  stands : ∀ x ∈ guests, Stands x.1 x.2
  grove : s.grove.Bears ((a.tree, ls) :: guests.filterMap Guest.tree?)
  tape : s.tape.Serves w ((a.cursor, rest) :: guests.filterMap Guest.input?)

/-- A step of a state has come to the states that stand for some others. -/
def Hosts.Reaches (w : List Char) (guests : List Guest)
    (r : Except Fault (List State) × Shared σ) (ts : List Solo.State) : Prop :=
  ∃ new s, r = (.ok (new.map (·.1)), s) ∧ new.map (·.2) = ts ∧ Hosts w s (new ++ guests)

namespace Hosts

variable {w rest : List Char} {s s' : Shared σ} {guests guests' : List Guest} {a : Attempt}
  {b : Solo} {l l' : Bough} {ls : List Bough} {node : Nat}

theorem thin (hs : Hosts w s guests) (hsub : guests'.Subperm guests) : Hosts w s guests' := by
  obtain ⟨l, hperm, hsub'⟩ := hsub
  exact ⟨fun x hx => hs.stands x (hsub'.subset (hperm.mem_iff.2 hx)),
    hs.grove.thin ⟨_, hperm.filterMap _, hsub'.filterMap _⟩,
    hs.tape.thin ⟨_, hperm.filterMap _, hsub'.filterMap _⟩⟩

/-- An attempt in progress, and all others beside it. -/
theorem running_iff : Hosts w s ((.running a, .running b) :: guests) ↔
    a.lookahead = b.rest.head? ∧ Beside w s guests a (b.top :: b.above) b.rest := by
  constructor
  · intro h
    refine ⟨?_, fun x hx => h.stands x (List.mem_cons_of_mem _ hx), h.grove, h.tape⟩
    cases h.stands _ List.mem_cons_self with
    | running hl => exact hl
  · rintro ⟨hl, h⟩
    exact ⟨List.forall_mem_cons.2 ⟨.running hl, h.stands⟩, h.grove, h.tape⟩

theorem accepted_iff : Hosts w s ((.accepted a, .accepted b) :: guests) ↔
    a.lookahead = b.rest.head? ∧ Beside w s guests a (b.top :: b.above) b.rest := by
  constructor
  · intro h
    refine ⟨?_, fun x hx => h.stands x (List.mem_cons_of_mem _ hx), h.grove, h.tape⟩
    cases h.stands _ List.mem_cons_self with
    | accepted hl => exact hl
  · rintro ⟨hl, h⟩
    exact ⟨List.forall_mem_cons.2 ⟨.accepted hl, h.stands⟩, h.grove, h.tape⟩

theorem failed_iff : Hosts w s ((.failed, .failed) :: guests) ↔ Hosts w s guests :=
  ⟨fun h => ⟨fun x hx => h.stands x (List.mem_cons_of_mem _ hx), h.grove, h.tape⟩,
    fun h => ⟨List.forall_mem_cons.2 ⟨.failed, h.stands⟩, h.grove, h.tape⟩⟩

namespace Beside

/-- What the attempt sees at its marker. -/
theorem marker (h : Beside w s guests a (l :: ls) rest) :
    ∃ p, s.grove.roster.use a.tree = .ok p ∧ s.grove.marker a.tree = .ok p.marker ∧
      s.site? p.marker = some l.data ∧
      s.grove.visibleCount a.tree p.marker = l.children.length := by
  obtain ⟨p, hu, hr⟩ := h.grove.head
  obtain ⟨hl, ⟨cs, hv, hshows⟩, -⟩ := hr.cases_cons
  refine ⟨p, hu, by rw [Grove.marker, hu]; rfl, by rw [Shared.site?, hl], ?_⟩
  rw [Grove.visibleCount_eq, hv, Option.toList_none, List.append_nil, hshows.length_eq]

/-- The root is below no other branch. -/
theorem link?_nil (h : Beside w s guests a [l] rest) {p : Fork.Place}
    (hu : s.grove.roster.use a.tree = .ok p) : s.grove.link? p.marker = none := by
  obtain ⟨q, hq, hr⟩ := h.grove.head
  obtain rfl : p = q := Except.ok.inj (hu.symm.trans hq)
  obtain ⟨-, -, ⟨-, -, hlink⟩ | ⟨m, -, hr'⟩⟩ := hr.cases_cons
  · exact hlink
  · cases hr'

/-- The attempt gives its handles up. -/
theorem discard (h : Beside w s guests a ls rest) : Hosts w (s.discard a) guests where
  stands := h.stands
  grove := h.grove.drop_head
  tape := (h.tape.thin (List.sublist_cons_self _ _).subperm).drop fun _ hx => h.tape.ne_of_mem hx

theorem fail (h : Beside w s guests a ls rest) : Reaches w guests (s.fail a) [.failed] :=
  ⟨[(.failed, .failed)], s.discard a, rfl, rfl, failed_iff.2 h.discard⟩

/-- The lookahead catches up. -/
theorem look (h : Beside w s guests a ls rest) (c : Lookahead) :
    Beside w s guests { a with lookahead := c } ls rest :=
  ⟨h.stands, h.grove, h.tape⟩

/-- The attempt goes on. -/
theorem run (h : Beside w s guests a (b.top :: b.above) b.rest) (hl : a.lookahead = b.rest.head?) :
    Reaches w guests (.ok [.running a], s) [.running b] :=
  ⟨[(.running a, .running b)], s, rfl, rfl, running_iff.2 ⟨hl, h⟩⟩

theorem addLeaf (h : Beside w s guests a (l :: ls) rest) {p : Fork.Place}
    (hu : s.grove.roster.use a.tree = .ok p) (token : Token) :
    Beside w (s.addLeaf a p.marker token) guests a (l.add (.leaf token) :: ls) rest :=
  ⟨h.stands, h.grove.grow hu, h.tape⟩

theorem descend (h : Beside w s guests a (l :: ls) rest) {p : Fork.Place} {site : Site}
    (hu : s.grove.roster.use a.tree = .ok p) :
    Beside w (s.descend a p.marker site) guests a (⟨site, []⟩ :: l :: ls) rest :=
  ⟨h.stands, h.grove.branchOff hu, h.tape⟩

theorem ascend (h : Beside w s guests a (l :: l' :: ls) rest) {p : Fork.Place}
    (hu : s.grove.roster.use a.tree = .ok p) :
    ∃ m, s.grove.link? p.marker = some m ∧
      Beside w (s.moveTo a m) guests a (l'.add l.close :: ls) rest := by
  obtain ⟨m, hlink, hb⟩ := h.grove.ascend hu
  exact ⟨m, hlink, h.stands, hb, h.tape⟩

theorem readNext {c : Char} (h : Beside w s guests a ls (c :: rest)) :
    ∃ s', s.readNext a = (.ok rest.head?, s') ∧ s'.grove = s.grove ∧
      Beside w s' guests a ls rest := by
  obtain ⟨d, -, hu, -⟩ := h.tape.head
  obtain ⟨hfst, htape⟩ := h.tape.advance
  refine ⟨{ s with tape := (s.tape.advance a.cursor).2 }, ?_, rfl, h.stands, h.grove, htape⟩
  rw [Shared.readNext, hu, ← hfst]

theorem readText_cons {c : Char} {chars : List Char} {next : Lookahead}
    (hread : s.readNext a = (.ok next, s')) :
    s.readText a (c :: chars) (some c) = s'.readText a chars next := by
  rw [Shared.readText, if_pos rfl, hread]

/-- Characters that the input goes on with are read. -/
theorem readText {chars : List Char} (h : Beside w s guests a ls (chars ++ rest)) :
    ∃ s', s.readText a chars (chars ++ rest).head? = (.ok (some rest.head?), s') ∧
      s'.grove = s.grove ∧ Beside w s' guests a ls rest := by
  induction chars generalizing s with
  | nil => exact ⟨s, rfl, rfl, h⟩
  | cons c chars ih =>
    obtain ⟨s₁, hread, hgrove, h₁⟩ := h.readNext
    obtain ⟨s₂, htext, hgrove', h₂⟩ := ih h₁
    exact ⟨s₂, (readText_cons hread).trans htext, hgrove'.trans hgrove, h₂⟩

/-- Characters are read up to the first one that the input does not go on with. -/
theorem readText_none {chars : List Char} (h : Beside w s guests a ls rest)
    (hnone : chars.isPrefixOf? rest = none) :
    ∃ s' rest', s.readText a chars rest.head? = (.ok none, s') ∧
      Beside w s' guests a ls rest' := by
  induction chars generalizing s rest with
  | nil => cases hnone
  | cons c chars ih =>
    cases rest with
    | nil => exact ⟨s, [], rfl, h⟩
    | cons d rest =>
      by_cases hcd : c = d
      · subst hcd
        rw [List.isPrefixOf?, if_pos (beq_self_eq_true c)] at hnone
        obtain ⟨s₁, hread, -, h₁⟩ := h.readNext
        obtain ⟨s₂, rest₂, htext, h₂⟩ := ih h₁ hnone
        exact ⟨s₂, rest₂, (readText_cons hread).trans htext, h₂⟩
      · refine ⟨s, d :: rest, ?_, h⟩
        rw [List.head?_cons, Shared.readText, if_neg fun heq => hcd (Option.some.inj heq).symm]

/-! ### Forks -/

/-- The branches of the forks of an attempt are opened, one for each fork. -/
theorem descendAll {n : String} {c : Lookahead} {forks : List (Nat × Nat × Flat.Rule)}
    {others : List (Nat × List Bough)}
    (hb : s.grove.Bears ((forks.map fun f => (f.1, l :: ls)) ++ others))
    (hmarker : ∀ f ∈ forks, ∃ p, s.grove.roster.use f.1 = .ok p ∧ p.marker = node) :
    ∃ s', Shared.descendAll node n c forks s =
        (forks.map fun f => .running ⟨f.1, f.2.1, c⟩, s') ∧
      s'.grove.Bears ((forks.map fun f => (f.1, ⟨⟨n, f.2.2⟩, []⟩ :: l :: ls)) ++ others) ∧
      s'.tape = s.tape ∧ ∀ k, s.grove.roster.isPresent k → s'.grove.roster.isPresent k := by
  induction forks generalizing s others with
  | nil => exact ⟨s, rfl, hb, rfl, fun _ hk => hk⟩
  | cons f forks ih =>
    obtain ⟨tree, cursor, rule⟩ := f
    obtain ⟨p, hu, rfl⟩ := hmarker (tree, cursor, rule) List.mem_cons_self
    -- The branch is opened in the first tree; all others wait behind it.
    have hb₁ : (s.descend ⟨tree, cursor, c⟩ p.marker ⟨n, rule⟩).grove.Bears
        ((forks.map fun f => (f.1, l :: ls)) ++ (tree, ⟨⟨n, rule⟩, []⟩ :: l :: ls) :: others) :=
      (hb.branchOff hu).thin List.perm_middle.subperm
    obtain ⟨s₂, heq, hb₂, htape, hpres⟩ := ih hb₁ fun f hf => by
      obtain ⟨q, hq, hmark⟩ := hmarker f (List.mem_cons_of_mem _ hf)
      have hne : f.1 ≠ tree := hb.ne_of_mem (List.mem_append_left _ (List.mem_map.2 ⟨f, hf, rfl⟩))
      exact ⟨q, Fork.Roster.use_update.2 ⟨q, hq, (if_neg hne.symm).symm⟩, hmark⟩
    refine ⟨s₂, ?_, hb₂.thin List.perm_middle.symm.subperm, htape, fun k hk => ?_⟩
    · rw [Shared.descendAll, heq]
      rfl
    · exact hpres k (Fork.Roster.isPresent_update.2 hk)

/-- What an attempt is forked into: a new tree and a new cursor for each rule. -/
def offshoots (s : Shared σ) (a : Attempt) (rules : List Flat.Rule) :
    List (Nat × Nat × Flat.Rule) :=
  (s.grove.split a.tree rules.length).1.zip ((s.tape.split a.cursor rules.length).1.zip rules)

section Offshoots

variable {p : Fork.Place} {c : Fork.Cursor} {rules : List Flat.Rule} {n : String}

theorem map_offshoots (hu : s.grove.roster.use a.tree = .ok p)
    (hc : s.tape.roster.use a.cursor = .ok c) :
    (offshoots s a rules).map (·.1) = List.range' s.grove.roster.size rules.length ∧
      (offshoots s a rules).map (·.2.1) = List.range' s.tape.roster.size rules.length ∧
      (offshoots s a rules).map (·.2.2) = rules := by
  rw [offshoots, Grove.split_fst hu, Tape.split_fst hc]
  exact map_zip_zip List.length_range' List.length_range'

/-- Trees and cursors of forks are new ones. -/
theorem size_le_of_mem_offshoots (hu : s.grove.roster.use a.tree = .ok p)
    (hc : s.tape.roster.use a.cursor = .ok c) {f : Nat × Nat × Flat.Rule}
    (hf : f ∈ offshoots s a rules) :
    (s.grove.roster.size ≤ f.1 ∧ f.1 < s.grove.roster.size + rules.length) ∧
      s.tape.roster.size ≤ f.2.1 := by
  obtain ⟨htrees, hcursors, -⟩ := map_offshoots hu hc
  have htree : f.1 ∈ (offshoots s a rules).map (·.1) := List.mem_map.2 ⟨f, hf, rfl⟩
  have hcursor : f.2.1 ∈ (offshoots s a rules).map (·.2.1) := List.mem_map.2 ⟨f, hf, rfl⟩
  rw [htrees] at htree
  rw [hcursors] at hcursor
  exact ⟨List.mem_range'_1.1 htree, (List.mem_range'_1.1 hcursor).1⟩

/-- The forks of an attempt, and what they stand for. -/
def forkGuests (n : String) (look : Lookahead) (ls : List Bough) (rest : List Char)
    (forks : List (Nat × Nat × Flat.Rule)) : List Guest :=
  forks.map fun f => (.running ⟨f.1, f.2.1, look⟩, .running ⟨⟨⟨n, f.2.2⟩, []⟩, ls, rest⟩)

theorem filterMap_tree?_forkGuests {look : Lookahead} {forks : List (Nat × Nat × Flat.Rule)} :
    (forkGuests n look ls rest forks).filterMap Guest.tree? =
      forks.map fun f => (f.1, ⟨⟨n, f.2.2⟩, []⟩ :: ls) := by
  rw [forkGuests, List.filterMap_map]
  exact congrFun List.filterMap_eq_map forks

theorem filterMap_input?_forkGuests {look : Lookahead} {forks : List (Nat × Nat × Flat.Rule)} :
    (forkGuests n look ls rest forks).filterMap Guest.input? =
      forks.map fun f => (f.2.1, rest) := by
  rw [forkGuests, List.filterMap_map]
  exact congrFun List.filterMap_eq_map forks

end Offshoots

/-- The attempt is forked, one fork for each rule. -/
theorem forkOver (h : Beside w s guests a (l :: ls) rest) {p : Fork.Place} {n : String}
    (hu : s.grove.roster.use a.tree = .ok p) (hl : a.lookahead = rest.head?)
    (rules : List Flat.Rule) :
    Reaches w guests (s.forkOver a p.marker n rules)
      (rules.map fun rule => .running ⟨⟨⟨n, rule⟩, []⟩, l :: ls, rest⟩) := by
  obtain ⟨c, -, hc, -⟩ := h.tape.head
  have hnew : ∀ f ∈ offshoots s a rules, _ := fun f => size_le_of_mem_offshoots hu hc
  obtain ⟨htrees, hcursors, hrules⟩ := map_offshoots hu hc
  have hgrove := h.grove.split hu rules.length
  have htape := h.tape.split rules.length
  -- The forks are all that the attempt has been split into.
  rw [Grove.split_fst hu, ← htrees, List.map_map] at hgrove
  rw [Tape.split_fst hc, ← hcursors, List.map_map] at htape
  let s₁ : Shared σ := ⟨(s.grove.split a.tree rules.length).2,
    (s.tape.split a.cursor rules.length).2, s.transitions, s.forks + 1⟩
  obtain ⟨s₂, heq, hb₂, htape₂, hpres⟩ :
      ∃ s', Shared.descendAll p.marker n a.lookahead (offshoots s a rules) s₁ = _ ∧ _ :=
    descendAll (s := s₁) hgrove fun f hf =>
      ⟨p, (Fork.Roster.use_split hu).2 (.inl ⟨(hnew f hf).1.1, (hnew f hf).1.2, rfl⟩), rfl⟩
  refine ⟨forkGuests n a.lookahead (l :: ls) rest (offshoots s a rules), s₂.discard a,
    ?_, ?_, ?_, ?_, ?_⟩
  · rw [Shared.forkOver, hc]
    dsimp only
    rw [← offshoots, heq, forkGuests, List.map_map]
    rfl
  · rw [← hrules, forkGuests, List.map_map, List.map_map, hrules]
    rfl
  · intro x hx
    rcases List.mem_append.1 hx with hx | hx
    · obtain ⟨f, -, rfl⟩ := List.mem_map.1 hx
      exact .running hl
    · exact h.stands x hx
  · rw [List.filterMap_append, filterMap_tree?_forkGuests]
    refine hb₂.drop (hpres a.tree ?_) fun x hx => ?_
    · -- The attempt itself is over. Its tree is none of the new ones.
      exact (Fork.Roster.isPresent_split hu).2 (.inr (Fork.Roster.isPresent_of_use hu))
    · rcases List.mem_append.1 hx with hx | hx
      · obtain ⟨f, hf, rfl⟩ := List.mem_map.1 hx
        exact Nat.ne_of_gt (Nat.lt_of_lt_of_le (Fork.Roster.lt_size_of_use hu) (hnew f hf).1.1)
      · exact h.grove.ne_of_mem hx
  · rw [List.filterMap_append, filterMap_input?_forkGuests]
    refine Tape.Serves.drop (htape₂ ▸ htape) fun x hx => ?_
    rcases List.mem_append.1 hx with hx | hx
    · obtain ⟨f, hf, rfl⟩ := List.mem_map.1 hx
      exact Nat.ne_of_gt (Nat.lt_of_lt_of_le (Fork.Roster.lt_size_of_use hc) (hnew f hf).2)
    · exact h.tape.ne_of_mem hx

/-! ### Steps -/

variable {m : Machine}

theorem expand (h : Beside w s guests a (b.top :: b.above) b.rest) {p : Fork.Place} {n : String}
    (hu : s.grove.roster.use a.tree = .ok p) (hl : a.lookahead = b.rest.head?) :
    Reaches w guests (m.expand a p.marker n s) (b.expand m n) := by
  rw [Machine.expand, Solo.expand, ← hl]
  rcases m.candidates n a.lookahead with _ | ⟨rule, _ | ⟨rule', rules⟩⟩
  · exact h.fail
  · exact (h.descend hu).run (b := b.descend ⟨n, rule⟩) hl
  · exact h.forkOver hu hl (rule :: rule' :: rules)

theorem consume (h : Beside w s guests a (b.top :: b.above) b.rest) {p : Fork.Place}
    (hu : s.grove.roster.use a.tree = .ok p) (hl : a.lookahead = b.rest.head?) (symbol : Symbol) :
    Reaches w guests (m.consume a p.marker symbol s) (b.consume m symbol) := by
  obtain ⟨top, above, rest⟩ := b
  cases symbol with
  | nonTerminal n => exact h.expand hu hl
  | endOfInput =>
    rw [Machine.consume, Solo.consume]
    cases rest with
    | nil =>
      rw [hl]
      exact (h.addLeaf hu _).run (b := Solo.grow ⟨top, above, []⟩ ⟨.endOfInput, ""⟩ []) hl
    | cons c rest =>
      rw [hl]
      exact h.fail
  | charClass k =>
    rw [Machine.consume, Solo.consume, hl]
    cases rest with
    | nil => exact h.fail
    | cons c rest =>
      dsimp only [List.head?_cons]
      rw [CharClass.admits_some]
      by_cases hk : k.accepts (some c)
      · rw [if_pos hk, if_pos hk]
        obtain ⟨s', hread, -, h'⟩ := (h.addLeaf hu ⟨.charClass k, String.singleton c⟩).readNext
        rw [hread]
        exact (h'.look _).run
          (b := Solo.grow ⟨top, above, c :: rest⟩ ⟨.charClass k, String.singleton c⟩ rest) rfl
      · rw [if_neg hk, if_neg hk]
        exact h.fail
  | terminal t =>
    rw [Machine.consume, Solo.consume, hl]
    dsimp only
    cases hprefix : t.chars.isPrefixOf? rest with
    | none =>
      obtain ⟨s', rest', htext, h'⟩ := h.readText_none hprefix
      rw [htext]
      exact h'.fail
    | some rest' =>
      -- The text is read before the leaf is added, which makes no difference to
      -- what the attempt sees.
      obtain rfl := List.isPrefixOf?_eq_some_iff_append_eq.1 hprefix
      obtain ⟨s', htext, hgrove, h'⟩ := h.readText
      rw [htext]
      rw [← hgrove] at hu
      exact ((h'.addLeaf hu _).look _).run
        (b := Solo.grow ⟨top, above, t.chars ++ rest'⟩ ⟨.terminal t, ""⟩ rest') rfl

end Beside

variable {m : Machine}

/-- Nothing is to be shown about the errors of what is no error. -/
theorem forall_of_ok {ε α : Type} {P : α → Prop} {Q : ε → Prop} {r : α} (h : P r) :
    (∀ r', (.ok r : Except ε α) = .ok r' → P r') ∧ ∀ e, (.ok r : Except ε α) = .error e → Q e := by
  refine ⟨fun r' hr => ?_, fun e he => ?_⟩
  · cases hr
    exact h
  · cases he

/-- A step of an attempt is a step of what it stands for. -/
theorem step (h : Hosts w s ((.running a, .running b) :: guests)) :
    (∀ ts, b.step m = .ok ts → Reaches w guests (m.step a s) ts) ∧
      ∀ e, b.step m = .error e → (m.step a s).1 = .error e := by
  obtain ⟨hl, hb⟩ := running_iff.1 h
  -- The number of steps is nobody's business.
  have hb' : Beside w { s with transitions := s.transitions + 1 } guests a (b.top :: b.above)
      b.rest := ⟨hb.stands, hb.grove, hb.tape⟩
  obtain ⟨p, hu, hmarker, hsite, hcount⟩ := hb'.marker
  rw [Machine.step, Solo.step]
  dsimp only
  rw [hmarker]
  dsimp only
  rw [hsite]
  dsimp only
  rw [hcount]
  cases b.top.data.agenda b.top.children.length with
  | overflow =>
    refine ⟨fun ts hts => ?_, fun e he => ?_⟩
    · cases hts
    · cases he
      rfl
  | symbol symbol => exact forall_of_ok (hb'.consume hu hl symbol)
  | complete =>
    obtain ⟨top, above, rest⟩ := b
    cases above with
    | nil =>
      refine forall_of_ok ?_
      dsimp only
      rw [hb'.link?_nil hu]
      exact ⟨[(.accepted a, .accepted ⟨top, [], rest⟩)], _, rfl, rfl, accepted_iff.2 ⟨hl, hb'⟩⟩
    | cons limb limbs =>
      refine forall_of_ok ?_
      obtain ⟨m', hlink, hup⟩ := hb'.ascend hu
      dsimp only
      rw [hlink]
      exact hup.run (b := ⟨limb.add top.close, limbs, rest⟩) hl

end Hosts

/-- The machine does what the machine without sharing does. -/
theorem simulates (m : Machine) (w : List Char) :
    Search.Simulates (m.automaton : Search.Automaton State (Shared σ) Fault) Solo.State.kind
      (Solo.next m) (Hosts w) where
  kinds {s guests x} h hx := by
    obtain ⟨t, u⟩ := x
    cases h.stands _ hx <;> rfl
  thin h hsub := h.thin hsub
  fails {s t u guests e} h hu he := by
    cases h.stands _ List.mem_cons_self with
    | running => exact h.step.2 e he
    | accepted | failed => cases hu
  goesOn {s t u guests ts} h hu hts := by
    cases h.stands _ List.mem_cons_self with
    | running => exact h.step.1 ts hts
    | accepted | failed => cases hu

/-- The first attempt at a text, wherever its characters come from. -/
theorem hosts_begin {w : List Char} {produce : σ → Option Char × σ} {source : σ}
    (hw : Tape.Yields produce w source) (start : Symbol) :
    ∃ a s, begin start (.new produce source) 0 = .ok (a, s) ∧
      Hosts w s [(.running a, .running (Solo.begin start w))] := by
  have ht := Tape.tells_new hw
  have hu : (Tape.new produce source).roster.use 0 = .ok .start := Tape.use_new
  generalize Tape.new produce source = tape at ht hu ⊢
  have hhead : (tape.advance 0).1 = w.head? := by
    rw [List.head?_eq_getElem?]
    exact ht.advance_fst hu
  have hnext : tape.next 0 = .ok ((tape.advance 0).1, (tape.advance 0).2) := by
    rw [Tape.next, hu]
  obtain ⟨d, hd, hdreads⟩ := ht.use_advance_self hu
  refine ⟨⟨0, 0, (tape.advance 0).1⟩, _, by rw [begin, hnext], Hosts.running_iff.2 ⟨hhead, ?_⟩⟩
  refine ⟨fun x hx => absurd hx List.not_mem_nil, .plant, ht.advance hu, fun x hx => ?_, ?_⟩
  · rw [List.mem_singleton.1 hx]
    exact ⟨d, [], hd, rfl, by rw [hdreads]; rfl⟩
  · exact List.nodup_singleton 0

end Ramify.Parse
