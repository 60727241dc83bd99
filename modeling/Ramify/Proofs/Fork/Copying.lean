import Mathlib.Logic.Function.Basic
import Ramify.Proofs.Fork.Dropping

/-!
# Copies on fork

A grove pretends that every handle has a tree of its own. `Copies` is what it
pretends to be: each handle keeps a list of children for every branch, a fork
gets a copy of all lists and of the marker, and adding a child appends it to the
list of the handle that adds it. Nothing is shared there, and nothing is
filtered.

* `Deed`: what users do with handles, on a grove (`Deed.run`) and with copies
  (`Deed.copy`);
* `Mirrors`: a grove looks like copies to each handle that can be used;
* `Mirrors.run`: every deed is answered alike, and the grove goes on looking
  like copies;
* `Grove.like_copies`: so whatever has been done, by however many handles and in
  whatever order, what a handle sees is what its copy holds.
-/

namespace Ramify.Fork

variable {β κ : Type}

/-- What users do with handles. -/
inductive Deed (β κ : Type) where
  /-- Plants a tree of one node. -/
  | plant (label : Label β κ)
  /-- Adds a child below a branch. -/
  | add (h n : Nat) (label : Label β κ)
  /-- Moves the marker. -/
  | setMarker (h n : Nat)
  /-- Forks a handle. -/
  | fork (h count : Nat)
  /-- Gives a handle up. -/
  | drop (h : Nat)

/-- The handle that a deed needs to be usable. -/
def Deed.user? : Deed β κ → Option Nat
  | add h _ _ | setMarker h _ | fork h _ => some h
  | plant _ | drop _ => none

/-- A deed on a grove, with the numbers of the handles and nodes that came into
    being. -/
def Deed.run : Deed β κ → Grove β κ → Except ForkError (List Nat × Grove β κ)
  | plant label, g => .ok ([g.roster.size, g.nodes.size], g.plant label)
  | add h n label, g => (g.append h n label).map fun (child, g) => ([child], g)
  | setMarker h n, g => (g.setMarker h n).map ([], ·)
  | fork h count, g => g.fork h count
  | drop h, g => .ok ([], g.drop h)

/-- Children are added below branches. -/
def Deed.fits : Deed β κ → Grove β κ → Bool
  | add _ n _, g => g.isBranch n
  | _, _ => true

/-! ### Copies -/

/-- A tree of one's own. -/
structure Copy where
  /-- The root of the tree. -/
  root : Nat
  /-- The marked node. -/
  marker : Nat
  /-- The children of every branch. -/
  children : Nat → List Nat

/-- Handles, each with a tree of its own. Nodes are numbered in the order of
    their creation. -/
structure Copies (β κ : Type) where
  /-- What the nodes carry. -/
  labels : Array (Label β κ)
  /-- The handles. -/
  roster : Roster Copy

/-- A copy with one more child below a branch. -/
def Copy.add (n child : Nat) (t : Copy) : Copy :=
  { t with children := Function.update t.children n (t.children n ++ [child]) }

namespace Copies

/-- No trees. -/
def empty : Copies β κ := ⟨#[], .empty⟩

/-- A new tree of one node. -/
def plant (label : Label β κ) (c : Copies β κ) : Copies β κ :=
  ⟨c.labels.push label, c.roster.add ⟨c.labels.size, c.labels.size, fun _ => []⟩⟩

/-- Adds a child to the copy of one handle. -/
def append (h n : Nat) (label : Label β κ) (c : Copies β κ) : Except ForkError (Nat × Copies β κ) :=
  (c.roster.use h).map fun _ =>
    (c.labels.size, ⟨c.labels.push label, c.roster.update h (.add n c.labels.size)⟩)

/-- Moves the marker of one handle. -/
def setMarker (h n : Nat) (c : Copies β κ) : Except ForkError (Copies β κ) :=
  (c.roster.use h).map fun _ =>
    { c with roster := c.roster.update h fun t => { t with marker := n } }

/-- Forks a handle. Each fork gets a copy of what it had. -/
def fork (h count : Nat) (c : Copies β κ) : Except ForkError (List Nat × Copies β κ) :=
  (c.roster.fork h count).map fun (hs, roster) => (hs, { c with roster := roster })

/-- Gives a handle up. -/
def drop (h : Nat) (c : Copies β κ) : Copies β κ := { c with roster := c.roster.drop h }

/-- The root of the tree of a handle. -/
def root (c : Copies β κ) (h : Nat) : Except ForkError Nat := (c.roster.use h).map (·.root)

/-- The marker of a handle. -/
def marker (c : Copies β κ) (h : Nat) : Except ForkError Nat := (c.roster.use h).map (·.marker)

/-- The children of a node in the tree of a handle. -/
def children (c : Copies β κ) (h n : Nat) : Except ForkError (List Nat) :=
  (c.roster.use h).map (·.children n)

end Copies

/-- A deed with copies. -/
def Deed.copy : Deed β κ → Copies β κ → Except ForkError (List Nat × Copies β κ)
  | plant label, c => .ok ([c.roster.size, c.labels.size], c.plant label)
  | add h n label, c => (c.append h n label).map fun (child, c) => ([child], c)
  | setMarker h n, c => (c.setMarker h n).map ([], ·)
  | fork h count, c => c.fork h count
  | drop h, c => .ok ([], c.drop h)

/-! ### Deeds in a row -/

section Done

variable {σ : Type}

/-- What is left after a deed. One that is refused changes nothing. -/
def afterwards (s : σ) : Except ForkError (List Nat × σ) → σ
  | .ok (_, s) => s
  | .error _ => s

/-- What deeds make of a store, one after the other. -/
def done (act : Deed β κ → σ → Except ForkError (List Nat × σ)) : List (Deed β κ) → σ → σ
  | [], s => s
  | d :: ds, s => done act ds (afterwards s (act d s))

end Done

/-- Deeds of which each fits the grove that those before it have left. -/
def Deed.fitAll : List (Deed β κ) → Grove β κ → Bool
  | [], _ => true
  | d :: ds, g => d.fits g && fitAll ds (afterwards g (d.run g))

/-! ### Looking like copies -/

namespace Grove

variable {g : Grove β κ} {h k n m : Nat} {p q : Place} {label : Label β κ}

theorem visible_of_size_le (hn : g.nodes.size ≤ n) : g.visible k n = [] := by
  rw [visible, node?, Array.getElem?_eq_none hn]

theorem lt_size_of_isBranch (hn : g.isBranch n) : n < g.nodes.size := by
  refine Nat.lt_of_not_le fun hle => ?_
  rw [isBranch, label?, node?, Array.getElem?_eq_none hle] at hn
  cases hn

/-- What a handle sees when it has added a child. -/
theorem visible_attach (hs : g.Sound) (hu : g.roster.use h = .ok p) (hm : m < g.nodes.size) :
    (g.attach h m label).visible h =
      Function.update (g.visible h) m (g.visible h m ++ [g.nodes.size]) := by
  funext n
  by_cases hn : n = m
  · rw [hn, Function.update_self, visible_attach_self hs hu hm]
  · rw [Function.update_of_ne hn]
    rcases Nat.lt_trichotomy n g.nodes.size with hlt | rfl | hgt
    · exact visible_attach_of_ne hn hlt
    · rw [visible_attach_size, visible_of_size_le (Nat.le_refl _)]
    · rw [visible_of_size_le (Nat.le_of_lt hgt), visible_of_size_le (by rwa [size_attach])]

/-- What the others see then. -/
theorem visible_attach_other (hs : g.Sound) (hu : g.roster.use h = .ok p)
    (hk : g.roster.use k = .ok q) (hne : k ≠ h) :
    (g.attach h m label).visible k = g.visible k := by
  funext n
  rcases Nat.lt_trichotomy n g.nodes.size with hlt | rfl | hgt
  · exact visible_attach_of_use hs hu hk hne hlt
  · rw [visible_attach_size, visible_of_size_le (Nat.le_refl _)]
  · rw [visible_of_size_le (Nat.le_of_lt hgt), visible_of_size_le (by rwa [size_attach])]

/-- Planting a tree does not change what any handle sees. -/
theorem visible_plant (hs : g.Sound) (hk : k < g.roster.size) :
    (g.plant label).visible k = g.visible k := by
  funext n
  by_cases hn : n = g.nodes.size
  · rw [visible_of_size_le (Nat.le_of_eq hn.symm), visible, node?_plant, if_pos hn]
    rfl
  · rw [visible, visible, node?_plant, if_neg hn]
    cases hb : g.node? n with
    | none => rfl
    | some b =>
      rw [← hs.owners] at hk
      refine congrArg (List.flatMap _) (List.filter_congr fun x _ => ?_)
      rw [Bool.eq_iff_iff, hs.lineage.includes_iff hk, ← hs.lineage.descends_addFirst hk]
      refine hs.lineage.addFirst.includes_iff ?_
      rw [Lineage.size_addFirst]
      exact Nat.lt_succ_of_lt hk

/-- In a new tree there is nothing to be seen yet. -/
theorem visible_plant_new (hs : g.Sound) :
    (g.plant label).visible g.roster.size = fun _ => [] := by
  funext n
  by_cases hn : n = g.nodes.size
  · rw [visible, node?_plant, if_pos hn]
    rfl
  · rw [visible, node?_plant, if_neg hn]
    cases hb : g.node? n with
    | none => rfl
    | some b =>
      have hsize : g.roster.size < g.lineage.addFirst.size := by
        rw [Lineage.size_addFirst, hs.owners]
        exact Nat.lt_succ_self _
      -- The new owner descends from nobody, and has not written anything yet.
      have hnone : (b.broods.filter fun l =>
          g.lineage.addFirst.includes g.roster.size l.owner) = [] := by
        refine List.filter_eq_nil_iff.2 fun x hx hsees => ?_
        have hknown := (hs.broods n b hb).known x hx
        rw [hs.owners] at hknown
        have hdesc := (hs.lineage.addFirst.includes_iff hsize).1 hsees
        rcases hdesc.eq_or_parent with heq | ⟨q, hq, -⟩
        · exact Nat.ne_of_gt hknown heq
        · rw [Lineage.parent?_addFirst, if_pos hs.owners.symm] at hq
          cases hq
      exact congrArg (List.flatMap _) hnone

end Grove

/-- A grove looks like copies: the same nodes, the same handles that can be used,
    and each of them sees what its copy holds. -/
structure Mirrors (g : Grove β κ) (c : Copies β κ) : Prop where
  sound : g.Sound
  nodes : g.nodes.size = c.labels.size
  labels : ∀ n, g.label? n = c.labels[n]?
  handles : g.roster.size = c.roster.size
  use : ∀ h t, c.roster.use h = .ok t ↔
    ∃ p, g.roster.use h = .ok p ∧ t = ⟨p.root, p.marker, g.visible h⟩

namespace Mirrors

variable {g g' : Grove β κ} {c c' : Copies β κ} {h k n : Nat} {p : Place} {t : Copy}
  {label : Label β κ}

/-- A handle that can be used has a copy, and one that cannot has none. -/
theorem use_eq (hm : Mirrors g c) (h : Nat) : c.roster.use h =
    (g.roster.use h).map fun p => ⟨p.root, p.marker, g.visible h⟩ := by
  cases hu : g.roster.use h with
  | ok p => exact (hm.use h _).2 ⟨p, hu, rfl⟩
  | error e =>
    cases e
    refine Roster.use_eq_error_iff.2 fun t ht => ?_
    obtain ⟨p, hp, -⟩ := (hm.use h t).1 ht
    exact nomatch hu.symm.trans hp

theorem empty : Mirrors (Grove.empty : Grove β κ) Copies.empty where
  sound := Grove.sound_empty
  nodes := rfl
  labels _ := rfl
  handles := rfl
  use h t := by
    have hnone : ∀ {α : Type} {a : α}, (Roster.empty : Roster α).use h ≠ .ok a := fun hu =>
      Nat.not_lt_zero h (Roster.lt_size_of_use hu)
    exact iff_of_false hnone fun ⟨_, hp, _⟩ => hnone hp

theorem label?_push {labels : Array (Label β κ)} (hlabels : ∀ n, g.label? n = labels[n]?)
    (hsize : g.nodes.size = labels.size) (n : Nat) :
    (if n = g.nodes.size then some label else g.label? n) = (labels.push label)[n]? := by
  rw [Array.getElem?_push, hsize, hlabels]

theorem plant (hm : Mirrors g c) : Mirrors (g.plant label) (c.plant label) where
  sound := hm.sound.plant
  nodes := by
    rw [Grove.plant, Copies.plant, Array.size_push, Array.size_push, hm.nodes]
  labels n := by
    rw [Copies.plant, ← label?_push hm.labels hm.nodes, Grove.label?, Grove.node?_plant]
    split <;> rfl
  handles := by
    rw [Grove.plant, Copies.plant, Roster.size_add, Roster.size_add, hm.handles]
  use k t := by
    have hnew : (g.plant label).visible c.roster.size = fun _ => [] :=
      hm.handles ▸ Grove.visible_plant_new hm.sound
    have hold : ∀ p, g.roster.use k = .ok p → (g.plant label).visible k = g.visible k :=
      fun p hp => Grove.visible_plant hm.sound (Roster.lt_size_of_use hp)
    constructor
    · intro hk
      rcases Roster.use_add.1 hk with ⟨rfl, rfl⟩ | hk
      · refine ⟨_, Roster.use_add.2 (.inl ⟨hm.handles.symm, rfl⟩), ?_⟩
        rw [hnew, hm.nodes]
      · obtain ⟨p, hp, rfl⟩ := (hm.use k t).1 hk
        exact ⟨p, Roster.use_add.2 (.inr hp), by rw [hold p hp]⟩
    · rintro ⟨p, hp, rfl⟩
      refine Roster.use_add.2 ?_
      rcases Roster.use_add.1 hp with ⟨rfl, rfl⟩ | hp
      · refine .inl ⟨hm.handles, ?_⟩
        rw [hm.handles, hnew, hm.nodes]
      · exact .inr ((hm.use k _).2 ⟨p, hp, by rw [hold p hp]⟩)

/-- A handle that can be used adds a child below a branch. -/
theorem attach (hm : Mirrors g c) (hu : g.roster.use h = .ok p) (hn : n < g.nodes.size) :
    Mirrors (g.attach h n label)
      ⟨c.labels.push label, c.roster.update h (.add n c.labels.size)⟩ where
  sound := hm.sound.attach hu
  nodes := by
    rw [Grove.size_attach, Array.size_push, hm.nodes]
  labels k := by
    rw [← label?_push hm.labels hm.nodes, Grove.label?_attach]
  handles := hm.handles.trans Roster.size_update.symm
  use k t := by
    -- What the copy of a handle becomes is what the handle sees then.
    have hcopy : ∀ q, g.roster.use k = .ok q →
        (if h = k then Copy.add n c.labels.size ⟨q.root, q.marker, g.visible k⟩
          else ⟨q.root, q.marker, g.visible k⟩) =
          ⟨q.root, q.marker, (g.attach h n label).visible k⟩ := fun q hq => by
      split
      · rename_i hk
        subst hk
        rw [Grove.visible_attach hm.sound hu hn, Copy.add, hm.nodes]
      · rename_i hk
        rw [Grove.visible_attach_other hm.sound hu hq (Ne.symm hk)]
    rw [Roster.use_update]
    constructor
    · rintro ⟨t, ht, rfl⟩
      obtain ⟨q, hq, rfl⟩ := (hm.use k t).1 ht
      exact ⟨q, hq, hcopy q hq⟩
    · rintro ⟨q, hq, rfl⟩
      exact ⟨_, (hm.use k _).2 ⟨q, hq, rfl⟩, (hcopy q hq).symm⟩

/-- A handle moves its marker. -/
theorem mark (hm : Mirrors g c) :
    Mirrors (g.mark h n)
      { c with roster := c.roster.update h fun t => { t with marker := n } } where
  sound := hm.sound.mark
  nodes := hm.nodes
  labels := hm.labels
  handles := by
    rw [Grove.mark, Roster.size_update, Roster.size_update, hm.handles]
  use k t := by
    rw [Roster.use_update]
    constructor
    · rintro ⟨t, ht, rfl⟩
      obtain ⟨q, hq, rfl⟩ := (hm.use k t).1 ht
      refine ⟨_, Roster.use_update.2 ⟨q, hq, rfl⟩, ?_⟩
      split <;> rfl
    · rintro ⟨_, hmarked, rfl⟩
      obtain ⟨q, hq, rfl⟩ := Roster.use_update.1 hmarked
      refine ⟨_, (hm.use k ⟨q.root, q.marker, g.visible k⟩).2 ⟨q, hq, rfl⟩, ?_⟩
      split <;> rfl

/-- A handle is forked. -/
theorem split (hm : Mirrors g c) (hu : g.roster.use h = .ok p) (ht : c.roster.use h = .ok t)
    (count : Nat) :
    Mirrors (g.split h count).2 { c with roster := (c.roster.split h count).2 } where
  sound := hm.sound.split hu
  nodes := hm.nodes
  labels := hm.labels
  handles := by
    rw [Grove.roster_split, Roster.size_split hu, Roster.size_split ht, hm.handles]
  use k s := by
    have hold : ∀ q, g.roster.use k = .ok q → (g.split h count).2.visible k = g.visible k :=
      fun q hq => funext fun n => Grove.visible_split hm.sound hu (Roster.lt_size_of_use hq)
    have hnew : g.roster.size ≤ k → k < g.roster.size + count →
        (g.split h count).2.visible k = g.visible h :=
      fun h₁ h₂ => funext fun n => Grove.visible_split_new hm.sound hu h₁ h₂
    obtain ⟨_, hp, rfl⟩ := (hm.use h t).1 ht
    obtain rfl := Except.ok.inj (hu.symm.trans hp)
    rw [Roster.use_split ht, Grove.roster_split, ← hm.handles]
    constructor
    · rintro (⟨h₁, h₂, rfl⟩ | ⟨hne, hk⟩)
      · exact ⟨p, (Roster.use_split hu).2 (.inl ⟨h₁, h₂, rfl⟩), by rw [hnew h₁ h₂]⟩
      · obtain ⟨q, hq, rfl⟩ := (hm.use k s).1 hk
        exact ⟨q, (Roster.use_split hu).2 (.inr ⟨hne, hq⟩), by rw [hold q hq]⟩
    · rintro ⟨q, hq, rfl⟩
      rcases (Roster.use_split hu).1 hq with ⟨h₁, h₂, rfl⟩ | ⟨hne, hq⟩
      · exact .inl ⟨h₁, h₂, by rw [hnew h₁ h₂]⟩
      · exact .inr ⟨hne, (hm.use k _).2 ⟨q, hq, by rw [hold q hq]⟩⟩

/-- A handle is given up, if it was not before. -/
theorem drop (hm : Mirrors g c) : Mirrors (g.drop h) (c.drop h) := by
  by_cases hpres : g.roster.isPresent h
  · refine ⟨hm.sound.drop hpres, ?_, fun n => ?_, ?_, fun k t => ?_⟩
    · exact (Grove.size_drop hm.sound hpres).trans hm.nodes
    · exact (Grove.label?_drop hm.sound hpres).trans (hm.labels n)
    · rw [Grove.roster_drop hm.sound hpres, Copies.drop, Roster.size_drop, Roster.size_drop,
        hm.handles]
    · have hold : ∀ q, g.roster.use k = .ok q → k ≠ h → (g.drop h).visible k = g.visible k :=
        fun q hq hne => funext fun n => Grove.visible_drop hm.sound hpres hq hne
      rw [Copies.drop, Roster.use_drop]
      constructor
      · rintro ⟨hne, hk⟩
        obtain ⟨q, hq, rfl⟩ := (hm.use k t).1 hk
        exact ⟨q, (Grove.use_drop hm.sound hpres).2 ⟨hne, hq⟩, by rw [hold q hq hne]⟩
      · rintro ⟨q, hq, rfl⟩
        obtain ⟨hne, hq⟩ := (Grove.use_drop hm.sound hpres).1 hq
        exact ⟨hne, (hm.use k _).2 ⟨q, hq, by rw [hold q hq hne]⟩⟩
  · have hnot : ∀ p, g.roster.use h ≠ .ok p := fun p hp => hpres (Roster.isPresent_of_use hp)
    rw [Grove.drop, if_neg hpres]
    refine ⟨hm.sound, hm.nodes, hm.labels, hm.handles.trans Roster.size_drop.symm, fun k t => ?_⟩
    rw [Copies.drop, Roster.use_drop, hm.use]
    refine and_iff_right_of_imp ?_
    rintro ⟨p, hp, -⟩ rfl
    exact hnot p hp

theorem add (hm : Mirrors g c) (hn : g.isBranch n) :
    ((Deed.add h n label).run g).map (·.1) = ((Deed.add h n label).copy c).map (·.1) ∧
      Mirrors (afterwards g ((Deed.add h n label).run g))
        (afterwards c ((Deed.add h n label).copy c)) := by
  rw [Deed.run, Deed.copy, Grove.append, Copies.append, hm.use_eq h]
  cases hu : g.roster.use h with
  | error e => exact ⟨rfl, hm⟩
  | ok p =>
    refine ⟨?_, hm.attach hu (Grove.lt_size_of_isBranch hn)⟩
    change Except.ok [g.nodes.size] = Except.ok [c.labels.size]
    rw [hm.nodes]

theorem fork (hm : Mirrors g c) (count : Nat) :
    ((Deed.fork h count).run g).map (·.1) = ((Deed.fork h count).copy c).map (·.1) ∧
      Mirrors (afterwards g ((Deed.fork h count).run g))
        (afterwards c ((Deed.fork h count).copy c)) := by
  have hcopy := hm.use_eq h
  rw [Deed.run, Deed.copy, Grove.fork, Copies.fork, Roster.fork]
  cases hu : g.roster.use h with
  | error e =>
    rw [hu] at hcopy
    rw [hcopy]
    exact ⟨rfl, hm⟩
  | ok p =>
    rw [hu] at hcopy
    rw [hcopy]
    refine ⟨?_, hm.split hu hcopy count⟩
    change Except.ok (g.split h count).1 = Except.ok (c.roster.split h count).1
    rw [Grove.split_fst hu, Roster.split_of_use hcopy, hm.handles]

/-- A deed is answered alike, and what it leaves looks alike. -/
theorem run {d : Deed β κ} (hm : Mirrors g c) (hd : d.fits g) :
    (d.run g).map (·.1) = (d.copy c).map (·.1) ∧
      Mirrors (afterwards g (d.run g)) (afterwards c (d.copy c)) := by
  cases d with
  | plant label =>
    refine ⟨?_, hm.plant⟩
    change Except.ok [g.roster.size, g.nodes.size] = Except.ok [c.roster.size, c.labels.size]
    rw [hm.handles, hm.nodes]
  | add h n label => exact hm.add hd
  | setMarker h n =>
    rw [Deed.run, Deed.copy, Grove.setMarker, Copies.setMarker, hm.use_eq h]
    cases g.roster.use h with
    | error e => exact ⟨rfl, hm⟩
    | ok p => exact ⟨rfl, hm.mark⟩
  | fork h count => exact hm.fork count
  | drop h => exact ⟨rfl, hm.drop⟩

/-- So it is after any number of deeds. -/
theorem done {ds : List (Deed β κ)} (hm : Mirrors g c) (hds : Deed.fitAll ds g) :
    Mirrors (Fork.done Deed.run ds g) (Fork.done Deed.copy ds c) := by
  induction ds generalizing g c with
  | nil => exact hm
  | cons d ds ih =>
    obtain ⟨hd, hds⟩ := Bool.and_eq_true_iff.1 hds
    exact ih (hm.run hd).2 hds

end Mirrors

/-! ### What handles see -/

/-- A grove shows each handle what its copy holds, and refuses to show what no
    copy holds. -/
structure Agrees (g : Grove β κ) (c : Copies β κ) : Prop where
  label : ∀ n, g.label? n = c.labels[n]?
  root : ∀ h, g.root h = c.root h
  marker : ∀ h, g.marker h = c.marker h
  children : ∀ h n, g.children h n = c.children h n
  childCount : ∀ h n, g.childCount h n = (c.children h n).map List.length

/-- A handle sees the same in two groves. -/
structure Unmoved (g g' : Grove β κ) (k : Nat) : Prop where
  root : g'.root k = g.root k
  marker : g'.marker k = g.marker k
  children : ∀ n, g'.children k n = g.children k n
  childCount : ∀ n, g'.childCount k n = g.childCount k n

/-- A grove refuses everything to a handle, and nothing comes of trying. -/
structure Refuses (g : Grove β κ) (h : Nat) : Prop where
  deed : ∀ d : Deed β κ, d.user? = some h →
    d.run g = .error .alreadyForked ∧ done Deed.run [d] g = g
  root : g.root h = .error .alreadyForked
  marker : g.marker h = .error .alreadyForked
  children : ∀ n, g.children h n = .error .alreadyForked
  childCount : ∀ n, g.childCount h n = .error .alreadyForked
  parent : ∀ n, g.parent h n = .error .alreadyForked

namespace Grove

variable {g : Grove β κ} {c : Copies β κ} {h k : Nat}

theorem agrees_of_mirrors (hm : Mirrors g c) : Agrees g c where
  label := hm.labels
  root h := by
    rw [root, Copies.root, hm.use_eq h]
    cases g.roster.use h <;> rfl
  marker h := by
    rw [marker, Copies.marker, hm.use_eq h]
    cases g.roster.use h <;> rfl
  children h n := by
    rw [children, Copies.children, hm.use_eq h]
    cases g.roster.use h <;> rfl
  childCount h n := by
    rw [childCount, Copies.children, hm.use_eq h, visibleCount_eq]
    cases g.roster.use h <;> rfl

theorem refuses_of_isBlocked (hb : g.roster.isBlocked h) : Refuses g h := by
  have hu : g.roster.use h = .error .alreadyForked := Roster.use_of_isBlocked hb
  have hdeed : ∀ d : Deed β κ, d.user? = some h → d.run g = .error .alreadyForked := by
    intro d hd
    cases d with
    | plant | drop => cases hd
    | add _ n label =>
      cases hd
      rw [Deed.run, append, hu]
      rfl
    | setMarker _ n =>
      cases hd
      rw [Deed.run, setMarker, hu]
      rfl
    | fork _ count =>
      cases hd
      rw [Deed.run, fork, hu]
  refine ⟨fun d hd => ⟨hdeed d hd, ?_⟩, ?_, ?_, fun n => ?_, fun n => ?_, fun n => ?_⟩
  · rw [done, hdeed d hd]
    rfl
  · rw [root, hu]
    rfl
  · rw [marker, hu]
    rfl
  · rw [children, hu]
    rfl
  · rw [childCount, hu]
    rfl
  · rw [parent, hu]
    rfl

theorem unmoved_drop (hs : g.Sound) (hne : k ≠ h) : Unmoved g (g.drop h) k := by
  by_cases hpres : g.roster.isPresent h
  · have huse : (g.drop h).roster.use k = g.roster.use k := by
      rw [roster_drop hs hpres, Roster.use, Roster.use, Roster.drop,
        Array.getElem?_modify, if_neg hne.symm]
    have hvisible : ∀ p n, g.roster.use k = .ok p → (g.drop h).visible k n = g.visible k n :=
      fun p n hp => visible_drop hs hpres hp hne
    refine ⟨by rw [root, root, huse], by rw [marker, marker, huse], fun n => ?_, fun n => ?_⟩
    · rw [children, children, huse]
      cases hu : g.roster.use k with
      | error e => rfl
      | ok p => rw [hvisible p n hu]
    · rw [childCount, childCount, huse, visibleCount_eq, visibleCount_eq]
      cases hu : g.roster.use k with
      | error e => rfl
      | ok p => rw [hvisible p n hu]
  · rw [drop, if_neg hpres]
    exact ⟨rfl, rfl, fun _ => rfl, fun _ => rfl⟩

/-- A grove is as good as a copy for every handle. Whatever deeds have been done
    on it, in whatever order and with however many handles, it shows every handle
    what the handle would have if forks were copies, and answers the next deed
    as copies do. It refuses everything to a handle that was forked, and giving
    up a handle makes no difference to any other. -/
theorem like_copies (ds : List (Deed β κ)) (hds : Deed.fitAll ds (empty : Grove β κ)) :
    let g := done Deed.run ds (empty : Grove β κ)
    let c := done Deed.copy ds (Copies.empty : Copies β κ)
    Agrees g c ∧
      (∀ d : Deed β κ, d.fits g → (d.run g).map (·.1) = (d.copy c).map (·.1)) ∧
      (∀ h, g.roster.isBlocked h → Refuses g h) ∧
      ∀ h k, k ≠ h → Unmoved g (g.drop h) k := by
  have hm : Mirrors (done Deed.run ds (empty : Grove β κ)) (done Deed.copy ds .empty) :=
    Mirrors.empty.done hds
  exact ⟨agrees_of_mirrors hm, fun d hd => (hm.run hd).1, fun h => refuses_of_isBlocked,
    fun h k => unmoved_drop hm.sound⟩

/-- Two forks of a handle that go separate ways, and outlive it. -/
def parting : List (Deed String Nat) :=
  [.plant (.branch "root"), .add 0 0 (.leaf 7), .fork 0 2, .drop 0, .add 1 0 (.leaf 8),
    .drop 1, .add 2 0 (.leaf 9)]

theorem like_copies_parting : Deed.fitAll parting empty ∧
    Agrees (done Deed.run parting empty) (done Deed.copy parting .empty) ∧
    (done Deed.run parting empty).children 2 0 = .ok [1, 3] := by
  have hfit : Deed.fitAll parting empty := by decide +kernel
  obtain ⟨hagrees, -⟩ := like_copies parting hfit
  -- The copies can be computed at once.
  exact ⟨hfit, hagrees, (hagrees.children 2 0).trans rfl⟩

end Grove

end Ramify.Fork
