import Ramify.Proofs.Fork.Descent

/-!
# Skip links

A lineage is built up from nothing, owner by owner: each is either the first of its kind or
forked off one that is there (`Built`). However long it has become, its links can be relied on
(`ancestors_traced`):

* all of them are sound (`Built.sound`), and so each search for an ancestor comes to an end
  and finds the one that there is;
* a skip link leads to a proper ancestor, and only the first owners have none
  (`Sound.skips`);
* the two jumps that decide where a fork skips to lead up, so that their lengths are what
  the subtractions say (`Sound.depth_skipTarget_le`).
-/

namespace Ramify.Fork.Lineage

variable {l : Lineage} {o p a d : Nat} {w : Owner}

/-- A lineage that came about by adding owners, each without ancestors or forked off an
    owner that was there. -/
inductive Built : Lineage → Prop
  | empty : Built .empty
  | addFirst {l : Lineage} : Built l → Built l.addFirst
  | addFork {l : Lineage} {p : Nat} : Built l → p < l.size → Built (l.addFork p)

theorem Built.sound (h : l.Built) : l.Sound := by
  induction h with
  | empty => exact .empty
  | addFirst _ ih => exact ih.addFirst
  | addFork _ hp ih => exact ih.addFork hp

/-- The target of the skip link of an owner, if it has one. -/
def skip? (l : Lineage) (o : Nat) : Option Nat := l.owners[o]?.bind (·.skip)

/-- An owner is a proper ancestor of another one. -/
def Above (l : Lineage) (a o : Nat) : Prop := a ≠ o ∧ l.Descends o a

namespace Sound

variable (hl : l.Sound)

include hl

/-- Who descends from the parent of an owner is above the owner. -/
theorem above_of_parent (hp : l.parent? o = some p) (h : l.Descends p a) : l.Above a o :=
  ⟨Nat.ne_of_lt (Nat.lt_of_le_of_lt (hl.le h) (hl.parent_lt hp)), .up hp h⟩

/-- The first owners have no skip link, and all others one that leads to a proper ancestor. -/
theorem skips (ho : o < l.size) : (l.parent? o = none ∧ l.skip? o = none) ∨
    ∃ p s, l.parent? o = some p ∧ l.skip? o = some s ∧ l.Above s o := by
  obtain ⟨w, hw⟩ : ∃ w, l.owners[o]? = some w := ⟨_, Array.getElem?_eq_getElem ho⟩
  have hparent : l.parent? o = w.parent := by rw [parent?, hw, Option.bind_some]
  rw [hparent, skip?, hw, Option.bind_some]
  cases hp : w.parent with
  | none => exact .inl ⟨rfl, ((hl o w hw).first hp).2⟩
  | some p =>
    obtain ⟨-, -, s, hs, hps⟩ := (hl o w hw).later p hp
    exact .inr ⟨p, s, rfl, hs, hl.above_of_parent (hparent.trans hp) hps⟩

/-- A jump along a skip link does not lead further down. -/
theorem depth_skipTarget_le : l.depth (l.skipTarget o) ≤ l.depth o :=
  hl.depth_le hl.descends_skipTarget

/-- While an owner is too deep, the search has an older one to go on with, which is a proper
    ancestor and not beyond the depth that is wanted. -/
theorem climb_above (hw : l.owners[o]? = some w) (hd : d < w.depth) :
    ∃ up, l.climb d w = some up ∧ up < o ∧ l.Above up o ∧ d ≤ l.depth up := by
  obtain ⟨up, hup, hlt, hdesc, hle⟩ := hl.climb hw hd
  exact ⟨up, hup, hlt, ⟨Nat.ne_of_lt hlt, hdesc⟩, hle⟩

/-- Each depth up to that of an owner is the depth of one of its ancestors. -/
theorem exists_ancestor (hd : d ≤ l.depth o) : ∃ a, l.Descends o a ∧ l.depth a = d := by
  induction o using Nat.strongRecOn with
  | ind o ih =>
    rcases Nat.eq_or_lt_of_le hd with rfl | hlt
    · exact ⟨o, .self o, rfl⟩
    · -- Only an owner that exists has a depth, and the search can go on from there.
      cases hw : l.owners[o]? with
      | none => simp [depth, hw] at hlt
      | some w =>
        rw [depth_eq hw] at hlt
        obtain ⟨up, -, hup, ⟨-, hdesc⟩, hle⟩ := hl.climb_above hw hlt
        obtain ⟨a, ha, hdepth⟩ := ih up hup hle
        exact ⟨a, hdesc.trans ha, hdepth⟩

/-- The search finds the ancestor of each depth there is, and there is only one. -/
theorem exists_ancestorAt (ho : o < l.size) (hd : d ≤ l.depth o) :
    ∃ a, l.ancestorAt d o = some a ∧ (l.Descends o a ∧ l.depth a = d) ∧
      ∀ b, l.Descends o b → l.depth b = d → b = a := by
  obtain ⟨a, ha, hdepth⟩ := hl.exists_ancestor hd
  exact ⟨a, (hl.ancestorAt_eq_some_iff ho).2 ⟨ha, hdepth⟩, ⟨ha, hdepth⟩,
    fun b hb hbd => hl.eq_of_depth_eq hb ha (hbd.trans hdepth.symm)⟩

/-- There is nothing to be found below an owner. -/
theorem ancestorAt_eq_none (ho : o < l.size) (hd : l.depth o < d) : l.ancestorAt d o = none := by
  refine Option.eq_none_iff_forall_ne_some.2 fun a ha => ?_
  obtain ⟨hdesc, hdepth⟩ := (hl.ancestorAt_eq_some_iff ho).1 ha
  have hle := hl.depth_le hdesc
  omega

end Sound

/-- The ancestors of an owner can be told by its links. -/
structure Traced (l : Lineage) (o : Nat) : Prop where
  /-- A search that has come to the owner and is not over goes on with an older one. -/
  onward : ∀ d w, l.owners[o]? = some w → d < w.depth →
    ∃ up, l.climb d w = some up ∧ up < o ∧ l.Above up o ∧ d ≤ l.depth up
  /-- It finds the one ancestor of a depth up to that of the owner. -/
  found : ∀ d ≤ l.depth o, ∃ a, l.ancestorAt d o = some a ∧ (l.Descends o a ∧ l.depth a = d) ∧
    ∀ b, l.Descends o b → l.depth b = d → b = a
  missed : ∀ d, l.depth o < d → l.ancestorAt d o = none
  /-- The skip link leads to a proper ancestor; without a parent there is none. -/
  skips : (l.parent? o = none ∧ l.skip? o = none) ∨
    ∃ p s, l.parent? o = some p ∧ l.skip? o = some s ∧ l.Above s o
  /-- No jump that is measured for a fork of the owner leads further down. -/
  jumps : l.depth (l.skipTarget o) ≤ l.depth o ∧
    l.depth (l.skipTarget (l.skipTarget o)) ≤ l.depth (l.skipTarget o)
  /-- The test by depth is passed by the owner itself and its ancestors alone. -/
  includes : ∀ a, l.includes o a ↔ l.Descends o a

/-- In a lineage that was built up from nothing, however long, the ancestors of each owner can
    be told by its links. -/
theorem ancestors_traced (h : l.Built) (ho : o < l.size) : l.Traced o where
  onward _ _ hw hd := h.sound.climb_above hw hd
  found _ hd := h.sound.exists_ancestorAt ho hd
  missed _ hd := h.sound.ancestorAt_eq_none ho hd
  skips := h.sound.skips ho
  jumps := ⟨h.sound.depth_skipTarget_le, h.sound.depth_skipTarget_le⟩
  includes _ := h.sound.includes_iff ho

/-- A first owner and a number of others, each forked off the one before. -/
def chain : Nat → Lineage
  | 0 => empty.addFirst
  | n + 1 => (chain n).addFork n

theorem size_chain (n : Nat) : (chain n).size = n + 1 := by
  induction n with
  | zero => rfl
  | succ n ih => rw [chain, size_addFork, ih]

theorem built_chain (n : Nat) : (chain n).Built := by
  induction n with
  | zero => exact .addFirst .empty
  | succ n ih => exact .addFork ih (by rw [size_chain]; exact Nat.lt_succ_self n)

/-- On the way from the last owner of a chain up to the second one, skip links and links to
    the parents take turns, since the first owner is where the skip links of 7 and 3 lead. -/
theorem ancestors_traced_chain : (chain 14).Built ∧ 14 < (chain 14).size ∧
    ((chain 14).skip? 14 = some 7 ∧ (chain 14).skip? 7 = some 0 ∧
      (chain 14).ancestorAt 1 14 = some 1) ∧ (chain 14).Traced 14 :=
  ⟨built_chain 14, by decide, by decide +kernel, ancestors_traced (built_chain 14) (by decide)⟩

end Ramify.Fork.Lineage
