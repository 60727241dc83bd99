import Ramify.Fork.Lineage

/-!
# Who descends from whom

The descent of owners, read off the links to the parents (`Lineage.Descends`),
and the search along the skip links that decides it.

* `ancestorAt_eq_some_iff`: in a sound lineage the search finds, for every
  depth, the one ancestor that has it;
* `includes_iff`: so the test by depth tells exactly who the ancestors are;
* `Sound.addFirst`, `Sound.addFork`: lineages stay sound as they grow, since
  a skip link is put together from two skip links above it.
-/

namespace Ramify.Fork.Lineage

variable {l : Lineage} {o p a b : Nat} {w : Owner}

/-- `a` is `o` or one of its ancestors, as the links to the parents have it. -/
inductive Descends (l : Lineage) : Nat → Nat → Prop
  | self (o : Nat) : Descends l o o
  | up {o p a : Nat} : l.parent? o = some p → Descends l p a → Descends l o a

/-- What holds of the links of an owner: its parent is older and one step less
    deep, and its skip link leads to the parent or further up. -/
structure Placed (l : Lineage) (o : Nat) (w : Owner) : Prop where
  first : w.parent = none → w.depth = 0 ∧ w.skip = none
  later : ∀ p, w.parent = some p →
    p < o ∧ w.depth = l.depth p + 1 ∧ ∃ s, w.skip = some s ∧ l.Descends p s

/-- A lineage all of whose owners are placed. -/
def Sound (l : Lineage) : Prop := ∀ o w, l.owners[o]? = some w → l.Placed o w

theorem parent?_eq_some_iff :
    l.parent? o = some p ↔ ∃ w, l.owners[o]? = some w ∧ w.parent = some p := by
  simp [parent?, Option.bind_eq_some_iff]

theorem lt_size_of_parent? (h : l.parent? o = some p) : o < l.size := by
  obtain ⟨w, hw, -⟩ := parent?_eq_some_iff.1 h
  exact (Array.getElem?_eq_some_iff.1 hw).1

theorem depth_eq (hw : l.owners[o]? = some w) : l.depth o = w.depth := by
  rw [depth, hw]

namespace Descends

theorem trans (h : l.Descends o p) (h' : l.Descends p a) : l.Descends o a := by
  induction h with
  | self => exact h'
  | up hp _ ih => exact .up hp (ih h')

/-- Whoever descends from another owner has a parent, and the last step up
    leads to that owner. -/
theorem eq_or_exists_child (h : l.Descends o a) : o = a ∨ ∃ c, l.parent? c = some a := by
  induction h with
  | self => exact .inl rfl
  | up hp _ ih =>
    rcases ih with rfl | hc
    · exact .inr ⟨_, hp⟩
    · exact .inr hc

theorem eq_or_parent (h : l.Descends o a) : o = a ∨ ∃ p, l.parent? o = some p ∧ l.Descends p a := by
  cases h with
  | self => exact .inl rfl
  | up hp h => exact .inr ⟨_, hp, h⟩

end Descends

namespace Sound

variable (hl : l.Sound)

include hl

theorem parent_lt (h : l.parent? o = some p) : p < o := by
  obtain ⟨w, hw, hp⟩ := parent?_eq_some_iff.1 h
  exact ((hl o w hw).later p hp).1

theorem depth_parent (h : l.parent? o = some p) : l.depth o = l.depth p + 1 := by
  obtain ⟨w, hw, hp⟩ := parent?_eq_some_iff.1 h
  rw [depth_eq hw, ((hl o w hw).later p hp).2.1]

theorem le (h : l.Descends o a) : a ≤ o := by
  induction h with
  | self => exact Nat.le_refl _
  | up hp _ ih => exact Nat.le_trans ih (Nat.le_of_lt (hl.parent_lt hp))

theorem depth_le (h : l.Descends o a) : l.depth a ≤ l.depth o := by
  induction h with
  | self => exact Nat.le_refl _
  | up hp _ ih => rw [hl.depth_parent hp]; exact Nat.le_succ_of_le ih

/-- Of two ancestors the deeper one descends from the other. -/
theorem descends_of_depth_le (ha : l.Descends o a) (hb : l.Descends o b)
    (h : l.depth a ≤ l.depth b) : l.Descends b a := by
  induction hb with
  | self => exact ha
  | up hp hb ih =>
    rcases ha.eq_or_parent with rfl | ⟨q, hq, ha⟩
    · have := hl.depth_le hb
      have := hl.depth_parent hp
      omega
    · rw [hp] at hq
      exact ih (Option.some.inj hq ▸ ha) h

/-- Ancestors of the same depth are the same. -/
theorem eq_of_depth_eq (ha : l.Descends o a) (hb : l.Descends o b)
    (h : l.depth a = l.depth b) : a = b :=
  Nat.le_antisymm (hl.le (hl.descends_of_depth_le ha hb (Nat.le_of_eq h)))
    (hl.le (hl.descends_of_depth_le hb ha (Nat.le_of_eq h.symm)))

/-! ### The search for an ancestor -/

/-- A step of the search leads up, but not beyond the depth that is wanted. -/
theorem climb (hw : l.owners[o]? = some w) {d : Nat} (hd : d < w.depth) :
    ∃ up, l.climb d w = some up ∧ up < o ∧ l.Descends o up ∧ d ≤ l.depth up := by
  cases hp : w.parent with
  | none =>
    have := ((hl o w hw).first hp).1
    omega
  | some p =>
    obtain ⟨hlt, hdepth, s, hs, hps⟩ := (hl o w hw).later p hp
    have hop : l.parent? o = some p := parent?_eq_some_iff.2 ⟨w, hw, hp⟩
    rw [Lineage.climb, hs]
    by_cases h : d ≤ l.depth s
    · exact ⟨s, if_pos h, Nat.lt_of_le_of_lt (hl.le hps) hlt, .up hop hps, h⟩
    · exact ⟨p, (if_neg h).trans hp, hlt, .up hop (.self p), by omega⟩

/-- The search finds the ancestor of a depth, and nothing if there is none. -/
theorem ancestorAt_eq_some_iff {d : Nat} (ho : o < l.size) :
    l.ancestorAt d o = some a ↔ l.Descends o a ∧ l.depth a = d := by
  induction o using Nat.strongRecOn with
  | ind o ih =>
    obtain ⟨w, hw⟩ : ∃ w, l.owners[o]? = some w := ⟨_, Array.getElem?_eq_getElem ho⟩
    rw [ancestorAt, hw]
    dsimp only
    split
    · rename_i hlt
      refine ⟨fun h => (nomatch h), fun ⟨h, hd⟩ => ?_⟩
      have := hl.depth_le h
      have := depth_eq hw
      omega
    · split
      · rename_i heq
        constructor
        · rintro h
          cases h
          exact ⟨.self _, (depth_eq hw).trans heq⟩
        · rintro ⟨h, hd⟩
          rw [hl.eq_of_depth_eq h (.self o) (hd.trans (heq.symm.trans (depth_eq hw).symm))]
      · -- The step does not pass by the ancestor, which is above `up` as well then.
        obtain ⟨up, hup, hlt, hdesc, hdle⟩ := hl.climb hw (d := d) (by omega)
        rw [hup]
        dsimp only
        rw [if_pos hlt, ih up hlt (Nat.lt_trans hlt ho)]
        constructor
        · rintro ⟨h, hd⟩
          exact ⟨hdesc.trans h, hd⟩
        · rintro ⟨h, hd⟩
          exact ⟨hl.descends_of_depth_le h hdesc (by omega), hd⟩

/-- The test by depth tells who the ancestors of an owner are. -/
theorem includes_iff (ho : o < l.size) : l.includes o a ↔ l.Descends o a := by
  rw [includes, beq_iff_eq, hl.ancestorAt_eq_some_iff ho]
  exact and_iff_left rfl

end Sound

/-! ### Growing -/

theorem getElem?_addFork : (l.addFork p).owners[o]? =
    if o = l.size then some ⟨l.depth p + 1, some p, some (l.skipFrom p)⟩ else l.owners[o]? := by
  rw [addFork, Array.getElem?_push, size]

theorem getElem?_addFirst : l.addFirst.owners[o]? =
    if o = l.size then some ⟨0, none, none⟩ else l.owners[o]? := by
  rw [addFirst, Array.getElem?_push, size]

@[simp] theorem size_empty : empty.size = 0 := rfl

@[simp] theorem size_addFirst : l.addFirst.size = l.size + 1 := by simp [addFirst, size]

@[simp] theorem size_addFork : (l.addFork p).size = l.size + 1 := by simp [addFork, size]

theorem parent?_addFork :
    (l.addFork p).parent? o = if o = l.size then some p else l.parent? o := by
  rw [parent?, getElem?_addFork]
  split <;> rfl

theorem parent?_addFirst : l.addFirst.parent? o = if o = l.size then none else l.parent? o := by
  rw [parent?, getElem?_addFirst]
  split <;> rfl

theorem depth_addFork (ho : o < l.size) : (l.addFork p).depth o = l.depth o := by
  rw [depth, depth, getElem?_addFork, if_neg (Nat.ne_of_lt ho)]

theorem depth_addFirst (ho : o < l.size) : l.addFirst.depth o = l.depth o := by
  rw [depth, depth, getElem?_addFirst, if_neg (Nat.ne_of_lt ho)]

theorem Sound.empty : Lineage.empty.Sound := by
  intro o w h
  simp [Lineage.empty] at h

/-- The links of owners that are there do not change. -/
theorem Sound.descends_addFork (hl : l.Sound) (ho : o < l.size) :
    (l.addFork p).Descends o a ↔ l.Descends o a := by
  constructor
  · intro h
    induction h with
    | self => exact .self _
    | up hp _ ih =>
      rw [parent?_addFork, if_neg (Nat.ne_of_lt ho)] at hp
      exact .up hp (ih (Nat.lt_trans (hl.parent_lt hp) ho))
  · intro h
    induction h with
    | self => exact .self _
    | up hp _ ih =>
      refine .up ?_ (ih (Nat.lt_trans (hl.parent_lt hp) ho))
      rw [parent?_addFork, if_neg (Nat.ne_of_lt ho), hp]

theorem Sound.descends_addFirst (hl : l.Sound) (ho : o < l.size) :
    l.addFirst.Descends o a ↔ l.Descends o a := by
  constructor
  · intro h
    induction h with
    | self => exact .self _
    | up hp _ ih =>
      rw [parent?_addFirst, if_neg (Nat.ne_of_lt ho)] at hp
      exact .up hp (ih (Nat.lt_trans (hl.parent_lt hp) ho))
  · intro h
    induction h with
    | self => exact .self _
    | up hp _ ih =>
      refine .up ?_ (ih (Nat.lt_trans (hl.parent_lt hp) ho))
      rw [parent?_addFirst, if_neg (Nat.ne_of_lt ho), hp]

/-- A skip target is an ancestor. -/
theorem Sound.descends_skipTarget (hl : l.Sound) : l.Descends o (l.skipTarget o) := by
  rw [skipTarget]
  split
  · rename_i s hs
    obtain ⟨w, hw, hs⟩ := Option.bind_eq_some_iff.1 hs
    cases hp : w.parent with
    | none =>
      rw [((hl o w hw).first hp).2] at hs
      cases hs
    | some p =>
      obtain ⟨-, -, t, ht, hpt⟩ := (hl o w hw).later p hp
      rw [ht] at hs
      cases hs
      exact .up (parent?_eq_some_iff.2 ⟨w, hw, hp⟩) hpt
  · exact .self o

theorem Sound.descends_skipFrom (hl : l.Sound) : l.Descends p (l.skipFrom p) := by
  rw [skipFrom]
  split
  · exact hl.descends_skipTarget.trans hl.descends_skipTarget
  · exact .self p

theorem Sound.addFirst (hl : l.Sound) : l.addFirst.Sound := by
  intro o w hw
  rw [getElem?_addFirst] at hw
  split at hw
  · cases hw
    exact ⟨fun _ => ⟨rfl, rfl⟩, fun p hp => nomatch hp⟩
  · have ho : o < l.size := (Array.getElem?_eq_some_iff.1 hw).1
    refine ⟨(hl o w hw).first, fun p hp => ?_⟩
    obtain ⟨hlt, hd, s, hs, hps⟩ := (hl o w hw).later p hp
    have hp' : p < l.size := Nat.lt_trans hlt ho
    exact ⟨hlt, by rw [hd, depth_addFirst hp'], s, hs, (hl.descends_addFirst hp').2 hps⟩

theorem Sound.addFork (hl : l.Sound) (hp : p < l.size) : (l.addFork p).Sound := by
  intro o w hw
  rw [getElem?_addFork] at hw
  split at hw
  · rename_i ho
    cases hw
    refine ⟨fun h => (nomatch h), fun q hq => ?_⟩
    cases hq
    exact ⟨ho ▸ hp, by rw [depth_addFork hp], _, rfl,
      (hl.descends_addFork hp).2 hl.descends_skipFrom⟩
  · have ho : o < l.size := (Array.getElem?_eq_some_iff.1 hw).1
    refine ⟨(hl o w hw).first, fun q hq => ?_⟩
    obtain ⟨hlt, hd, s, hs, hps⟩ := (hl o w hw).later q hq
    have hq' : q < l.size := Nat.lt_trans hlt ho
    exact ⟨hlt, by rw [hd, depth_addFork hq'], s, hs, (hl.descends_addFork hq').2 hps⟩

end Ramify.Fork.Lineage
