import Mathlib.Order.Interval.Finset.Nat
import Ramify.Fork.Grove
import Ramify.Proofs.Fork.Descent
import Ramify.Proofs.Fork.Handles

/-!
# Sharing a grove

What a handle sees of a grove is its own business: no other handle can change
it. This is not plain from the definitions, as all handles write to the same
nodes and the lists of owners that died are taken away. It rests on an
invariant, `Grove.Sound`:

* an owner that is still in use, or that one of its forks needs, is *alive*,
  and the numbers of heirs count the living (`Grove.Alive`);
* a handle that can be used has no forks, so that nobody else sees its lists;
* at every node, the lists of an owner come behind those of its ancestors
  (`Ordered`), so that what an owner adds comes last in what it sees.

Every operation keeps it up, and changes what is seen as follows:

* adding a child appends it for the handle that added it, and for no other
  (`visible_attach_self`, `visible_attach_of_ne`);
* a fork sees what the forked handle saw (`visible_split`, `visible_split_new`).
-/

namespace Ramify.Fork

/-! ### Lists by owner -/

section Broods

variable {l : Lineage} {o c : Nat} {bs : List Brood}

/-- The lists at a node: all owners are known, and no list comes before that of
    an ancestor of its owner, nor before another one of the same owner. -/
structure Ordered (l : Lineage) (bs : List Brood) : Prop where
  known : ∀ b ∈ bs, b.owner < l.size
  ancestors : bs.Pairwise fun x y => ¬l.Descends x.owner y.owner

theorem Ordered.nil : Ordered l [] := ⟨fun _ h => absurd h List.not_mem_nil, .nil⟩

theorem Ordered.sublist {bs' : List Brood} (h : Ordered l bs) (hs : bs'.Sublist bs) :
    Ordered l bs' :=
  ⟨fun b hb => h.known b (hs.subset hb), h.ancestors.sublist hs⟩

namespace Grove

theorem addChild_nil : addChild o c [] = [⟨o, [c]⟩] := rfl

theorem addChild_cons {b : Brood} : addChild o c (b :: bs) =
    if b.owner = o then ⟨o, b.children ++ [c]⟩ :: bs else b :: addChild o c bs := by
  rw [addChild, addChild, extendBrood]
  split
  · rfl
  · cases extendBrood o c bs <;> rfl

theorem owner_of_mem_addChild {b : Brood} (hb : b ∈ addChild o c bs) :
    b.owner = o ∨ ∃ b' ∈ bs, b'.owner = b.owner := by
  induction bs with
  | nil =>
    rw [addChild_nil, List.mem_singleton] at hb
    exact .inl (by rw [hb])
  | cons b' bs ih =>
    rw [addChild_cons] at hb
    split at hb
    · rcases List.mem_cons.1 hb with rfl | hb
      · exact .inl rfl
      · exact .inr ⟨b, List.mem_cons_of_mem _ hb, rfl⟩
    · rcases List.mem_cons.1 hb with rfl | hb
      · exact .inr ⟨b, List.mem_cons_self, rfl⟩
      · rcases ih hb with h | ⟨d, hd, h⟩
        · exact .inl h
        · exact .inr ⟨d, List.mem_cons_of_mem _ hd, h⟩

/-- An owner without forks keeps the order by adding a child. -/
theorem ordered_addChild (h : Ordered l bs) (ho : o < l.size) (hfree : ∀ c, l.parent? c ≠ some o) :
    Ordered l (addChild o c bs) := by
  have hdesc : ∀ x, l.Descends x o → x = o := fun x hx =>
    hx.eq_or_exists_child.resolve_right fun ⟨d, hd⟩ => hfree d hd
  induction bs with
  | nil =>
    rw [addChild_nil]
    exact ⟨by simpa using ho, List.pairwise_singleton _ _⟩
  | cons b bs ih =>
    have htail : Ordered l bs := h.sublist (List.sublist_cons_self b bs)
    rw [addChild_cons]
    split
    · rename_i hb
      refine ⟨?_, ?_⟩
      · rintro d hd
        rcases List.mem_cons.1 hd with rfl | hd
        · exact ho
        · exact htail.known d hd
      · have := List.pairwise_cons.1 h.ancestors
        rw [hb] at this
        exact List.pairwise_cons.2 this
    · rename_i hb
      refine ⟨?_, ?_⟩
      · rintro d hd
        rcases List.mem_cons.1 hd with rfl | hd
        · exact h.known d List.mem_cons_self
        · exact (ih htail).known d hd
      · refine List.pairwise_cons.2 ⟨fun d hd hdb => ?_, (ih htail).ancestors⟩
        rcases owner_of_mem_addChild hd with ho' | ⟨d', hd', heq⟩
        · rw [ho'] at hdb
          exact hb (hdesc _ hdb)
        · exact (List.pairwise_cons.1 h.ancestors).1 d' hd' (heq ▸ hdb)

/-- For whoever sees the lists of `o`, which come last, the child is appended. -/
theorem flatMap_addChild {sees : Nat → Bool} (ho : sees o)
    (hlast : bs.Pairwise fun x y => x.owner = o → ¬sees y.owner) :
    ((addChild o c bs).filter fun b => sees b.owner).flatMap (·.children) =
      (bs.filter fun b => sees b.owner).flatMap (·.children) ++ [c] := by
  induction bs with
  | nil => simp [addChild_nil, ho]
  | cons b bs ih =>
    obtain ⟨hhead, htail⟩ := List.pairwise_cons.1 hlast
    rw [addChild_cons]
    split
    · rename_i hb
      have hnone : (bs.filter fun b => sees b.owner) = [] :=
        List.filter_eq_nil_iff.2 fun y hy => hhead y hy hb
      simp [ho, hb, hnone]
    · by_cases hsees : sees b.owner
      · simp only [List.filter_cons, hsees, if_true, List.flatMap_cons, ih htail,
          List.append_assoc]
      · simp only [List.filter_cons, hsees, Bool.false_eq_true, if_false, ih htail]

/-- Whoever does not see the lists of `o` does not see the child either. -/
theorem filter_addChild {sees : Nat → Bool} (ho : ¬sees o) :
    (addChild o c bs).filter (fun b => sees b.owner) = bs.filter fun b => sees b.owner := by
  induction bs with
  | nil => simp [addChild_nil, ho]
  | cons b bs ih =>
    rw [addChild_cons]
    split
    · rename_i hb
      simp [ho, hb]
    · rw [List.filter_cons, List.filter_cons, ih]

end Grove

end Broods

namespace Grove

variable {β κ : Type} {g : Grove β κ} {h k n m o : Nat} {p q : Place} {label : Label β κ}

/-! ### The invariant -/

/-- The owners of a set are the living ones: it holds all that are in use or
    needed, and heirs are counted by it. -/
structure Alive (g : Grove β κ) (A : Finset Nat) : Prop where
  known : ∀ o ∈ A, o < g.lineage.size
  present : ∀ o, g.roster.isPresent o → o ∈ A
  needed : ∀ o, g.heirs o ≠ 0 → o ∈ A
  heirs : ∀ o, g.heirs o = (A.filter fun c => g.lineage.parent? c = some o).card

/-- The invariant of groves. -/
structure Sound (g : Grove β κ) : Prop where
  lineage : g.lineage.Sound
  owners : g.lineage.size = g.roster.size
  estates : g.estates.size = g.roster.size
  alive : ∃ A, g.Alive A
  childless : ∀ h p, g.roster.use h = .ok p → ∀ c, g.lineage.parent? c ≠ some h
  broods : ∀ n b, g.node? n = some b → Ordered g.lineage b.broods

theorem Sound.lt_lineage (hs : g.Sound) (hu : g.roster.use h = .ok p) : h < g.lineage.size :=
  hs.owners ▸ Roster.lt_size_of_use hu

/-- Nobody but a handle in use descends from it. -/
theorem Sound.eq_of_descends (hs : g.Sound) (hu : g.roster.use h = .ok p)
    (hd : g.lineage.Descends k h) : k = h :=
  hd.eq_or_exists_child.resolve_right fun ⟨c, hc⟩ => hs.childless h p hu c hc

theorem Sound.includes_iff (hs : g.Sound) (hu : g.roster.use h = .ok p) :
    g.lineage.includes h o ↔ g.lineage.Descends h o :=
  hs.lineage.includes_iff (hs.lt_lineage hu)

/-- The ancestors of the living are alive, for they are needed. -/
theorem Alive.of_descends {A : Finset Nat} (ha : g.Alive A) (ho : o ∈ A)
    (hd : g.lineage.Descends o k) : k ∈ A := by
  induction hd with
  | self => exact ho
  | up hp _ ih =>
    refine ih (ha.needed _ ?_)
    rw [ha.heirs, Finset.card_ne_zero]
    exact ⟨_, Finset.mem_filter.2 ⟨ho, hp⟩⟩

theorem visibleCount_eq : g.visibleCount h n = (g.visible h n).length := by
  rw [visibleCount, visible]
  cases g.node? n with
  | none => rfl
  | some b =>
    dsimp only
    rw [List.length_flatMap, List.sum_eq_foldl, List.foldl_map]

theorem sound_empty : (empty : Grove β κ).Sound where
  lineage := .empty
  owners := rfl
  estates := rfl
  alive := ⟨∅, fun o ho => absurd ho (Finset.notMem_empty o),
    fun o hp => absurd (Roster.lt_size_of_isPresent hp) (Nat.not_lt_zero o),
    fun o ho => absurd (by simp [heirs, empty]) ho, fun o => rfl⟩
  childless h p hu := absurd (Roster.lt_size_of_use hu) (Nat.not_lt_zero h)
  broods n b hb := by simp [node?, empty] at hb

/-! ### Nodes -/

theorem node?_attach : (g.attach o m label).node? n =
    if n = g.nodes.size then some ⟨label, some m, [], false⟩
    else if n = m then
      (g.node? n).map fun b => { b with broods := addChild o g.nodes.size b.broods }
    else g.node? n := by
  simp only [node?, attach, Array.getElem?_push, Array.size_modify, Array.getElem?_modify]
  split
  · rfl
  · by_cases hm : n = m
    · rw [if_pos hm.symm, if_pos hm]
    · rw [if_neg (Ne.symm hm), if_neg hm]

@[simp] theorem size_attach : (g.attach o m label).nodes.size = g.nodes.size + 1 := by
  simp [attach]

theorem label?_attach : (g.attach o m label).label? n =
    if n = g.nodes.size then some label else g.label? n := by
  rw [label?, node?_attach]
  split
  · rfl
  · split
    · rw [Option.map_map]; rfl
    · rfl

theorem link?_attach : (g.attach o m label).link? n =
    if n = g.nodes.size then some m else g.link? n := by
  rw [link?, node?_attach]
  split
  · rfl
  · split
    · rw [Option.bind_map]; rfl
    · rfl

theorem heirs_eq : g.heirs k = g.estates[k]?.elim 0 (·.heirs) := by
  rw [heirs]
  cases g.estates[k]? <;> rfl

theorem heirs_attach : (g.attach o m label).heirs k = g.heirs k := by
  rw [heirs_eq, heirs_eq, attach]
  dsimp only
  split
  · rfl
  · rw [Array.getElem?_modify]
    split
    · cases g.estates[k]? <;> rfl
    · rfl

/-! ### Planting -/

theorem node?_plant : (g.plant label).node? n =
    if n = g.nodes.size then some ⟨label, none, [], false⟩ else g.node? n := by
  simp only [node?, plant, Array.getElem?_push]

theorem heirs_plant : (g.plant label).heirs k = g.heirs k := by
  rw [heirs_eq, heirs_eq, plant, Array.getElem?_push]
  split
  · rename_i hk
    rw [hk, Array.getElem?_eq_none (Nat.le_refl _)]
    rfl
  · rfl

/-- A new owner is alive, and nobody descends from it. -/
theorem Alive.plant {A : Finset Nat} (hs : g.Sound) (ha : g.Alive A) :
    (g.plant label).Alive (insert g.lineage.size A) where
  known o ho := by
    change o < g.lineage.addFirst.size
    rw [Lineage.size_addFirst]
    rcases Finset.mem_insert.1 ho with rfl | ho
    · exact Nat.lt_succ_self _
    · exact Nat.lt_succ_of_lt (ha.known o ho)
  present o ho := by
    rcases Roster.isPresent_add.1 ho with rfl | ho
    · exact hs.owners ▸ Finset.mem_insert_self _ A
    · exact Finset.mem_insert_of_mem (ha.present o ho)
  needed o ho := Finset.mem_insert_of_mem (ha.needed o (heirs_plant ▸ ho))
  heirs o := by
    have hnone : g.lineage.addFirst.parent? g.lineage.size ≠ some o := by
      rw [Lineage.parent?_addFirst, if_pos rfl]
      exact fun h => nomatch h
    change (g.plant label).heirs o =
      ((insert g.lineage.size A).filter fun c => g.lineage.addFirst.parent? c = some o).card
    rw [heirs_plant, ha.heirs, Finset.filter_insert, if_neg hnone]
    refine congrArg Finset.card (Finset.filter_congr fun c hc => ?_)
    rw [Lineage.parent?_addFirst, if_neg (Nat.ne_of_lt (ha.known c hc))]

theorem Sound.plant (hs : g.Sound) : (g.plant label).Sound where
  lineage := hs.lineage.addFirst
  owners := by
    change g.lineage.addFirst.size = (g.roster.add _).size
    rw [Lineage.size_addFirst, Roster.size_add, hs.owners]
  estates := by
    change (g.estates.push _).size = (g.roster.add _).size
    rw [Array.size_push, Roster.size_add, hs.estates]
  alive := by
    obtain ⟨A, ha⟩ := hs.alive
    exact ⟨_, ha.plant hs⟩
  childless h p hu c := by
    change g.lineage.addFirst.parent? c ≠ some h
    rw [Lineage.parent?_addFirst]
    split
    · exact fun h => nomatch h
    · intro hc
      rcases Roster.use_add.1 hu with ⟨rfl, -⟩ | hu
      · have := hs.lineage.parent_lt hc
        have := Lineage.lt_size_of_parent? hc
        have := hs.owners
        omega
      · exact hs.childless h p hu c hc
  broods n b hb := by
    rw [node?_plant] at hb
    split at hb
    · cases hb; exact .nil
    · obtain ⟨hknown, hanc⟩ := hs.broods n b hb
      refine ⟨fun x hx => ?_, hanc.imp_of_mem fun hx _ hxy hd => hxy ?_⟩
      · change x.owner < g.lineage.addFirst.size
        rw [Lineage.size_addFirst]
        exact Nat.lt_succ_of_lt (hknown x hx)
      · exact (hs.lineage.descends_addFirst (hknown _ hx)).1 hd

/-! ### Adding a child -/

/-- A new node has no children yet. -/
theorem visible_attach_size : (g.attach o m label).visible k g.nodes.size = [] := by
  rw [visible, node?_attach, if_pos rfl]
  rfl

theorem visible_attach_of_ne (hn : n ≠ m) (hlt : n < g.nodes.size) :
    (g.attach o m label).visible k n = g.visible k n := by
  rw [visible, visible, node?_attach, if_neg (Nat.ne_of_lt hlt), if_neg hn]
  rfl

section Attach

variable (hs : g.Sound) (hu : g.roster.use h = .ok p)

include hs hu

theorem Sound.attach : (g.attach h m label).Sound where
  lineage := hs.lineage
  owners := hs.owners
  estates := by
    change (if _ then _ else _ : Array Estate).size = g.roster.size
    split
    · exact hs.estates
    · rw [Array.size_modify]; exact hs.estates
  alive := by
    obtain ⟨A, ha⟩ := hs.alive
    exact ⟨A, ha.known, ha.present, fun o ho => ha.needed o (heirs_attach ▸ ho),
      fun o => heirs_attach.trans (ha.heirs o)⟩
  childless := hs.childless
  broods n b hb := by
    rw [node?_attach] at hb
    split at hb
    · cases hb; exact .nil
    · split at hb
      · obtain ⟨b', hb', rfl⟩ := Option.map_eq_some_iff.1 hb
        exact ordered_addChild (hs.broods n b' hb') (hs.lt_lineage hu) (hs.childless h p hu)
      · exact hs.broods n b hb

theorem visible_attach_self (hm : m < g.nodes.size) :
    (g.attach h m label).visible h m = g.visible h m ++ [g.nodes.size] := by
  have hnode : g.node? m = some g.nodes[m] := Array.getElem?_eq_getElem hm
  rw [visible, visible, node?_attach, if_neg (Nat.ne_of_lt hm), if_pos rfl, hnode]
  refine flatMap_addChild ((hs.includes_iff hu).2 (.self h)) ?_
  -- What `h` sees are the lists of its ancestors, which all come before its own.
  refine (hs.broods m _ hnode).ancestors.imp fun hxy hx hy => hxy ?_
  rw [hx]
  exact (hs.includes_iff hu).1 hy

/-- No other handle in use sees the child. -/
theorem visible_attach_of_use (hk : g.roster.use k = .ok q) (hne : k ≠ h)
    (hlt : n < g.nodes.size) : (g.attach h m label).visible k n = g.visible k n := by
  by_cases hn : n = m
  · rw [visible, visible, node?_attach, if_neg (Nat.ne_of_lt hlt), if_pos hn]
    cases hnode : g.node? n with
    | none => rfl
    | some b =>
      have hblind : ¬g.lineage.includes k h := fun hi =>
        hne (hs.eq_of_descends hu ((hs.includes_iff hk).1 hi))
      simp only [Option.map_some]
      rw [← filter_addChild hblind]
      rfl
  · exact visible_attach_of_ne hn hlt

end Attach

/-! ### Moving the marker -/

theorem Sound.mark (hs : g.Sound) : (g.mark h n).Sound where
  lineage := hs.lineage
  owners := hs.owners.trans Roster.size_update.symm
  estates := hs.estates.trans Roster.size_update.symm
  alive := by
    obtain ⟨A, ha⟩ := hs.alive
    exact ⟨A, ha.known, fun o ho => ha.present o (Roster.isPresent_update.1 ho), ha.needed,
      ha.heirs⟩
  childless k q hk := by
    obtain ⟨a, ha, -⟩ := Roster.use_update.1 hk
    exact hs.childless k a ha
  broods := hs.broods

/-! ### Forking -/

section Forks

variable {l : Lineage} {count a : Nat}

@[simp] theorem size_addForks : (addForks o count l).size = l.size + count := by
  induction count generalizing l with
  | zero => rfl
  | succ count ih => rw [addForks, ih, Lineage.size_addFork]; omega

theorem sound_addForks (hl : l.Sound) (ho : o < l.size) : (addForks o count l).Sound := by
  induction count generalizing l with
  | zero => exact hl
  | succ count ih => exact ih (hl.addFork ho) (by rw [Lineage.size_addFork]; omega)

theorem parent?_addForks : (addForks o count l).parent? k =
    if l.size ≤ k ∧ k < l.size + count then some o else l.parent? k := by
  induction count generalizing l with
  | zero => rw [if_neg (by omega), addForks]
  | succ count ih =>
    rw [addForks, ih, Lineage.size_addFork, Lineage.parent?_addFork]
    by_cases hk : k = l.size
    · subst hk
      rw [if_neg (by omega), if_pos rfl, if_pos ⟨Nat.le_refl _, by omega⟩]
    · rw [if_neg hk]
      by_cases h' : l.size + 1 ≤ k ∧ k < l.size + 1 + count
      · rw [if_pos h', if_pos (by omega)]
      · rw [if_neg h', if_neg (by omega)]

theorem descends_addForks (hl : l.Sound) (ho : o < l.size) (hk : k < l.size) :
    (addForks o count l).Descends k a ↔ l.Descends k a := by
  induction count generalizing l with
  | zero => rfl
  | succ count ih =>
    rw [addForks, ih (hl.addFork ho) (by rw [Lineage.size_addFork]; omega)
      (by rw [Lineage.size_addFork]; omega), hl.descends_addFork hk]

/-- A fork descends from itself and from whomever the forked owner does. -/
theorem descends_fork (hl : l.Sound) (ho : o < l.size) (h₁ : l.size ≤ k)
    (h₂ : k < l.size + count) :
    (addForks o count l).Descends k a ↔ a = k ∨ l.Descends o a := by
  have hlink : (addForks o count l).parent? k = some o := by
    rw [parent?_addForks, if_pos ⟨h₁, h₂⟩]
  constructor
  · intro h
    rcases h.eq_or_parent with rfl | ⟨q, hq, h⟩
    · exact .inl rfl
    · rw [hlink] at hq
      cases hq
      exact .inr ((descends_addForks hl ho ho).1 h)
  · rintro (rfl | h)
    · exact .self _
    · exact .up hlink ((descends_addForks hl ho ho).2 h)

end Forks

section Split

variable {count : Nat} (hs : g.Sound) (hu : g.roster.use h = .ok p)

theorem split_fst (hu : g.roster.use h = .ok p) :
    (g.split h count).1 = List.range' g.roster.size count := by
  rw [split, Roster.split_of_use hu]

theorem roster_split : (g.split h count).2.roster = (g.roster.split h count).2 := rfl

theorem lineage_split (hu : g.roster.use h = .ok p) :
    (g.split h count).2.lineage = addForks h count g.lineage := by
  simp [split, Roster.split_of_use hu]

theorem node?_split : (g.split h count).2.node? n = g.node? n := rfl

include hs hu

theorem heirs_split :
    (g.split h count).2.heirs k = g.heirs k + if k = h then count else 0 := by
  have hh : h < g.estates.size := hs.estates ▸ Roster.lt_size_of_use hu
  rw [heirs_eq, heirs_eq]
  simp only [split, Roster.split_of_use hu, List.length_range', Array.getElem?_append,
    Array.size_modify, Array.getElem?_modify]
  by_cases hk : k < g.estates.size
  · rw [if_pos hk]
    by_cases hkh : h = k
    · subst hkh
      simp [hk]
    · simp [hkh, Ne.symm hkh]
  · rw [if_neg hk, if_neg fun e : k = h => hk (e ▸ hh),
      Array.getElem?_eq_none (Nat.le_of_not_lt hk), Array.getElem?_replicate]
    split <;> rfl

theorem Alive.split {A : Finset Nat} (ha : g.Alive A) :
    (g.split h count).2.Alive (A ∪ Finset.Ico g.lineage.size (g.lineage.size + count)) where
  known o ho := by
    rw [lineage_split hu, size_addForks]
    rcases Finset.mem_union.1 ho with ho | ho
    · exact Nat.lt_add_right _ (ha.known o ho)
    · exact (Finset.mem_Ico.1 ho).2
  present o ho := by
    rw [roster_split, Roster.isPresent_split hu, ← hs.owners] at ho
    rcases ho with ho | ho
    · exact Finset.mem_union_right _ (Finset.mem_Ico.2 ho)
    · exact Finset.mem_union_left _ (ha.present o ho)
  needed o ho := by
    refine Finset.mem_union_left _ ?_
    rw [heirs_split hs hu] at ho
    by_cases h' : o = h
    · exact h' ▸ ha.present h (Roster.isPresent_of_use hu)
    · rw [if_neg h'] at ho
      exact ha.needed o ho
  heirs o := by
    -- The heirs of an owner are those it had, and if it is the one that is forked,
    -- the forks.
    have hdisj : Disjoint A (Finset.Ico g.lineage.size (g.lineage.size + count)) :=
      Finset.disjoint_left.2 fun c hc hc' => by
        have := ha.known c hc
        have := (Finset.mem_Ico.1 hc').1
        omega
    rw [heirs_split hs hu, ha.heirs, Finset.filter_union,
      Finset.card_union_of_disjoint (Finset.disjoint_filter_filter hdisj), lineage_split hu]
    congr 1
    · refine congrArg Finset.card (Finset.filter_congr fun c hc => ?_)
      have := ha.known c hc
      rw [parent?_addForks, if_neg (by omega)]
    · have hnew : ∀ c ∈ Finset.Ico g.lineage.size (g.lineage.size + count),
          ((addForks h count g.lineage).parent? c = some o ↔ o = h) := fun c hc => by
        rw [parent?_addForks, if_pos (Finset.mem_Ico.1 hc), Option.some_inj, eq_comm]
      rw [Finset.filter_congr hnew]
      by_cases h' : o = h
      · simp [h']
      · simp [h']

theorem Sound.split : (g.split h count).2.Sound where
  lineage := by
    rw [lineage_split hu]
    exact sound_addForks hs.lineage (hs.lt_lineage hu)
  owners := by
    rw [lineage_split hu, size_addForks, roster_split, Roster.size_split hu, hs.owners]
  estates := by
    rw [roster_split, Roster.size_split hu, ← hs.estates]
    simp [Grove.split, Roster.split_of_use hu]
  alive := by
    obtain ⟨A, ha⟩ := hs.alive
    exact ⟨_, ha.split hs hu⟩
  childless k q hk c := by
    rw [lineage_split hu, parent?_addForks]
    rw [roster_split, Roster.use_split hu, ← hs.owners] at hk
    rcases hk with ⟨hk, -, -⟩ | ⟨hne, hk⟩
    · split
      · have := hs.lt_lineage hu
        rintro ⟨⟩
        omega
      · intro hc
        have := hs.lineage.parent_lt hc
        have := Lineage.lt_size_of_parent? hc
        omega
    · split
      · rintro ⟨⟩
        exact hne rfl
      · exact hs.childless k q hk c
  broods n b hb := by
    obtain ⟨hknown, hanc⟩ := hs.broods n b hb
    rw [lineage_split hu]
    refine ⟨fun x hx => by rw [size_addForks]; exact Nat.lt_add_right _ (hknown x hx), ?_⟩
    refine hanc.imp_of_mem fun hx hy hxy hd => hxy ?_
    exact (descends_addForks hs.lineage (hs.lt_lineage hu) (hknown _ hx)).1 hd

/-- Forking does not change what any handle sees. -/
theorem visible_split (hk : k < g.roster.size) :
    (g.split h count).2.visible k n = g.visible k n := by
  rw [visible, visible, node?_split, lineage_split hu]
  cases hb : g.node? n with
  | none => rfl
  | some b =>
    have hl : (addForks h count g.lineage).Sound := sound_addForks hs.lineage (hs.lt_lineage hu)
    rw [← hs.owners] at hk
    refine congrArg (List.flatMap _) (List.filter_congr fun x _ => ?_)
    rw [Bool.eq_iff_iff, hl.includes_iff (by rw [size_addForks]; omega),
      hs.lineage.includes_iff hk, descends_addForks hs.lineage (hs.lt_lineage hu) hk]

/-- A fork sees what the forked handle saw. -/
theorem visible_split_new (h₁ : g.roster.size ≤ k) (h₂ : k < g.roster.size + count) :
    (g.split h count).2.visible k n = g.visible h n := by
  rw [visible, visible, node?_split, lineage_split hu]
  cases hb : g.node? n with
  | none => rfl
  | some b =>
    have hl : (addForks h count g.lineage).Sound := sound_addForks hs.lineage (hs.lt_lineage hu)
    rw [← hs.owners] at h₁ h₂
    refine congrArg (List.flatMap _) (List.filter_congr fun x hx => ?_)
    have hxk : x.owner ≠ k := by
      have := (hs.broods n b hb).known x hx
      omega
    rw [Bool.eq_iff_iff, hl.includes_iff (by rw [size_addForks]; omega), hs.includes_iff hu,
      descends_fork hs.lineage (hs.lt_lineage hu) h₁ h₂]
    exact or_iff_right hxk

end Split

end Grove

end Ramify.Fork
