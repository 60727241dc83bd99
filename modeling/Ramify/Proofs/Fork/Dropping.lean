import Mathlib.Data.Option.Defs
import Ramify.Proofs.Fork.Sharing

/-!
# Giving up a handle

When a handle is dropped, its owner may die, and with it every ancestor that
nobody needs any more; the lists of the dead vanish from the nodes. The living
do not notice: whoever is still in use sees what it saw before
(`Grove.visible_drop`), since its ancestors are needed and so none of them dies
(`Grove.Alive.settle`).
-/

namespace Ramify.Fork.Grove

variable {β κ : Type} {g : Grove β κ} {h k n m o : Nat} {p q : Place}

/-- What becomes of a node when owners outside a set die: it loses lists of
    theirs, and nothing else. -/
structure Lost (A : Finset Nat) (b b' : Node β κ) : Prop where
  label : b'.label = b.label
  link : b'.link = b.link
  sublist : b'.broods.Sublist b.broods
  spared : (b'.broods.filter fun l => l.owner ∈ A) = b.broods.filter fun l => l.owner ∈ A

/-- What becomes of a grove when owners outside a set die. -/
structure Pruned (A : Finset Nat) (g g' : Grove β κ) : Prop where
  lineage : g'.lineage = g.lineage
  roster : g'.roster = g.roster
  estates : g'.estates.size = g.estates.size
  nodes : ∀ n, Option.Rel (Lost A) (g.node? n) (g'.node? n)

section Prune

variable {A B : Finset Nat} {g₁ g₂ : Grove β κ}

theorem Lost.rfl {b : Node β κ} : Lost A b b := ⟨Eq.refl _, Eq.refl _, .refl _, Eq.refl _⟩

theorem Lost.trans {b b₁ b₂ : Node β κ} (h : Lost A b b₁) (h' : Lost B b₁ b₂) (hBA : B ⊆ A) :
    Lost B b b₂ where
  label := h'.label.trans h.label
  link := h'.link.trans h.link
  sublist := h'.sublist.trans h.sublist
  spared := by
    have hfilter : ∀ bs : List Brood, (bs.filter fun l => l.owner ∈ B) =
        (bs.filter fun l => l.owner ∈ A).filter fun l => l.owner ∈ B := by
      intro bs
      rw [List.filter_filter]
      refine List.filter_congr fun l _ => ?_
      by_cases hl : l.owner ∈ B
      · simp [hl, hBA hl]
      · simp [hl]
    rw [h'.spared, hfilter, h.spared, ← hfilter]

theorem Pruned.refl (g : Grove β κ) : Pruned A g g where
  lineage := rfl
  roster := rfl
  estates := rfl
  nodes n := by
    cases g.node? n with
    | none => exact .none
    | some b => exact .some .rfl

theorem Pruned.trans (h : Pruned A g g₁) (h' : Pruned B g₁ g₂) (hBA : B ⊆ A) :
    Pruned B g g₂ where
  lineage := h'.lineage.trans h.lineage
  roster := h'.roster.trans h.roster
  estates := h'.estates.trans h.estates
  nodes n := by
    have h₁ := h.nodes n
    have h₂ := h'.nodes n
    generalize g.node? n = x, g₁.node? n = y, g₂.node? n = z at h₁ h₂ ⊢
    cases h₁ with
    | none => cases h₂; exact .none
    | some hl =>
      cases h₂ with
      | some hl' => exact .some (hl.trans hl' hBA)

theorem Pruned.eraseBrood (ho : o ∉ A) : Pruned A g (eraseBrood o g n) where
  lineage := rfl
  roster := rfl
  estates := rfl
  nodes m := by
    simp only [node?, Grove.eraseBrood, Array.getElem?_modify]
    split
    · cases g.nodes[m]? with
      | none => exact .none
      | some b =>
        refine .some ⟨rfl, rfl, List.filter_sublist, ?_⟩
        rw [List.filter_filter]
        refine List.filter_congr fun l _ => ?_
        by_cases hl : l.owner = o
        · simp [hl, ho]
        · simp [hl]
    · cases g.nodes[m]? with
      | none => exact .none
      | some b => exact .some .rfl

theorem Pruned.release (ho : o ∉ A) : Pruned A g (g.release o) := by
  rw [Grove.release]
  split
  · exact .refl g
  · rename_i e _
    clear * - ho
    induction e.written generalizing g with
    | nil => exact .refl g
    | cons n ns ih => exact (Pruned.eraseBrood ho).trans ih subset_rfl

theorem estates_release : (g.release o).estates = g.estates := by
  rw [Grove.release]
  split
  · rfl
  · rename_i e _
    clear * -
    induction e.written generalizing g with
    | nil => rfl
    | cons n ns ih => exact ih

theorem Pruned.visible (hp : Pruned A g g₁) (hs : ∀ l, g.lineage.includes k l → l ∈ A) :
    g₁.visible k n = g.visible k n := by
  have hn := hp.nodes n
  rw [Grove.visible, Grove.visible, hp.lineage]
  generalize g.node? n = x, g₁.node? n = y at hn ⊢
  cases hn with
  | none => rfl
  | some hl =>
    -- What `k` sees are lists of owners in `A`, and these were spared.
    have hfilter : ∀ bs : List Brood, (bs.filter fun l => g.lineage.includes k l.owner) =
        (bs.filter fun l => l.owner ∈ A).filter fun l => g.lineage.includes k l.owner := by
      intro bs
      rw [List.filter_filter]
      refine List.filter_congr fun l _ => ?_
      by_cases hl : g.lineage.includes k l.owner
      · simp [hl, hs _ hl]
      · simp [hl]
    dsimp only
    rw [hfilter, hl.spared, ← hfilter]

theorem Pruned.label? (hp : Pruned A g g₁) : g₁.label? n = g.label? n := by
  have hn := hp.nodes n
  rw [Grove.label?, Grove.label?]
  generalize g.node? n = x, g₁.node? n = y at hn ⊢
  cases hn with
  | none => rfl
  | some hl => exact congrArg some hl.label

theorem Pruned.link? (hp : Pruned A g g₁) : g₁.link? n = g.link? n := by
  have hn := hp.nodes n
  rw [Grove.link?, Grove.link?]
  generalize g.node? n = x, g₁.node? n = y at hn ⊢
  cases hn with
  | none => rfl
  | some hl => exact hl.link

theorem Pruned.size (hp : Pruned A g g₁) : g₁.nodes.size = g.nodes.size := by
  have hiff : ∀ n, n < g₁.nodes.size ↔ n < g.nodes.size := by
    intro n
    have hn := hp.nodes n
    rw [node?, node?] at hn
    rw [← not_iff_not, Nat.not_lt, Nat.not_lt, ← Array.getElem?_eq_none_iff,
      ← Array.getElem?_eq_none_iff]
    generalize g.nodes[n]? = x, g₁.nodes[n]? = y at hn ⊢
    cases hn <;> simp
  refine Nat.le_antisymm (Nat.le_of_not_lt fun h => ?_) (Nat.le_of_not_lt fun h => ?_)
  · exact Nat.lt_irrefl _ ((hiff _).1 h)
  · exact Nat.lt_irrefl _ ((hiff _).2 h)

/-- The death of an owner that nobody needs is no loss to the living. -/
theorem Alive.erase (ha : g.Alive A) (hp : Pruned (A.erase o) g g₁)
    (hfree : ¬g.roster.isPresent o) (hheirs : g.heirs o = 0)
    (hcount : ∀ k, g₁.heirs k = g.heirs k - if g.lineage.parent? o = some k then 1 else 0)
    (ho : o ∈ A) : g₁.Alive (A.erase o) where
  known k hk := hp.lineage ▸ ha.known k (Finset.mem_of_mem_erase hk)
  present k hk := by
    rw [hp.roster] at hk
    exact Finset.mem_erase.2 ⟨fun e => hfree (e ▸ hk), ha.present k hk⟩
  needed k hk := by
    rw [hcount] at hk
    have hk' : g.heirs k ≠ 0 := by omega
    exact Finset.mem_erase.2 ⟨fun e => hk' (e ▸ hheirs), ha.needed k hk'⟩
  heirs k := by
    rw [hcount, ha.heirs, hp.lineage, Finset.filter_erase]
    split
    · rename_i hpo
      rw [Finset.card_erase_of_mem (Finset.mem_filter.2 ⟨ho, hpo⟩)]
    · rename_i hpo
      rw [Finset.erase_eq_of_notMem (a := o) fun hmem => hpo (Finset.mem_filter.1 hmem).2]
      rfl

theorem heirs_release_modify :
    heirs { g.release o with
      estates := (g.release o).estates.modify m fun e => { e with heirs := e.heirs - 1 } } k =
    g.heirs k - if some m = some k then 1 else 0 := by
  rw [heirs_eq, heirs_eq]
  simp only [estates_release, Array.getElem?_modify, Option.some_inj]
  split
  · cases g.estates[k]? <;> simp
  · rfl

/-- Settling an owner leaves a set of living ones and loses only lists of
    others. -/
theorem Alive.settle (hl : g.lineage.Sound) (ha : g.Alive A) (ho : o ∈ A) :
    ∃ B ⊆ A, (g.settle o).Alive B ∧ Pruned B g (g.settle o) := by
  induction o using Nat.strongRecOn generalizing g A with
  | ind o ih =>
    rw [Grove.settle]
    by_cases hfree : g.roster.isPresent o || g.heirs o != 0
    · rw [if_pos hfree]
      exact ⟨A, subset_rfl, ha, .refl g⟩
    · rw [if_neg hfree]
      simp only [Bool.or_eq_true, bne_iff_ne, ne_eq, not_or, not_not] at hfree
      -- Nobody needs `o` any more. Its parent has an heir less, and may be next.
      have hrel : Pruned (A.erase o) g (g.release o) := .release (Finset.notMem_erase o A)
      cases hp : g.lineage.parent? o with
      | none =>
        refine ⟨A.erase o, Finset.erase_subset o A, ?_, hrel⟩
        refine ha.erase hrel hfree.1 hfree.2 (fun k => ?_) ho
        rw [heirs_eq, heirs_eq, estates_release, hp]
        rfl
      | some p =>
        have hlt := hl.parent_lt hp
        dsimp only
        rw [if_pos hlt]
        have hrel' : Pruned (A.erase o) g { g.release o with
            estates := (g.release o).estates.modify p fun e => { e with heirs := e.heirs - 1 } } :=
          hrel.trans ⟨rfl, rfl, Array.size_modify, (Pruned.refl _).nodes⟩ subset_rfl
        have ha' := ha.erase hrel' hfree.1 hfree.2
          (fun k => by rw [heirs_release_modify, hp]) ho
        have hpA : p ∈ A.erase o :=
          Finset.mem_erase.2 ⟨Nat.ne_of_lt hlt, ha.of_descends ho (.up hp (.self p))⟩
        obtain ⟨B, hB, hBa, hBp⟩ := ih p hlt (by rw [hrel'.lineage]; exact hl) ha' hpA
        exact ⟨B, hB.trans (Finset.erase_subset o A), hBa, hrel'.trans hBp hB⟩

end Prune

section Drop

/-- Dropping a handle: those still in use keep all that they see. -/
theorem Sound.exists_pruned (hs : g.Sound) (hpres : g.roster.isPresent h) :
    ∃ A, (g.drop h).Alive A ∧ Pruned A { g with roster := g.roster.drop h } (g.drop h) := by
  obtain ⟨A, ha⟩ := hs.alive
  rw [Grove.drop, if_pos hpres]
  have ha' : Alive { g with roster := g.roster.drop h } A :=
    ⟨ha.known, fun o ho => ha.present o (Roster.isPresent_drop.1 ho).2, ha.needed, ha.heirs⟩
  obtain ⟨B, -, hB⟩ := Alive.settle (g := { g with roster := g.roster.drop h }) hs.lineage ha'
    (ha.present h hpres)
  exact ⟨B, hB⟩

theorem Sound.drop (hs : g.Sound) (hpres : g.roster.isPresent h) : (g.drop h).Sound := by
  obtain ⟨A, ha, hp⟩ := hs.exists_pruned hpres
  refine ⟨?_, ?_, ?_, ⟨A, ha⟩, ?_, ?_⟩
  · rw [hp.lineage]
    exact hs.lineage
  · rw [hp.lineage, hp.roster]
    exact hs.owners.trans Roster.size_drop.symm
  · rw [hp.estates, hp.roster]
    exact hs.estates.trans Roster.size_drop.symm
  · intro k q hk
    rw [hp.lineage]
    rw [hp.roster] at hk
    exact hs.childless k q (Roster.use_drop.1 hk).2
  · intro n b hb
    have hn : Option.Rel (Lost A) (g.node? n) ((g.drop h).node? n) := hp.nodes n
    rw [hb] at hn
    generalize hx : g.node? n = x at hn
    cases hn with
    | some hl =>
      rw [hp.lineage]
      exact (hs.broods n _ hx).sublist hl.sublist

theorem roster_drop (hs : g.Sound) (hpres : g.roster.isPresent h) :
    (g.drop h).roster = g.roster.drop h := by
  obtain ⟨A, -, hp⟩ := hs.exists_pruned hpres
  exact hp.roster

theorem use_drop (hs : g.Sound) (hpres : g.roster.isPresent h) :
    (g.drop h).roster.use k = .ok q ↔ k ≠ h ∧ g.roster.use k = .ok q := by
  rw [roster_drop hs hpres]
  exact Roster.use_drop

theorem visible_drop (hs : g.Sound) (hpres : g.roster.isPresent h) (hk : g.roster.use k = .ok q)
    (hne : k ≠ h) : (g.drop h).visible k n = g.visible k n := by
  obtain ⟨A, ha, hp⟩ := hs.exists_pruned hpres
  have hkA : k ∈ A := ha.present k (Roster.isPresent_of_use ((use_drop hs hpres).2 ⟨hne, hk⟩))
  refine hp.visible fun l hl => ha.of_descends hkA ?_
  rw [hp.lineage]
  exact (hs.includes_iff hk).1 hl

theorem label?_drop (hs : g.Sound) (hpres : g.roster.isPresent h) :
    (g.drop h).label? n = g.label? n := by
  obtain ⟨A, -, hp⟩ := hs.exists_pruned hpres
  exact hp.label?

theorem link?_drop (hs : g.Sound) (hpres : g.roster.isPresent h) :
    (g.drop h).link? n = g.link? n := by
  obtain ⟨A, -, hp⟩ := hs.exists_pruned hpres
  exact hp.link?

theorem size_drop (hs : g.Sound) (hpres : g.roster.isPresent h) :
    (g.drop h).nodes.size = g.nodes.size := by
  obtain ⟨A, -, hp⟩ := hs.exists_pruned hpres
  exact hp.size

end Drop

end Ramify.Fork.Grove
