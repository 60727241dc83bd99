import Mathlib.Logic.Relation
import Ramify.Proofs.Fork.Private

/-!
# All that a handle sees

The limbs of a handle make up one view, where each is the last child of the one
above it (`View.ofLimbs`). That is what the handle sees from its root:

* `Holds.outline`: listed in preorder, the nodes carry the labels of the view;
* `Holds.descend?`: counting children from the root downwards, one gets to the
  marker along the limbs;
* `Holds.every`: apart from the branches that the marker is seen from, all
  that are seen belong to the children of limbs;
* `Holds.parent`: the branch above the marker lives, so that moving up never
  misses it.
-/

namespace Ramify.Fork

variable {β κ : Type}

namespace View

mutual

/-- What the nodes of a view carry, each before its children, with their depths. -/
def outline (d : Nat) : View β κ → List (Nat × Label β κ)
  | branch data vs => (d, .branch data) :: outlines (d + 1) vs
  | leaf k => [(d, .leaf k)]

/-- The same for several views. -/
def outlines (d : Nat) : List (View β κ) → List (Nat × Label β κ)
  | [] => []
  | v :: vs => outline d v ++ outlines d vs

end

mutual

/-- What the leaves of a view carry, from left to right. -/
def leaves : View β κ → List κ
  | branch _ vs => leavesOf vs
  | leaf k => [k]

/-- The same for several views. -/
def leavesOf : List (View β κ) → List κ
  | [] => []
  | v :: vs => leaves v ++ leavesOf vs

end

/-- A limb with all above it: each is the last child of the next one. -/
def ofLimbs (l : Limb β κ) : List (Limb β κ) → View β κ
  | [] => l.close
  | above :: ls => ofLimbs (above.add l.close) ls

/-- All branches of some views have a property, given how many children they
    have. -/
inductive Every (P : β → Nat → Prop) : List (View β κ) → Prop
  | nil : Every P []
  | leaf {k : κ} {vs : List (View β κ)} : Every P vs → Every P (.leaf k :: vs)
  | branch {d : β} {us vs : List (View β κ)} : P d us.length → Every P us → Every P vs →
    Every P (.branch d us :: vs)

variable {l : Limb β κ} {vs us : List (View β κ)} {v : View β κ}

theorem leavesOf_append : leavesOf (vs ++ us) = leavesOf vs ++ leavesOf us := by
  induction vs with
  | nil => rfl
  | cons v vs ih => rw [List.cons_append, leavesOf, leavesOf, ih, List.append_assoc]

/-- A child of the innermost limb comes after all else. -/
theorem leaves_ofLimbs_add (l : Limb β κ) (v : View β κ) (ls : List (Limb β κ)) :
    (ofLimbs (l.add v) ls).leaves = (ofLimbs l ls).leaves ++ v.leaves := by
  induction ls generalizing l v with
  | nil =>
    rw [ofLimbs, ofLimbs, Limb.close, Limb.close, leaves, leaves, Limb.add, leavesOf_append,
      leavesOf, leavesOf, List.append_nil]
  | cons above ls ih =>
    have hclose : ∀ l : Limb β κ, l.close.leaves = leavesOf l.children := fun l => by
      rw [Limb.close, leaves]
    rw [ofLimbs, ofLimbs, ih, ih, List.append_assoc, hclose, hclose, Limb.add, leavesOf_append,
      leavesOf, leavesOf, List.append_nil]

mutual

/-- The leaves of a view are those in its outline. -/
theorem flatMap_outline {γ : Type} (f : Label β κ → List γ) (hf : ∀ b, f (.branch b) = []) :
    ∀ (v : View β κ) (d : Nat), (v.outline d).flatMap (f ·.2) = v.leaves.flatMap (f <| .leaf ·)
  | branch data vs, d => by
    rw [outline, leaves, List.flatMap_cons, hf, List.nil_append, flatMap_outlines f hf]
  | leaf k, d => by
    rw [outline, leaves, List.flatMap_singleton, List.flatMap_singleton]

theorem flatMap_outlines {γ : Type} (f : Label β κ → List γ) (hf : ∀ b, f (.branch b) = []) :
    ∀ (vs : List (View β κ)) (d : Nat),
      (outlines d vs).flatMap (f ·.2) = (leavesOf vs).flatMap (f <| .leaf ·)
  | [], d => rfl
  | v :: vs, d => by
    rw [outlines, leavesOf, List.flatMap_append, List.flatMap_append, flatMap_outline f hf,
      flatMap_outlines f hf]

end

end View

namespace Grove

variable {g : Grove β κ} {h n r lo b : Nat} {p : Place} {child : Option Nat} {cs : List Nat}
  {vs : List (View β κ)} {l : Limb β κ} {ls : List (Limb β κ)} {P : β → Nat → Prop}

/-- A node is seen from another one. -/
def Sees (g : Grove β κ) (h : Nat) : Nat → Nat → Prop :=
  Relation.ReflTransGen fun p c => c ∈ g.visible h p

/-- The node one gets to by counting children, on each level down from a node. -/
def descend? (g : Grove β κ) (h : Nat) : Nat → List Nat → Option Nat
  | n, [] => some n
  | n, i :: path => (g.visible h n)[i]?.bind fun c => g.descend? h c path

/-! ### Views -/

/-- The nodes of views, from the first one on, carry what the views say. -/
theorem Shows.Listed.outlines {d : Nat} {vis : List Visit} (hl : Shows.Listed g d vis vs) :
    (vis.reverse.filterMap fun v => (g.label? v.node).map fun label => (v.depth, label)) =
      View.outlines d vs := by
  induction hl with
  | nil => rfl
  | leaf hlabel _ ih =>
    rw [List.reverse_append, List.filterMap_append, ih, View.outlines, View.outline]
    simp [hlabel]
  | branch hlabel _ _ ihu ihv =>
    rw [List.reverse_append, List.reverse_append, List.filterMap_append, List.filterMap_append,
      ihu, ihv, View.outlines, View.outline]
    simp [hlabel]

/-- What all branches of views have is had by the nodes that are seen there. -/
theorem Shows.every (hs : Shows g h lo cs vs b) (hv : View.Every P vs) {c d : Nat} (hc : c ∈ cs)
    (hsees : g.Sees h c d) {data : β} (hd : g.label? d = some (.branch data)) :
    P data (g.visible h d).length := by
  induction hs generalizing c with
  | nil => cases hc
  | leaf _ hl hnone _ ih =>
    cases hv with
    | leaf hv =>
      rcases List.mem_cons.1 hc with rfl | hc
      · -- Nothing is seen from a leaf but itself, and it is no branch.
        rcases hsees.cases_head with rfl | ⟨c', hc', -⟩
        · exact nomatch hl.symm.trans hd
        · rw [hnone] at hc'
          cases hc'
      · exact ih hv hc hsees
  | branch _ hl hu _ ihu ihv =>
    cases hv with
    | branch hP hv₁ hv₂ =>
      rcases List.mem_cons.1 hc with rfl | hc
      · rcases hsees.cases_head with rfl | ⟨c', hc', hrest⟩
        · cases hl.symm.trans hd
          rw [hu.length_eq]
          exact hP
        · exact ihu hv₁ hc' hrest
      · exact ihv hv₂ hc hsees

/-! ### Limbs -/

/-- A child that is seen stands in a list. -/
theorem isListed_of_visible {c : Nat} (hc : c ∈ g.visible h n) : g.isListed n c := by
  rw [visible] at hc
  rw [isListed]
  split at hc
  · cases hc
  · rename_i node hnode
    obtain ⟨brood, hbrood, hc⟩ := List.mem_flatMap.1 hc
    simp only [hnode, Option.any_some, List.any_eq_true, List.contains_iff_mem]
    exact ⟨brood, (List.mem_filter.1 hbrood).1, hc⟩

theorem isPlace_root (hu : g.roster.use h = .ok p) : g.isPlace p.root := by
  rw [isPlace, Array.any_eq_true']
  exact ⟨_, Array.mem_of_getElem? (Roster.use_eq_ok_iff.1 hu), by simp [Standing.value?]⟩

namespace Rises

/-- The limbs from a node up to the root are shown from the root on. -/
theorem shows (hr : Rises g h r none n (l :: ls)) :
    Shows g h r [r] [View.ofLimbs l ls] g.nodes.size := by
  induction ls generalizing n l with
  | nil =>
    obtain ⟨hl, ⟨cs, hv, hs⟩, ⟨-, rfl, -⟩ | ⟨m, -, hr'⟩⟩ := hr.cases_cons
    · refine .branch (Nat.le_refl n) hl ?_ (.nil (Nat.le_refl _))
      rw [hv, Option.toList_none, List.append_nil]
      exact hs
    · cases hr'
  | cons above ls ih =>
    obtain ⟨m, -, hr'⟩ := hr.ascend
    exact ih hr'

/-- The branch above sees the branch that is still growing. -/
theorem mem_visible {c : Nat} (hr : Rises g h r (some c) n ls) : c ∈ g.visible h n := by
  cases hr with
  | root _ _ hv | limb _ _ hv =>
    rw [hv]
    exact List.mem_append_right _ (List.mem_singleton_self c)

/-- Counting the children of the limbs, one gets from the root to the node. -/
theorem descend? (hr : Rises g h r child n (l :: ls)) (path : List Nat) :
    g.descend? h r ((ls.map (·.children.length)).reverse ++ path) = g.descend? h n path := by
  generalize hall : l :: ls = all at hr
  induction hr generalizing l ls path with
  | root =>
    cases hall
    rfl
  | @limb child n m cs d vs above hl hlink hv hs hr ih =>
    obtain ⟨rfl, rfl⟩ := List.cons.inj hall
    cases hls : ls with
    | nil =>
      rw [hls] at hr
      cases hr
    | cons l' ls' =>
      rw [hls] at ih hr
      obtain ⟨-, ⟨cs', hv', hs'⟩, -⟩ := hr.cases_cons
      rw [List.map_cons, List.reverse_cons, List.append_assoc, ih _ rfl, List.singleton_append,
        Grove.descend?, hv', ← hs'.length_eq]
      simp

/-- What is seen from a limb: itself, what is below its children, or what is
    below the branch that is still growing. -/
theorem sees_below (hv : g.visible h n = cs ++ child.toList)
    (hs : Shows g h lo cs vs b) (hvs : View.Every P vs) {x : Nat} (hsees : g.Sees h n x) {data : β}
    (hx : g.label? x = some (.branch data)) :
    g.Sees h x n ∨ P data (g.visible h x).length ∨ ∃ c, child = some c ∧ g.Sees h c x := by
  rcases hsees.cases_head with rfl | ⟨c, hc, hrest⟩
  · exact .inl .refl
  · rw [hv] at hc
    rcases List.mem_append.1 hc with hc | hc
    · exact .inr (.inl (hs.every hvs hc hrest hx))
    · exact .inr (.inr ⟨c, Option.mem_toList.1 hc, hrest⟩)

/-- What all branches of the limbs have is had by the branches that are seen
    from the root, unless the node is seen from them, or they are seen from the
    branch that is still growing. -/
theorem every (hr : Rises g h r child n ls) (hls : ∀ l ∈ ls, View.Every P l.children) {x : Nat}
    (hsees : g.Sees h r x) {data : β} (hx : g.label? x = some (.branch data)) :
    g.Sees h x n ∨ P data (g.visible h x).length ∨ ∃ c, child = some c ∧ g.Sees h c x := by
  induction hr with
  | root _ _ hv hs => exact sees_below hv hs (hls _ List.mem_cons_self) hsees hx
  | limb _ _ hv hs hr ih =>
    obtain ⟨hl, hrest⟩ := List.forall_mem_cons.1 hls
    rcases ih hrest with hup | hP | ⟨c, hc, hbelow⟩
    · exact .inl (hup.tail hr.mem_visible)
    · exact .inr (.inl hP)
    · cases hc
      exact sees_below hv hs hl hbelow hx

/-- All branches that limbs grow from live. -/
theorem lives (hr : Rises g h r child n ls) (hroot : g.isPlace r) : g.lives n := by
  induction hr with
  | root =>
    rw [Grove.lives, hroot, Bool.or_true, Bool.true_or]
  | @limb child n m _ _ _ _ _ hlink _ _ hr ih =>
    have hlt : m < n := hr.lt
    rw [Grove.lives, hlink]
    simp [hlt, isListed_of_visible hr.mem_visible, ih]

end Rises

/-! ### Handles -/

theorem root_of_use (hu : g.roster.use h = .ok p) : g.root h = .ok p.root := by
  rw [root, hu]
  rfl

theorem Holds.rises (hh : g.Holds h ls) (hu : g.roster.use h = .ok p) :
    Rises g h p.root none p.marker ls := by
  obtain ⟨q, hq, hr⟩ := hh
  obtain rfl : p = q := Except.ok.inj (hu.symm.trans hq)
  exact hr

namespace Holds

variable (hh : g.Holds h (l :: ls)) (hu : g.roster.use h = .ok p)

include hh hu

/-- What a handle sees from its root. -/
theorem outline :
    ((g.preorder h p.root).filterMap fun v => (g.label? v.node).map fun label => (v.depth, label)) =
      (View.ofLimbs l ls).outline 0 := by
  have hlisted := (hh.rises hu).shows.reversePreorder (Nat.le_refl _)
  rw [preorder, hlisted.outlines, View.outlines, View.outlines, List.append_nil]

/-- Counting the children of the limbs, one gets from the root to the marker. -/
theorem descend? :
    g.descend? h p.root (ls.map (·.children.length)).reverse = some p.marker := by
  have hpath := (hh.rises hu).descend? []
  rwa [List.append_nil] at hpath

/-- What all branches of the limbs have is had by all branches that are seen
    from the root, but for those the marker is seen from. -/
theorem every (hls : ∀ x ∈ l :: ls, View.Every P x.children) {x : Nat} {data : β}
    (hsees : g.Sees h p.root x) (hx : g.label? x = some (.branch data)) :
    g.Sees h x p.marker ∨ P data (g.visible h x).length := by
  rcases (hh.rises hu).every hls hsees hx with hup | hP | ⟨c, hc, -⟩
  · exact .inl hup
  · exact .inr hP
  · cases hc

/-- The branch above the marker lives. -/
theorem parent : g.parent h p.marker = .ok (g.link? p.marker) := by
  have hlives : (g.link? p.marker).filter g.lives = g.link? p.marker := by
    obtain ⟨-, -, ⟨-, -, hlink⟩ | ⟨m, hlink, hr⟩⟩ := (hh.rises hu).cases_cons
    · rw [hlink, Option.filter_none]
    · rw [hlink, Option.filter_some_pos (hr.lives (isPlace_root hu))]
  rw [Grove.parent, hu]
  exact congrArg Except.ok hlives

end Holds

end Grove

end Ramify.Fork
