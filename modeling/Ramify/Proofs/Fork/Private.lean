import Mathlib.Data.List.Nodup
import Mathlib.Data.List.Perm.Subperm
import Ramify.Proofs.Fork.Reading
import Ramify.Proofs.Fork.View

/-!
# Handles on their own

What several handles on one grove see, all at once (`Grove.Bears`), and what is
left to be read by several cursors of one tape (`Tape.Serves`). An operation of
one of them does to it what it would do if it had a tree, or a list, of its
own, and leaves the others what they have. Handles that are not listed may
exist as well; they do not matter.
-/

namespace Ramify.Fork

/-! ### What handles have -/

section Listed

variable {α : Type} {a : α} {x y : Nat × α} {xs ys : List (Nat × α)} {n count : Nat}

theorem nodup_of_subperm (hnodup : (xs.map (·.1)).Nodup) (hsub : ys.Subperm xs) :
    (ys.map (·.1)).Nodup := by
  obtain ⟨zs, hperm, hsub⟩ := hsub
  exact ((hperm.map _).nodup_iff).1 (hnodup.sublist (hsub.map _))

theorem fst_ne_of_mem (hnodup : ((x :: xs).map (·.1)).Nodup) (hy : y ∈ xs) : y.1 ≠ x.1 := by
  intro h
  exact (List.nodup_cons.1 hnodup).1 (List.mem_map.2 ⟨y, hy, h⟩)

/-- New handles are different from those there were. -/
theorem nodup_forks (hnodup : (xs.map (·.1)).Nodup) (hlt : ∀ x ∈ xs, x.1 < n) :
    ((((List.range' n count).map fun k => (k, a)) ++ xs).map (·.1)).Nodup := by
  rw [List.map_append, List.map_map, List.nodup_append]
  refine ⟨?_, hnodup, fun i hi j hj => ?_⟩
  · rw [show (fun x : Nat × α => x.1) ∘ (fun k => (k, a)) = id from rfl, List.map_id]
    exact List.nodup_range'
  · obtain ⟨k, hk, rfl⟩ := List.mem_map.1 hi
    obtain ⟨x, hx, rfl⟩ := List.mem_map.1 hj
    exact Nat.ne_of_gt (Nat.lt_of_lt_of_le (hlt x hx) (List.mem_range'_1.1 hk).1)

end Listed

/-! ### Handles on a grove -/

namespace Grove

variable {β κ : Type} {g g' : Grove β κ} {h k n : Nat} {p : Place} {d : β} {c : κ}
  {l l' : Limb β κ} {ls : List (Limb β κ)} {hs hs' : List (Nat × List (Limb β κ))}

/-- A handle sees limbs, from its marker up to its root. -/
def Holds (g : Grove β κ) (h : Nat) (ls : List (Limb β κ)) : Prop :=
  ∃ p, g.roster.use h = .ok p ∧ Rises g h p.root none p.marker ls

/-- A grove bears the limbs of several handles. -/
structure Bears (g : Grove β κ) (hs : List (Nat × List (Limb β κ))) : Prop where
  sound : g.Sound
  holds : ∀ x ∈ hs, g.Holds x.1 x.2
  distinct : (hs.map (·.1)).Nodup

theorem Holds.lt_size (hh : g.Holds h ls) : h < g.roster.size := by
  obtain ⟨p, hu, -⟩ := hh
  exact Roster.lt_size_of_use hu

/-- A node below the marker of a handle is seen by that handle alone. -/
theorem Holds.attach {label : Label β κ} (hk : g.Holds k ls) (hg : g.Sound)
    (hu : g.roster.use h = .ok p) (hne : k ≠ h) : (g.attach h n label).Holds k ls := by
  obtain ⟨q, hq, hr⟩ := hk
  refine ⟨q, hq, hr.of_size_le (by rw [size_attach]; exact Nat.le_succ _) fun i hi => ?_⟩
  exact ⟨by rw [label?_attach, if_neg (Nat.ne_of_lt hi)],
    by rw [link?_attach, if_neg (Nat.ne_of_lt hi)], visible_attach_of_use hg hu hq hne hi⟩

theorem same_mark {i : Nat} : Same g k (g.mark h n) k i := ⟨rfl, rfl, rfl⟩

theorem Holds.mark (hk : g.Holds k ls) (hne : k ≠ h) : (g.mark h n).Holds k ls := by
  obtain ⟨q, hq, hr⟩ := hk
  exact ⟨q, Roster.use_update.2 ⟨q, hq, (if_neg hne.symm).symm⟩,
    hr.congr (.inl rfl) fun _ _ => same_mark⟩

theorem holds_mark_self (hu : g.roster.use h = .ok p) (hr : Rises g h p.root none n ls) :
    (g.mark h n).Holds h ls :=
  ⟨{ p with marker := n }, Roster.use_update.2 ⟨p, hu, (if_pos rfl).symm⟩,
    hr.congr (.inl rfl) fun _ _ => same_mark⟩

/-- A fork holds what the forked handle held. -/
theorem holds_split_new {count : Nat} (hg : g.Sound) (hu : g.roster.use h = .ok p)
    (hr : Rises g h p.root none p.marker ls) (h₁ : g.roster.size ≤ k)
    (h₂ : k < g.roster.size + count) : (g.split h count).2.Holds k ls := by
  refine ⟨p, (Roster.use_split hu).2 (.inl ⟨h₁, h₂, rfl⟩), hr.congr (.inl rfl) fun i _ => ?_⟩
  exact ⟨rfl, rfl, visible_split_new hg hu h₁ h₂⟩

theorem Holds.split {count : Nat} (hk : g.Holds k ls) (hg : g.Sound)
    (hu : g.roster.use h = .ok p) (hne : k ≠ h) : (g.split h count).2.Holds k ls := by
  obtain ⟨q, hq, hr⟩ := hk
  refine ⟨q, (Roster.use_split hu).2 (.inr ⟨hne, hq⟩), hr.congr (.inl rfl) fun i _ => ?_⟩
  exact ⟨rfl, rfl, visible_split hg hu (Roster.lt_size_of_use hq)⟩

theorem Holds.drop (hk : g.Holds k ls) (hg : g.Sound) (hpres : g.roster.isPresent h)
    (hne : k ≠ h) : (g.drop h).Holds k ls := by
  obtain ⟨q, hq, hr⟩ := hk
  refine ⟨q, (use_drop hg hpres).2 ⟨hne, hq⟩, hr.congr (.inl (size_drop hg hpres)) fun i _ => ?_⟩
  exact ⟨label?_drop hg hpres, link?_drop hg hpres, visible_drop hg hpres hq hne⟩

namespace Bears

theorem thin (hb : g.Bears hs) (hsub : hs'.Subperm hs) : g.Bears hs' where
  sound := hb.sound
  holds x hx := hb.holds x (hsub.subset hx)
  distinct := nodup_of_subperm hb.distinct hsub

theorem head (hb : g.Bears ((h, ls) :: hs)) : g.Holds h ls := hb.holds (h, ls) List.mem_cons_self

theorem ne_of_mem (hb : g.Bears ((h, ls) :: hs)) {x : Nat × List (Limb β κ)} (hx : x ∈ hs) :
    x.1 ≠ h :=
  fst_ne_of_mem hb.distinct hx

/-- The first handle holds something else, and the others what they held. -/
theorem replace (hb : g.Bears ((h, ls) :: hs)) {ls' : List (Limb β κ)} (hsound : g'.Sound)
    (hfirst : g'.Holds h ls') (hothers : ∀ x ∈ hs, x.1 ≠ h → g.Holds x.1 x.2 → g'.Holds x.1 x.2) :
    g'.Bears ((h, ls') :: hs) where
  sound := hsound
  holds x hx := by
    rcases List.mem_cons.1 hx with rfl | hx
    · exact hfirst
    · exact hothers x hx (hb.ne_of_mem hx) (hb.holds x (List.mem_cons_of_mem _ hx))
  distinct := hb.distinct

/-- A tree of one branch. -/
theorem plant : (Grove.empty.plant (.branch d) : Grove β κ).Bears [(0, [⟨d, []⟩])] where
  sound := sound_empty.plant
  holds x hx := by
    rw [List.mem_singleton.1 hx]
    exact ⟨⟨0, 0⟩, rfl, Rises.of_cons [] rfl rfl (.nil (Nat.le_refl 1)) (.inl ⟨rfl, rfl, rfl⟩)⟩
  distinct := List.nodup_singleton 0

/-- A handle adds a leaf at its marker. -/
theorem grow (hb : g.Bears ((h, l :: ls) :: hs)) (hu : g.roster.use h = .ok p) :
    (g.attach h p.marker (.leaf c)).Bears ((h, l.add (.leaf c) :: ls) :: hs) := by
  obtain ⟨q, hq, hr⟩ := hb.head
  obtain rfl : p = q := Except.ok.inj (hu.symm.trans hq)
  exact hb.replace (hb.sound.attach hu) ⟨p, hu, hr.grow hb.sound hu⟩
    fun x _ hne hx => hx.attach hb.sound hu hne

/-- A handle opens a branch at its marker and moves there. -/
theorem branchOff (hb : g.Bears ((h, l :: ls) :: hs)) (hu : g.roster.use h = .ok p) :
    ((g.attach h p.marker (.branch d)).mark h g.nodes.size).Bears
      ((h, ⟨d, []⟩ :: l :: ls) :: hs) := by
  obtain ⟨q, hq, hr⟩ := hb.head
  obtain rfl : p = q := Except.ok.inj (hu.symm.trans hq)
  exact hb.replace (hb.sound.attach hu).mark (holds_mark_self hu (hr.branchOff hb.sound hu))
    fun x _ hne hx => (hx.attach hb.sound hu hne).mark hne

/-- A handle moves up from a branch that is complete. -/
theorem ascend (hb : g.Bears ((h, l :: l' :: ls) :: hs)) (hu : g.roster.use h = .ok p) :
    ∃ m, g.link? p.marker = some m ∧ (g.mark h m).Bears ((h, l'.add l.close :: ls) :: hs) := by
  obtain ⟨q, hq, hr⟩ := hb.head
  obtain rfl : p = q := Except.ok.inj (hu.symm.trans hq)
  obtain ⟨m, hlink, hr⟩ := hr.ascend
  exact ⟨m, hlink, hb.replace hb.sound.mark (holds_mark_self hu hr)
    fun x _ hne hx => hx.mark hne⟩

/-- A handle is forked: its forks hold what it held, and it holds nothing. -/
theorem split (hb : g.Bears ((h, ls) :: hs)) (hu : g.roster.use h = .ok p) (count : Nat) :
    (g.split h count).2.Bears (((g.split h count).1.map fun k => (k, ls)) ++ hs) := by
  obtain ⟨q, hq, hr⟩ := hb.head
  obtain rfl : p = q := Except.ok.inj (hu.symm.trans hq)
  rw [split_fst hu]
  refine ⟨hb.sound.split hu, fun x hx => ?_, ?_⟩
  · rcases List.mem_append.1 hx with hx | hx
    · obtain ⟨k, hk, rfl⟩ := List.mem_map.1 hx
      obtain ⟨h₁, h₂⟩ := List.mem_range'_1.1 hk
      exact holds_split_new hb.sound hu hr h₁ h₂
    · exact (hb.holds x (List.mem_cons_of_mem _ hx)).split hb.sound hu (hb.ne_of_mem hx)
  · exact nodup_forks (List.nodup_cons.1 hb.distinct).2 fun x hx =>
      (hb.holds x (List.mem_cons_of_mem _ hx)).lt_size

/-- A handle that is not listed is given up. -/
theorem drop (hb : g.Bears hs) (hpres : g.roster.isPresent h) (hnot : ∀ x ∈ hs, x.1 ≠ h) :
    (g.drop h).Bears hs where
  sound := hb.sound.drop hpres
  holds x hx := (hb.holds x hx).drop hb.sound hpres (hnot x hx)
  distinct := hb.distinct

/-- A handle is given up. -/
theorem drop_head (hb : g.Bears ((h, ls) :: hs)) : (g.drop h).Bears hs := by
  obtain ⟨p, hu, -⟩ := hb.head
  refine (hb.thin (List.sublist_cons_self _ _).subperm).drop (Roster.isPresent_of_use hu) ?_
  exact fun x hx => hb.ne_of_mem hx

end Bears

end Grove

/-! ### Cursors on a tape -/

namespace Tape

variable {σ α : Type} {t t' : Tape σ α} {w : List α} {h k : Nat} {rest : List α} {a : α}
  {cs cs' : List (Nat × List α)}

/-- A cursor of a tape has read a list up to the first element of `rest`, which
    it has read, too. -/
def Leaves (t : Tape σ α) (w : List α) (h : Nat) (rest : List α) : Prop :=
  ∃ c before, t.roster.use h = .ok c ∧ w = before ++ rest ∧ c.reads = before.length + 1

/-- What a cursor has still to read: however often it is read, it gives these
    elements, and nothing behind them. -/
def Unread (t : Tape σ α) (h : Nat) (rest : List α) : Prop :=
  ∀ count, ∃ t', t.read h count = .ok ((List.range count).map fun i => rest[i]?, t')

/-- A tape serves several cursors that read a list. -/
structure Serves (t : Tape σ α) (w : List α) (cs : List (Nat × List α)) : Prop where
  tells : t.Tells w
  leaves : ∀ x ∈ cs, t.Leaves w x.1 x.2
  distinct : (cs.map (·.1)).Nodup

theorem Leaves.lt_size (hl : t.Leaves w h rest) : h < t.roster.size := by
  obtain ⟨c, -, hu, -⟩ := hl
  exact Roster.lt_size_of_use hu

namespace Serves

theorem thin (hs : t.Serves w cs) (hsub : cs'.Subperm cs) : t.Serves w cs' where
  tells := hs.tells
  leaves x hx := hs.leaves x (hsub.subset hx)
  distinct := nodup_of_subperm hs.distinct hsub

theorem head (hs : t.Serves w ((h, rest) :: cs)) : t.Leaves w h rest :=
  hs.leaves (h, rest) List.mem_cons_self

/-- The first element of the rest has been read, and the others have not. -/
theorem unread (hs : t.Serves w ((h, rest) :: cs)) : t.Unread h rest.tail := by
  obtain ⟨c, before, hu, hw, hreads⟩ := hs.head
  intro count
  obtain ⟨t', hread⟩ := hs.tells.read hu count
  refine ⟨t', hread.trans (congrArg (fun items => Except.ok (items, t')) ?_)⟩
  refine List.map_congr_left fun i _ => ?_
  rw [hreads, hw, List.getElem?_append_right (by omega), List.getElem?_tail]
  exact congrArg (rest[·]?) (by omega)

theorem ne_of_mem (hs : t.Serves w ((h, rest) :: cs)) {x : Nat × List α} (hx : x ∈ cs) :
    x.1 ≠ h :=
  fst_ne_of_mem hs.distinct hx

/-- A cursor reads on. -/
theorem advance (hs : t.Serves w ((h, a :: rest) :: cs)) :
    (t.advance h).1 = rest.head? ∧ (t.advance h).2.Serves w ((h, rest) :: cs) := by
  obtain ⟨c, before, hu, hw, hreads⟩ := hs.head
  refine ⟨?_, hs.tells.advance hu, fun x hx => ?_, hs.distinct⟩
  · rw [hs.tells.advance_fst hu, hw, hreads, List.getElem?_append_right (Nat.le_succ _),
      Nat.succ_sub (Nat.le_refl _), Nat.sub_self, List.getElem?_cons_succ, List.head?_eq_getElem?]
  · rcases List.mem_cons.1 hx with rfl | hx
    · obtain ⟨d, hd, hdreads⟩ := hs.tells.use_advance_self hu
      refine ⟨d, before ++ [a], hd, ?_, ?_⟩
      · rw [hw, List.append_assoc]
        rfl
      · rw [hdreads, hreads, List.length_append]
        rfl
    · obtain ⟨d, before', hd, hw', hdreads⟩ := hs.leaves x (List.mem_cons_of_mem _ hx)
      exact ⟨d, before', hs.tells.use_advance_of_ne hu (hs.ne_of_mem hx) hd, hw', hdreads⟩

/-- A cursor is forked: its forks have left to read what it had, and it has
    nothing. -/
theorem split (hs : t.Serves w ((h, rest) :: cs)) (count : Nat) :
    (t.split h count).2.Serves w (((t.split h count).1.map fun k => (k, rest)) ++ cs) := by
  obtain ⟨c, before, hu, hw, hreads⟩ := hs.head
  rw [split_fst hu]
  refine ⟨hs.tells.split hu count, fun x hx => ?_, ?_⟩
  · rcases List.mem_append.1 hx with hx | hx
    · obtain ⟨k, hk, rfl⟩ := List.mem_map.1 hx
      obtain ⟨h₁, h₂⟩ := List.mem_range'_1.1 hk
      exact ⟨c, before, (Roster.use_split hu).2 (.inl ⟨h₁, h₂, rfl⟩), hw, hreads⟩
    · obtain ⟨d, before', hd, hw', hdreads⟩ := hs.leaves x (List.mem_cons_of_mem _ hx)
      exact ⟨d, before', (Roster.use_split hu).2 (.inr ⟨hs.ne_of_mem hx, hd⟩), hw', hdreads⟩
  · exact nodup_forks (List.nodup_cons.1 hs.distinct).2 fun x hx =>
      (hs.leaves x (List.mem_cons_of_mem _ hx)).lt_size

/-- A cursor that is not listed is given up. -/
theorem drop (hs : t.Serves w cs) (hnot : ∀ x ∈ cs, x.1 ≠ h) : (t.drop h).Serves w cs where
  tells := hs.tells.drop h
  leaves x hx := by
    obtain ⟨c, before, hu, hw, hreads⟩ := hs.leaves x hx
    exact ⟨c, before, Roster.use_drop.2 ⟨hnot x hx, hu⟩, hw, hreads⟩
  distinct := hs.distinct

end Serves

end Tape

end Ramify.Fork
