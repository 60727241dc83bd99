import Mathlib.Data.List.Basic
import Ramify.Saturation

/-!
# Saturated sets

What `saturate` finds is closed under the rule it is given (`mem_saturate`), and
is contained in whatever is closed under it (`saturate_least`).

The names that are known are kept in the order of all names (`InOrder`), so a round
that does not lengthen the list has added nothing, and the rule yields no name from
those that are known but these. As each round before adds a name, the rounds do not
run out (`saturateRound_saturate`).
-/

namespace Ramify

variable {names rest known : List String} {yields : List String → String → Bool} {n m : String}
  {rounds : Nat}

/-! ### Adding names -/

/-- The names that are known come in the order of all names. -/
def InOrder (names known : List String) : Prop := names.filter known.contains = known

theorem inOrder_filter (p : String → Bool) : InOrder names (names.filter p) := by
  refine List.filter_congr fun n hn => ?_
  rw [Bool.eq_iff_iff, List.contains_iff_mem, List.mem_filter]
  exact and_iff_right hn

theorem InOrder.length_le (h : InOrder names known) : known.length ≤ names.length := by
  rw [← h]
  exact List.length_filter_le _ _

theorem InOrder.mem_names (h : InOrder names known) (hn : n ∈ known) : n ∈ names := by
  rw [← h] at hn
  exact List.mem_of_mem_filter hn

theorem mem_addKnown : m ∈ addKnown names n known ↔ m ∈ names ∧ (m = n ∨ m ∈ known) := by
  rw [addKnown, List.mem_filter, Bool.or_eq_true, beq_iff_eq, List.contains_iff_mem]

/-- Adding a name takes nothing away. -/
theorem InOrder.sublist_addKnown (h : InOrder names known) :
    known.Sublist (addKnown names n known) := by
  have hsub : (names.filter known.contains).Sublist (addKnown names n known) :=
    List.monotone_filter_right names fun m hm => by rw [hm, Bool.or_true]
  rwa [h] at hsub

theorem InOrder.length_lt_addKnown (h : InOrder names known) (hn : n ∈ names) (hnew : n ∉ known) :
    known.length < (addKnown names n known).length := by
  refine Nat.lt_of_le_of_ne h.sublist_addKnown.length_le fun heq => hnew ?_
  rw [h.sublist_addKnown.eq_of_length heq]
  exact mem_addKnown.2 ⟨hn, .inl rfl⟩

/-! ### Rounds -/

/-- A round keeps the order, and takes nothing away. -/
theorem InOrder.round (h : InOrder names known) :
    InOrder names (saturateRound names yields rest known) ∧
      known.Sublist (saturateRound names yields rest known) := by
  induction rest generalizing known with
  | nil => exact ⟨h, .refl _⟩
  | cons n rest ih =>
    rw [saturateRound]
    split
    · obtain ⟨horder, hsub⟩ := ih (inOrder_filter _)
      exact ⟨horder, h.sublist_addKnown.trans hsub⟩
    · exact ih h

/-- Of some names, the rule yields none from those that are known but these. -/
def Saturated (yields : List String → String → Bool) (names known : List String) : Prop :=
  ∀ n ∈ names, yields known n → n ∈ known

/-- A round adds nothing if and only if there is nothing to add. -/
theorem InOrder.round_eq_self_iff (h : InOrder names known) (hrest : ∀ n ∈ rest, n ∈ names) :
    saturateRound names yields rest known = known ↔ Saturated yields rest known := by
  induction rest with
  | nil => exact iff_of_true rfl fun n hn => absurd hn List.not_mem_nil
  | cons n rest ih =>
    obtain ⟨hn, hrest⟩ := List.forall_mem_cons.1 hrest
    rw [saturateRound, Saturated, List.forall_mem_cons]
    split
    · rename_i hadds
      rw [Bool.and_eq_true, Bool.not_eq_true', ← Bool.not_eq_true, List.contains_iff_mem] at hadds
      refine iff_of_false (fun heq => ?_) fun hall => hadds.1 (hall.1 hadds.2)
      -- The name that is added stays.
      have hlt := h.length_lt_addKnown hn hadds.1
      have hsub : (addKnown names n known).Sublist
          (saturateRound names yields rest (addKnown names n known)) :=
        (InOrder.round (inOrder_filter _)).2
      rw [heq] at hsub
      exact Nat.lt_irrefl _ (Nat.lt_of_lt_of_le hlt hsub.length_le)
    · rename_i hskips
      refine (ih hrest).trans (and_iff_right fun hyields => ?_).symm
      by_contra hnew
      exact hskips (by simp [hnew, hyields])

/-- What can be said of all names that the rule yields holds of those a round adds. -/
theorem forall_mem_round {P : String → Prop}
    (hP : ∀ known n, n ∈ names → (∀ k ∈ known, P k) → yields known n → P n)
    (hrest : ∀ n ∈ rest, n ∈ names) (hknown : ∀ k ∈ known, P k) :
    ∀ n ∈ saturateRound names yields rest known, P n := by
  induction rest generalizing known with
  | nil => exact hknown
  | cons n rest ih =>
    obtain ⟨hn, hrest⟩ := List.forall_mem_cons.1 hrest
    rw [saturateRound]
    refine ih hrest ?_
    split
    · rename_i hadds
      intro k hk
      obtain rfl | hk := (mem_addKnown.1 hk).2
      · exact hP known k hn hknown (Bool.and_eq_true _ _ ▸ hadds).2
      · exact hknown k hk
    · exact hknown

/-! ### Saturation -/

/-- With rounds enough, saturation ends with names to which a round adds nothing:
    each round before adds a name. -/
theorem InOrder.saturateFrom (h : InOrder names known)
    (hrounds : names.length < rounds + known.length) :
    InOrder names (saturateFrom names yields rounds known) ∧
      saturateRound names yields names (Ramify.saturateFrom names yields rounds known) =
        Ramify.saturateFrom names yields rounds known := by
  induction rounds generalizing known with
  | zero =>
    have hle := h.length_le
    omega
  | succ rounds ih =>
    have hround : InOrder names (saturateRound names yields names known) ∧
        known.Sublist (saturateRound names yields names known) := h.round
    rw [Ramify.saturateFrom]
    split
    · rename_i heq
      exact ⟨h, (hround.2.eq_of_length heq.symm).symm⟩
    · have hle := hround.2.length_le
      exact ih hround.1 (by omega)

theorem inOrder_saturate : InOrder names (saturate names yields) :=
  (InOrder.saturateFrom (by simp [InOrder]) (by simp)).1

/-- Saturation has come to its end: another round adds nothing. -/
theorem saturateRound_saturate :
    saturateRound names yields names (saturate names yields) = saturate names yields :=
  (InOrder.saturateFrom (by simp [InOrder]) (by simp)).2

theorem saturate_closed (hn : n ∈ names) (hyields : yields (saturate names yields) n) :
    n ∈ saturate names yields :=
  (inOrder_saturate.round_eq_self_iff fun _ h => h).1 saturateRound_saturate n hn hyields

/-- What is found is closed under the rule. -/
theorem mem_saturate :
    n ∈ saturate names yields ↔ n ∈ names ∧
      (n ∈ saturate names yields ∨ yields (saturate names yields) n) :=
  ⟨fun hn => ⟨inOrder_saturate.mem_names hn, .inl hn⟩,
    fun ⟨hn, h⟩ => h.elim id (saturate_closed hn)⟩

/-- Whatever is closed under the rule holds what is found. -/
theorem saturate_least {P : String → Prop}
    (hP : ∀ known n, n ∈ names → (∀ k ∈ known, P k) → yields known n → P n) :
    ∀ n ∈ saturate names yields, P n := by
  have hfrom : ∀ rounds known, (∀ k ∈ known, P k) →
      ∀ n ∈ saturateFrom names yields rounds known, P n := by
    intro rounds
    induction rounds with
    | zero => exact fun known hknown => hknown
    | succ rounds ih =>
      intro known hknown
      rw [saturateFrom]
      split
      · exact hknown
      · exact ih _ (forall_mem_round hP (fun _ h => h) hknown)
  exact hfrom _ [] fun k hk => absurd hk List.not_mem_nil

end Ramify
