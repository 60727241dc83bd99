import Ramify.Fork.Roster

/-!
# Which handles can be used

What every operation on a roster does to the handles that can be used
(`Roster.use`), to those that were forked (`Roster.isBlocked`) and to those that
were not given up (`Roster.isPresent`). A handle comes into being by `add` and
`split`, stops being usable by `split` and `drop`, and is nobody else's business:
each operation leaves all handles alone but those it is about.
-/

namespace Ramify.Fork.Roster

variable {α : Type} {r : Roster α} {h k : Nat} {a b : α}

theorem use_eq_ok_iff : r.use h = .ok a ↔ r.standings[h]? = some (.live a) := by
  unfold use
  split
  · rename_i c hc
    simp [hc]
  · rename_i hne
    refine ⟨fun hu => (nomatch hu), fun hl => absurd hl (hne a)⟩

theorem use_eq_error_iff {e : ForkError} :
    r.use h = .error e ↔ ∀ a, r.use h ≠ .ok a := by
  cases hu : r.use h with
  | ok a => simp
  | error e' => cases e; cases e'; simp

theorem lt_size_of_use (hu : r.use h = .ok a) : h < r.size := by
  rw [use_eq_ok_iff] at hu
  exact (Array.getElem?_eq_some_iff.1 hu).1

theorem isPresent_iff :
    r.isPresent h ↔ ∃ s, r.standings[h]? = some s ∧ ∃ a, s.value? = some a := by
  cases hs : r.standings[h]? <;> simp [isPresent, value?, hs, Option.isSome_iff_exists]

theorem isPresent_of_use (hu : r.use h = .ok a) : r.isPresent h :=
  isPresent_iff.2 ⟨_, use_eq_ok_iff.1 hu, a, rfl⟩

theorem lt_size_of_isPresent (hp : r.isPresent h) : h < r.size := by
  obtain ⟨s, hs, -⟩ := isPresent_iff.1 hp
  exact (Array.getElem?_eq_some_iff.1 hs).1

theorem isBlocked_iff : r.isBlocked h ↔ ∃ a, r.standings[h]? = some (.blocked a) := by
  rw [isBlocked]
  split
  · rename_i a hs
    exact iff_of_true rfl ⟨a, hs⟩
  · rename_i hne
    exact iff_of_false Bool.false_ne_true fun ⟨a, hs⟩ => hne a hs

theorem use_of_isBlocked (hb : r.isBlocked h) : r.use h = .error .alreadyForked := by
  obtain ⟨a, hs⟩ := isBlocked_iff.1 hb
  rw [use, hs]

/-! ### One handle at a time -/

@[simp] theorem size_empty : (empty : Roster α).size = 0 := rfl

@[simp] theorem size_add : (r.add a).size = r.size + 1 := by simp [add, size]

@[simp] theorem size_update {f : α → α} : (r.update h f).size = r.size := by simp [update, size]

@[simp] theorem size_block : (r.block h).size = r.size := by simp [block, size]

@[simp] theorem size_drop : (r.drop h).size = r.size := by simp [drop, size]

theorem use_add : (r.add a).use k = .ok b ↔ (k = r.size ∧ b = a) ∨ r.use k = .ok b := by
  rw [use_eq_ok_iff, use_eq_ok_iff, add, Array.getElem?_push]
  split
  · rename_i hk
    have hnone : r.standings[k]? = none := by rw [hk]; exact Array.getElem?_eq_none (Nat.le_refl _)
    simp [hk, size, eq_comm]
  · rename_i hk
    simp [size, hk]

theorem isPresent_add : (r.add a).isPresent k ↔ k = r.size ∨ r.isPresent k := by
  rw [isPresent_iff, isPresent_iff, add, Array.getElem?_push]
  split
  · rename_i hk
    simp [hk, size, Standing.value?]
  · rename_i hk
    simp [size, hk]

theorem use_update {f : α → α} :
    (r.update h f).use k = .ok b ↔ ∃ a, r.use k = .ok a ∧ b = if h = k then f a else a := by
  simp only [use_eq_ok_iff, update, Array.getElem?_modify]
  split
  · cases hs : r.standings[k]? with
    | none => simp
    | some s => cases s <;> simp [Standing.update, eq_comm]
  · simp

theorem isPresent_update {f : α → α} : (r.update h f).isPresent k ↔ r.isPresent k := by
  simp only [isPresent_iff, update, Array.getElem?_modify]
  split
  · cases hs : r.standings[k]? with
    | none => simp
    | some s => cases s <;> simp [Standing.update, Standing.value?]
  · rfl

theorem use_block : (r.block h).use k = .ok b ↔ k ≠ h ∧ r.use k = .ok b := by
  simp only [use_eq_ok_iff, block, Array.getElem?_modify]
  split
  · rename_i hk
    subst hk
    cases hs : r.standings[h]? with
    | none => simp
    | some s => cases s <;> simp [Standing.block]
  · rename_i hk
    simp [Ne.symm hk]

theorem isPresent_block : (r.block h).isPresent k ↔ r.isPresent k := by
  simp only [isPresent_iff, block, Array.getElem?_modify]
  split
  · cases hs : r.standings[k]? with
    | none => simp
    | some s => cases s <;> simp [Standing.block, Standing.value?]
  · rfl

theorem isBlocked_add : (r.add a).isBlocked k ↔ r.isBlocked k := by
  rw [isBlocked_iff, isBlocked_iff, add, Array.getElem?_push]
  split
  · rename_i hk
    simp [hk]
  · rfl

theorem isBlocked_update {f : α → α} : (r.update h f).isBlocked k ↔ r.isBlocked k := by
  simp only [isBlocked_iff, update, Array.getElem?_modify]
  split
  · cases hs : r.standings[k]? with
    | none => simp
    | some s => cases s <;> simp [Standing.update]
  · rfl

/-- A handle that can be used is blocked. -/
theorem isBlocked_block (hu : r.use h = .ok a) :
    (r.block h).isBlocked k ↔ k = h ∨ r.isBlocked k := by
  simp only [isBlocked_iff, block, Array.getElem?_modify]
  by_cases hk : h = k
  · subst hk
    simp [use_eq_ok_iff.1 hu, Standing.block]
  · simp [hk, Ne.symm hk]

theorem use_drop : (r.drop h).use k = .ok b ↔ k ≠ h ∧ r.use k = .ok b := by
  simp only [use_eq_ok_iff, drop, Array.getElem?_modify]
  split
  · rename_i hk
    subst hk
    cases hs : r.standings[h]? <;> simp
  · rename_i hk
    simp [Ne.symm hk]

theorem isPresent_drop : (r.drop h).isPresent k ↔ k ≠ h ∧ r.isPresent k := by
  simp only [isPresent_iff, drop, Array.getElem?_modify]
  split
  · rename_i hk
    subst hk
    cases hs : r.standings[h]? <;> simp [Standing.value?]
  · rename_i hk
    simp [Ne.symm hk]

/-! ### Many new handles -/

@[simp] theorem size_addMany {count : Nat} : (r.addMany a count).size = r.size + count := by
  induction count generalizing r with
  | zero => rfl
  | succ count ih => rw [addMany, ih, size_add, Nat.add_assoc, Nat.add_comm 1]

theorem use_addMany {count : Nat} :
    (r.addMany a count).use k = .ok b ↔
      (r.size ≤ k ∧ k < r.size + count ∧ b = a) ∨ r.use k = .ok b := by
  induction count generalizing r with
  | zero =>
    simp only [addMany]
    refine ⟨.inr, fun hu => hu.resolve_left ?_⟩
    omega
  | succ count ih =>
    rw [addMany, ih, use_add, size_add]
    constructor
    · rintro (⟨h₁, h₂, rfl⟩ | ⟨rfl, rfl⟩ | hu)
      · exact .inl ⟨by omega, by omega, rfl⟩
      · exact .inl ⟨Nat.le_refl _, by omega, rfl⟩
      · exact .inr hu
    · rintro (⟨h₁, h₂, rfl⟩ | hu)
      · by_cases hk : k = r.size
        · exact .inr (.inl ⟨hk, rfl⟩)
        · exact .inl ⟨by omega, by omega, rfl⟩
      · exact .inr (.inr hu)

theorem isPresent_addMany {count : Nat} :
    (r.addMany a count).isPresent k ↔
      (r.size ≤ k ∧ k < r.size + count) ∨ r.isPresent k := by
  induction count generalizing r with
  | zero =>
    simp only [addMany]
    refine ⟨.inr, fun hu => hu.resolve_left ?_⟩
    omega
  | succ count ih =>
    rw [addMany, ih, isPresent_add, size_add]
    constructor
    · rintro (⟨h₁, h₂⟩ | rfl | hu)
      · exact .inl ⟨by omega, by omega⟩
      · exact .inl ⟨Nat.le_refl _, by omega⟩
      · exact .inr hu
    · rintro (⟨h₁, h₂⟩ | hu)
      · by_cases hk : k = r.size
        · exact .inr (.inl hk)
        · exact .inl ⟨by omega, by omega⟩
      · exact .inr (.inr hu)

theorem isBlocked_addMany {count : Nat} : (r.addMany a count).isBlocked k ↔ r.isBlocked k := by
  induction count generalizing r with
  | zero => rfl
  | succ count ih => rw [addMany, ih, isBlocked_add]

/-! ### Splitting -/

theorem split_of_use {count : Nat} (hu : r.use h = .ok a) :
    r.split h count = (List.range' r.size count, (r.block h).addMany a count) := by
  simp [split, hu, numbers]

theorem use_split {count : Nat} (hu : r.use h = .ok a) :
    (r.split h count).2.use k = .ok b ↔
      (r.size ≤ k ∧ k < r.size + count ∧ b = a) ∨ (k ≠ h ∧ r.use k = .ok b) := by
  rw [split_of_use hu, use_addMany, use_block, size_block]

theorem isPresent_split {count : Nat} (hu : r.use h = .ok a) :
    (r.split h count).2.isPresent k ↔
      (r.size ≤ k ∧ k < r.size + count) ∨ r.isPresent k := by
  rw [split_of_use hu, isPresent_addMany, isPresent_block, size_block]

theorem isBlocked_split {count : Nat} (hu : r.use h = .ok a) :
    (r.split h count).2.isBlocked k ↔ k = h ∨ r.isBlocked k := by
  rw [split_of_use hu, isBlocked_addMany, isBlocked_block hu]

theorem size_split {count : Nat} (hu : r.use h = .ok a) :
    (r.split h count).2.size = r.size + count := by
  rw [split_of_use hu, size_addMany, size_block]

end Ramify.Fork.Roster
