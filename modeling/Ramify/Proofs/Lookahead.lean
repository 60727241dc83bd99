import Mathlib.Tactic.Tauto
import Ramify.Lookahead

/-!
# Sets of lookaheads and their elements

The operations on listings are what their names say, and so the sum of two sets
admits what either of them does (`LookaheadSet.admits_add`), whatever their
polarities. Sets that admit the same are equivalent, and up to that the laws of a
union hold (`LookaheadSet.add_unites`).
-/

namespace Ramify

namespace Listing

variable {a b : Listing} {c : Lookahead}

theorem covers_iff : a.covers c ↔ c ∈ a.listed ∨ a.passes c := by
  rw [covers, Bool.or_eq_true, List.contains_iff_mem]

theorem passes_union : (a.union b).passes c ↔ a.passes c ∨ b.passes c := by
  obtain ⟨as, f⟩ := a
  obtain ⟨bs, g⟩ := b
  cases f <;> cases g <;> simp [passes, union]

theorem passes_inter : (a.inter b).passes c ↔ a.passes c ∧ b.passes c := by
  obtain ⟨as, f⟩ := a
  obtain ⟨bs, g⟩ := b
  cases f <;> cases g <;> simp [passes, inter]

theorem passes_diff : (a.diff b).passes c ↔ a.passes c ∧ ¬b.covers c := by
  obtain ⟨as, f⟩ := a
  cases f <;> simp [passes, diff, covers, and_assoc]

theorem covers_union : (a.union b).covers c ↔ a.covers c ∨ b.covers c := by
  rw [covers_iff, covers_iff, covers_iff, passes_union, union, Lookahead.mem_insertAll]
  tauto

theorem covers_inter : (a.inter b).covers c ↔ a.covers c ∧ b.covers c := by
  rw [covers_iff, passes_inter, covers_iff, covers_iff, inter, Lookahead.mem_insertAll,
    List.mem_filter, List.mem_filter, Bool.or_eq_true, List.contains_iff_mem]
  tauto

theorem covers_diff : (a.diff b).covers c ↔ a.covers c ∧ ¬b.covers c := by
  rw [covers_iff, passes_diff, covers_iff (a := a), covers_iff (a := b), diff, List.mem_filter,
    Bool.and_eq_true, Bool.not_eq_true', Bool.not_eq_true', ← Bool.not_eq_true,
    ← Bool.not_eq_true, List.contains_iff_mem]
  tauto

end Listing

namespace LookaheadSet

variable {a b : LookaheadSet} {c : Lookahead}

/-- A sum admits what one of its summands admits. -/
theorem admits_add : (a + b).admits c ↔ a.admits c ∨ b.admits c := by
  change (add a b).admits c ↔ _
  rcases a with l | l <;> rcases b with m | m
  · exact Listing.covers_union
  · simp only [add, admits, Bool.not_eq_true', ← Bool.not_eq_true, Listing.covers_diff]
    tauto
  · simp only [add, admits, Bool.not_eq_true', ← Bool.not_eq_true, Listing.covers_diff]
    tauto
  · simp only [add, admits, Bool.not_eq_true', ← Bool.not_eq_true, Listing.covers_inter]
    tauto

theorem admits_foldl {α : Type} (f : α → LookaheadSet) (as : List α) (s : LookaheadSet) :
    (as.foldl (fun acc x => acc + f x) s).admits c ↔ s.admits c ∨ ∃ x ∈ as, (f x).admits c := by
  induction as generalizing s with
  | nil => simp
  | cons x as ih =>
    rw [List.foldl_cons, ih, admits_add]
    simp only [List.mem_cons, exists_eq_or_imp]
    exact or_assoc

@[simp] theorem admits_empty : empty.admits c = false := by
  simp [empty, admits, Listing.covers, Listing.passes]

@[simp] theorem admits_anything : anything.admits c = true := by
  simp [anything, admits, Listing.covers, Listing.passes]

theorem admits_sum {sets : List LookaheadSet} : (sum sets).admits c ↔ ∃ s ∈ sets, s.admits c := by
  rw [sum, admits_foldl (fun s => s), admits_empty]
  simp

theorem admits_endOfInput : endOfInput.admits c ↔ c = none := by
  simp [endOfInput, admits, Listing.covers, Listing.passes]

theorem admits_ofTerminal {t : Terminal} : (ofTerminal t).admits c ↔ c = some t.first := by
  simp [ofTerminal, ofChar, admits, Listing.covers, Listing.passes]

theorem admits_ofClass {k : CharClass} : (ofClass k).admits c ↔ k.admits c := by
  simp [ofClass, ofPredicate, admits, Listing.covers, Listing.passes]

/-! ### Sets that admit the same -/

/-- Sets are equivalent when they admit the same, in whatever form they are given. -/
instance : Setoid LookaheadSet where
  r a b := ∀ c, a.admits c ↔ b.admits c
  iseqv := ⟨fun _ _ => Iff.rfl, fun h c => (h c).symm, fun h h' c => (h c).trans (h' c)⟩

theorem add_comm_equiv (a b : LookaheadSet) : a + b ≈ b + a := fun c => by
  rw [admits_add, admits_add, or_comm]

theorem add_assoc_equiv (a b d : LookaheadSet) : a + b + d ≈ a + (b + d) := fun c => by
  rw [admits_add, admits_add, admits_add, admits_add, or_assoc]

theorem add_self_equiv (a : LookaheadSet) : a + a ≈ a := fun c => by
  rw [admits_add, or_self]

/-- A set that is seen to be empty is the empty one. -/
theorem eq_empty_of_isEmpty (h : a.isEmpty) : a = empty := by
  rw [isEmpty.eq_def] at h
  split at h
  · rfl
  · cases h

/-- The sum of sets admits what one of them admits. So the order in which sets are added,
    and how often one is, makes no difference to what the sum admits. -/
theorem add_unites (a b d : LookaheadSet) (sets : List LookaheadSet) :
    (∀ c, (a + b).admits c ↔ a.admits c ∨ b.admits c) ∧
      (a + b ≈ b + a ∧ a + b + d ≈ a + (b + d) ∧ a + a ≈ a) ∧
      (∀ c, (sum sets).admits c ↔ ∃ s ∈ sets, s.admits c) ∧
      (a.isEmpty → ∀ c, a.admits c = false) := by
  refine ⟨fun c => admits_add, ⟨add_comm_equiv a b, add_assoc_equiv a b d, add_self_equiv a⟩,
    fun c => admits_sum, fun h c => ?_⟩
  rw [eq_empty_of_isEmpty h, admits_empty]

/-- The vowels, by a predicate. -/
def vowels : LookaheadSet :=
  ofPredicate fun c => [some 'a', some 'e', some 'i', some 'o', some 'u'].contains c

/-- All but the letters from a to z, of which a and z are listed. -/
def noLetters : LookaheadSet :=
  allBut ⟨[some 'a', some 'z'], some fun c => c.any fun c => 'b' ≤ c && c ≤ 'y'⟩

/-- A listed letter and one of the predicate are admitted as vowels, and others are not. -/
theorem add_unites_vowels : (empty.isEmpty ∧ ∀ c, empty.admits c = false) ∧
    (vowels + noLetters).admits (some 'a') ∧ (noLetters + vowels).admits (some 'e') ∧
    ¬(vowels + noLetters).admits (some 'z') := by
  obtain ⟨hadd, ⟨hcomm, -⟩, -⟩ := add_unites vowels noLetters empty []
  refine ⟨⟨rfl, (add_unites empty vowels noLetters []).2.2.2 rfl⟩, (hadd _).2 (.inl (by decide)),
    (hcomm _).1 ((hadd _).2 (.inl (by decide))), ?_⟩
  rw [hadd]
  decide

end LookaheadSet

end Ramify
