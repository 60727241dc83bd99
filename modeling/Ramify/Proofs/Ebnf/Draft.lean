import Ramify.Ebnf.Lowering
import Std.Data.String.ToNat

/-!
# Drafts

What the operations on a draft do to its names and to their rules, and why a
name that is made up is a new one: it is longer than the name it is made up
under, and what comes behind the last underscore tells how many came before.
-/

namespace Ramify.Ebnf

/-- The `k`-th name that is made up under a parent. -/
def madeUp (parent : String) (k : Nat) : String := parent ++ "_" ++ toString k

theorem toList_madeUp (parent : String) (k : Nat) :
    (madeUp parent k).toList = parent.toList ++ '_' :: (toString k).toList := by
  simp [madeUp]

theorem length_lt_madeUp (parent : String) (k : Nat) :
    parent.length < (madeUp parent k).length := by
  rw [← String.length_toList, ← String.length_toList, toList_madeUp, List.length_append]
  exact Nat.lt_add_of_pos_right (Nat.succ_pos _)

theorem underscore_not_mem_toString (k : Nat) : '_' ∉ (toString k).toList := by
  intro h
  rw [Nat.toString_eq_repr, Nat.toList_repr] at h
  exact absurd (Nat.isDigit_of_mem_toDigits (by decide) (by decide) h) (by decide)

/-- Two lists that are split where the same entry stands last are split alike. -/
theorem append_cons_inj_of_last {α : Type} {a : α} {xs ys us vs : List α} (hus : a ∉ us)
    (hvs : a ∉ vs) (h : xs ++ a :: us = ys ++ a :: vs) : xs = ys ∧ us = vs := by
  obtain ⟨zs, hzs, hus'⟩ | ⟨zs, hzs, hvs'⟩ := List.append_eq_append_iff.1 h
  · cases zs with
    | nil => exact ⟨by rw [hzs, List.append_nil], (List.cons.inj hus').2⟩
    | cons z zs =>
      refine absurd ?_ hus
      rw [(List.cons.inj hus').2]
      exact List.mem_append_right _ List.mem_cons_self
  · cases zs with
    | nil => exact ⟨by rw [hzs, List.append_nil], (List.cons.inj hvs').2.symm⟩
    | cons z zs =>
      refine absurd ?_ hvs
      rw [(List.cons.inj hvs').2]
      exact List.mem_append_right _ List.mem_cons_self

/-- A made-up name tells what it was made up under, and as which one. -/
theorem madeUp_inj {p q : String} {k l : Nat} (h : madeUp p k = madeUp q l) : p = q ∧ k = l := by
  have hlist := congrArg String.toList h
  rw [toList_madeUp, toList_madeUp] at hlist
  obtain ⟨hparent, hnumber⟩ := append_cons_inj_of_last (underscore_not_mem_toString k)
    (underscore_not_mem_toString l) hlist
  exact ⟨String.toList_inj.1 hparent, Nat.repr_injective (String.toList_inj.1 hnumber)⟩

/-- Changing what is kept with the keys of a list changes what is looked up. -/
theorem lookup_map_snd {α β γ : Type} [BEq α] [LawfulBEq α] {f : α → β → γ} {ps : List (α × β)}
    {a : α} : (ps.map fun p => (p.1, f p.1 p.2)).lookup a = (ps.lookup a).map (f a) := by
  induction ps with
  | nil => rfl
  | cons p ps ih =>
    obtain ⟨b, c⟩ := p
    rw [List.map_cons, List.lookup_cons, List.lookup_cons]
    dsimp only
    cases h : a == b with
    | true =>
      rw [eq_of_beq h]
      rfl
    | false => exact ih

namespace Draft

variable {d : Draft} {n m parent root : String} {rule : Flat.Rule}

/-! ### Names and rules -/

/-- The names that have a place. -/
def names (d : Draft) : List String := d.targets.map (·.1)

/-- The rules of a name. -/
def rules (d : Draft) (n : String) : List Flat.Rule := (d.targets.lookup n).getD []

theorem mem_names_reserve : m ∈ (d.reserve n).names ↔ m ∈ d.names ∨ m = n := by
  rw [reserve]
  split
  · rename_i hany
    obtain ⟨⟨n', rules⟩, hmem, hname⟩ := List.any_eq_true.1 hany
    have hn : n ∈ d.names := List.mem_map.2 ⟨(n', rules), hmem, eq_of_beq hname⟩
    exact ⟨.inl, fun h => h.elim id fun h => h ▸ hn⟩
  · simp [names]

theorem lookup_of_mem_names (hn : n ∈ d.names) : d.targets.lookup n = some (d.rules n) := by
  obtain ⟨⟨n', rules'⟩, hmem, rfl⟩ := List.mem_map.1 hn
  have hsome : (d.targets.lookup n').isSome := List.lookup_isSome_iff.2 ⟨_, hmem, BEq.rfl⟩
  obtain ⟨rules, hlookup⟩ := Option.isSome_iff_exists.1 hsome
  rw [Draft.rules, hlookup, Option.getD_some]

theorem rules_of_not_mem_names (hn : n ∉ d.names) : d.rules n = [] := by
  rw [rules, List.lookup_eq_none_iff.2, Option.getD_none]
  intro p hp
  exact bne_iff_ne.2 fun h => hn (List.mem_map.2 ⟨p, hp, h.symm⟩)

theorem rules_reserve : (d.reserve n).rules m = d.rules m := by
  rw [reserve]
  split
  · rfl
  · simp only [rules, List.lookup_append, List.lookup_cons, List.lookup_nil]
    cases d.targets.lookup m with
    | some rules => rfl
    | none =>
      rw [Option.none_or]
      split
      · rfl
      · rfl

theorem names_emit : (d.emit n rule).names = (d.reserve n).names := by
  simp only [names, emit, List.map_map]
  refine List.map_congr_left fun p _ => ?_
  dsimp only [Function.comp]
  split
  · rfl
  · rfl

theorem mem_names_emit (hn : n ∈ d.names) : m ∈ (d.emit n rule).names ↔ m ∈ d.names := by
  rw [names_emit, mem_names_reserve]
  exact ⟨fun h => h.elim id fun h => h ▸ hn, .inl⟩

theorem lookup_emit : (d.emit n rule).targets.lookup m = ((d.reserve n).targets.lookup m).map
    fun rules => if m == n then rules ++ [rule] else rules := by
  refine Eq.trans (congrArg (List.lookup m) (List.map_congr_left fun p _ => ?_))
    (lookup_map_snd (f := fun m rules => if m == n then rules ++ [rule] else rules))
  dsimp only
  split
  · rfl
  · rfl

/-- A rule that is emitted comes behind the rules that its name has. -/
theorem rules_emit : (d.emit n rule).rules n = d.rules n ++ [rule] := by
  have hn : n ∈ (d.reserve n).names := mem_names_reserve.2 (.inr rfl)
  rw [rules, lookup_emit, lookup_of_mem_names hn, rules_reserve, BEq.rfl]
  rfl

theorem rules_emit_of_ne (hm : m ≠ n) : (d.emit n rule).rules m = d.rules m := by
  rw [rules, lookup_emit, beq_false_of_ne hm, ← rules_reserve (d := d) (n := n), rules]
  exact congrArg (Option.getD · []) Option.map_id'

/-! ### Names that are made up -/

theorem count_reserve : (d.reserve n).count m = d.count m := by
  rw [reserve]
  split
  · rfl
  · rfl

theorem count_emit : (d.emit n rule).count m = d.count m := count_reserve

theorem count_mint_self : (d.mint n).count n = d.count n + 1 := by
  rw [mint, count_reserve, count, List.lookup_cons_self, Option.getD_some]

theorem count_mint_of_ne (hm : m ≠ n) : (d.mint n).count m = d.count m := by
  rw [mint, count_reserve, count, List.lookup_cons, beq_false_of_ne hm]
  rfl

theorem count_le_mint : d.count m ≤ (d.mint n).count m := by
  by_cases hm : m = n
  · rw [hm, count_mint_self]
    exact Nat.le_succ _
  · exact Nat.le_of_eq (count_mint_of_ne hm).symm

theorem mem_names_mint : m ∈ (d.mint n).names ↔ m ∈ d.names ∨ m = d.nextName n :=
  mem_names_reserve

theorem rules_mint : (d.mint n).rules m = d.rules m := rules_reserve

/-- Every name of a draft is the one that it is for, or was made up under a name
    that is as long at least. -/
def Tidy (root : String) (d : Draft) : Prop :=
  ∀ n ∈ d.names, n = root ∨
    ∃ parent k, n = madeUp parent k ∧ k < d.count parent ∧ root.length ≤ parent.length

theorem Tidy.length_le (hd : d.Tidy root) (hn : n ∈ d.names) : root.length ≤ n.length := by
  obtain rfl | ⟨parent, k, rfl, -, hle⟩ := hd n hn
  · exact Nat.le_refl _
  · exact Nat.le_trans hle (Nat.le_of_lt (length_lt_madeUp parent k))

/-- The next name to be made up under a name is a new one. -/
theorem Tidy.nextName_not_mem (hd : d.Tidy root) (hn : n ∈ d.names) : d.nextName n ∉ d.names := by
  intro hmem
  obtain hroot | ⟨parent, k, hnext, hk, -⟩ := hd _ hmem
  · -- It is longer than the name of the rule.
    have hlt : n.length < (d.nextName n).length := length_lt_madeUp n (d.count n)
    rw [hroot] at hlt
    exact absurd (hd.length_le hn) (Nat.not_le_of_lt hlt)
  · -- As many names were made up already, but not this one.
    obtain ⟨rfl, rfl⟩ := madeUp_inj (p := n) (k := d.count n) hnext
    exact Nat.lt_irrefl _ hk

theorem Tidy.emit (hd : d.Tidy root) (hn : n ∈ d.names) : (d.emit n rule).Tidy root := by
  intro m hm
  obtain rfl | ⟨parent, k, rfl, hk, hle⟩ := hd m ((mem_names_emit hn).1 hm)
  · exact .inl rfl
  · exact .inr ⟨parent, k, rfl, by rwa [count_emit], hle⟩

theorem Tidy.mint (hd : d.Tidy root) (hn : n ∈ d.names) : (d.mint n).Tidy root := by
  intro m hm
  rcases mem_names_mint.1 hm with hm | rfl
  · obtain rfl | ⟨parent, k, rfl, hk, hle⟩ := hd m hm
    · exact .inl rfl
    · exact .inr ⟨parent, k, rfl, Nat.lt_of_lt_of_le hk count_le_mint, hle⟩
  · refine .inr ⟨n, d.count n, rfl, ?_, hd.length_le hn⟩
    rw [count_mint_self]
    exact Nat.lt_succ_self _

end Draft

end Ramify.Ebnf
