import Ramify.Proofs.Tree.Text

/-!
# Equality up to the names of classes

Symbols, rules and trees are compared without looking at what their character classes
accept. So two symbols are equal just if they are the same without that (`Symbol.bare`), and
two rules if all their symbols are. Trees are compared node by node; what is below them can
be compared in the order of the trees, one after the other (`Tree.beqAll_cons`).
-/

namespace Ramify

theorem CharClass.beq_iff {k k' : CharClass} : (k == k') = true ↔ k.name = k'.name :=
  beq_iff_eq (a := k.name) (b := k'.name)

/-- A symbol, whatever its class accepts. -/
def Symbol.bare : Symbol → Symbol
  | .charClass k => .charClass ⟨k.name, fun _ => false⟩
  | s => s

theorem Symbol.beq_iff {s s' : Symbol} : (s == s') = true ↔ s.bare = s'.bare := by
  change Symbol.beq s s' = true ↔ _
  cases s <;> cases s' <;> simp [Symbol.beq, Symbol.bare, CharClass.beq_iff]

namespace Flat.Rule

variable {r r' : Rule}

theorem beq_iff : (r == r') = true ↔ r.symbols.map Symbol.bare = r'.symbols.map Symbol.bare := by
  change (r.symbols == r'.symbols) = true ↔ _
  generalize r.symbols = α, r'.symbols = β
  induction α generalizing β with
  | nil => cases β <;> simp
  | cons s α ih =>
    cases β with
    | nil => simp
    | cons s' β =>
      rw [List.cons_beq_cons, Bool.and_eq_true, Symbol.beq_iff, ih, List.map_cons, List.map_cons,
        List.cons.injEq]

@[simp] theorem beq_self (r : Rule) : (r == r) = true := beq_iff.2 rfl

theorem beq_comm : (r == r') = (r' == r) := by
  rw [Bool.eq_iff_iff, beq_iff, beq_iff]
  exact eq_comm

end Flat.Rule

@[simp] theorem Leaf.beq_self (l : Leaf) : (l == l) = true := by
  change Leaf.beq l l = true
  cases l <;> simp [Leaf.beq, CharClass.beq_iff]

namespace Tree

variable {t u : Tree} {ts us : List Tree}

@[simp] theorem sameNode_self (t : Tree) : sameNode t t = true := by
  cases t <;> simp [sameNode]

theorem beqAll_append (xs ys : List (Tree × Tree)) :
    beqAll (xs ++ ys) = (beqAll xs && beqAll ys) := by
  induction xs using beqAll.induct with
  | case1 =>
    rw [List.nil_append]
    rw [beqAll.eq_def []]
    rfl
  | case2 t u rest ih =>
    rw [List.cons_append, beqAll, beqAll, ← List.append_assoc, ih, Bool.and_assoc]

/-- Two lists of trees are compared one pair after the other, each with all that is below. -/
theorem beqAll_cons : beqAll ((t :: ts).zip (u :: us)) =
    (sameNode t u && beqAll (t.children.zip u.children) && beqAll (ts.zip us)) := by
  rw [List.zip_cons_cons, beqAll, beqAll_append, Bool.and_assoc]

theorem beqAll_self (h : ∀ t ∈ ts, (t == t) = true) : beqAll (ts.zip ts) = true := by
  induction ts with
  | nil => rw [List.zip_nil_left, beqAll]
  | cons t ts ih =>
    obtain ⟨ht, hts⟩ := List.forall_mem_cons.1 h
    have hpair : beqAll [(t, t)] = true := ht
    rw [List.zip_cons_cons, ← List.singleton_append, beqAll_append, hpair, ih hts]
    rfl

/-- Every tree is equal to itself. -/
@[simp] theorem beq_self (t : Tree) : (t == t) = true := by
  change beqAll ([t].zip [t]) = true
  induction t with
  | leaf l =>
    rw [beqAll_cons, sameNode_self, children, List.zip_nil_left, beqAll]
    rfl
  | branch n rule ts ih =>
    rw [beqAll_cons, sameNode_self, children, beqAll_self ih, List.zip_nil_left, beqAll]
    rfl

end Tree

end Ramify
