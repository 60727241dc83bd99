import Ramify.Proofs.Flat.Follow
import Ramify.Proofs.Tree.Text

/-!
# Derivations

What it means that symbols derive a part of a text by the rules of a grammar
(`Derives`). A derivation leads from one place of the text to another; places are
given by what is left of the text there. It is recorded by a tree for each
symbol.

The analysis decides by one character what to derive next, and does not look
at the end of input. That is enough for trees in which no empty branch relies
on the end of input (`Tree.Grounded`): what they begin with is found by the
FIRST-sets (`Derives.starts`), and what comes behind by the FOLLOW-sets
(`Derives.heads`).
-/

namespace Ramify

namespace Tree

variable {n : String} {rule : Flat.Rule} {t : Tree} {us : List Tree}

/-- No branch without text has the end of input below it. -/
def Grounded (t : Tree) : Prop :=
  ∀ n rule us, Occurs (.branch n rule us) t → (branch n rule us).text = "" →
    ¬Occurs (.leaf .endOfInput) (.branch n rule us)

theorem grounded_leaf (l : Leaf) : Grounded (leaf l) := by
  intro n rule us hocc
  cases occurs_leaf.1 hocc

theorem grounded_branch_iff : Grounded (branch n rule us) ↔
    ((branch n rule us).text = "" → ¬Occurs (.leaf .endOfInput) (branch n rule us)) ∧
      ∀ u ∈ us, Grounded u := by
  constructor
  · intro h
    exact ⟨h n rule us .whole, fun u hu n' rule' us' hocc => h n' rule' us' (.child hu hocc)⟩
  · rintro ⟨hwhole, hall⟩ n' rule' us' hocc
    rcases occurs_branch.1 hocc with heq | ⟨u, hu, hocc⟩
    · cases heq
      exact hwhole
    · exact hall u hu n' rule' us' hocc

theorem grounded_of_not_occurs (h : ¬Occurs (.leaf .endOfInput) t) : Grounded t :=
  fun _ _ _ hocc _ hend => h (hend.trans hocc)

end Tree

namespace Flat

/-- Symbols derive trees from one place of a text to another. -/
inductive Derives (g : Grammar) : List Symbol → List Tree → List Char → List Char → Prop
  | nil {i : List Char} : Derives g [] [] i i
  | endOfInput {α : List Symbol} {ts : List Tree} {r : List Char} : Derives g α ts [] r →
    Derives g (.endOfInput :: α) (.leaf .endOfInput :: ts) [] r
  | charClass {k : CharClass} {c : Char} {α : List Symbol} {ts : List Tree} {i r : List Char} :
    k.accepts (some c) → Derives g α ts i r →
    Derives g (.charClass k :: α) (.leaf (.char k c) :: ts) (c :: i) r
  | terminal {t : Terminal} {α : List Symbol} {ts : List Tree} {i r : List Char} :
    Derives g α ts i r → Derives g (.terminal t :: α) (.leaf (.terminal t) :: ts) (t.chars ++ i) r
  | nonTerminal {n : String} {rule : Rule} {α : List Symbol} {us ts : List Tree}
      {i j r : List Char} :
    Rewrites g.entries n rule → Derives g rule.symbols us i j → Derives g α ts j r →
    Derives g (.nonTerminal n :: α) (.branch n rule us :: ts) i r

namespace Derives

variable {g : Grammar} {α β : List Symbol} {ts us : List Tree} {i j r : List Char}

theorem append (h : Derives g α ts i j) (h' : Derives g β us j r) :
    Derives g (α ++ β) (ts ++ us) i r := by
  induction h with
  | nil => exact h'
  | endOfInput _ ih => exact .endOfInput (ih h')
  | charClass hk _ ih => exact .charClass hk (ih h')
  | terminal _ ih => exact .terminal (ih h')
  | nonTerminal hrule hus _ _ ih => exact .nonTerminal hrule hus (ih h')

theorem length_eq (h : Derives g α ts i r) : ts.length = α.length := by
  induction h with
  | nil => rfl
  | endOfInput _ ih | charClass _ _ ih | terminal _ ih | nonTerminal _ _ _ _ ih =>
    rw [List.length_cons, List.length_cons, ih]

/-- The trees cover what was derived. -/
theorem covers (h : Derives g α ts i r) : Tree.Covers ts i r := by
  induction h with
  | nil => exact .nil
  | endOfInput _ ih => exact .endOfInput ih
  | charClass _ _ ih => exact ih.char
  | terminal _ ih => exact ih.terminal
  | nonTerminal _ _ _ ihu ih => exact .branch ihu ih

/-! ### Deriving nothing -/

/-- Symbols that derive nothing, without the end of input, vanish. -/
theorem vanishes (h : Derives g α ts i r) (hir : i.length ≤ r.length)
    (hend : ∀ t ∈ ts, ¬Tree.Occurs (.leaf .endOfInput) t) : Vanishes g.entries α := by
  induction h with
  | nil => exact .nil
  | endOfInput => exact absurd .whole (hend _ List.mem_cons_self)
  | charClass _ h =>
    have hle := h.covers.length_le
    rw [List.length_cons] at hir
    omega
  | terminal h =>
    have hle := h.covers.length_le
    rw [List.length_append, Terminal.chars, List.length_cons] at hir
    omega
  | nonTerminal hrule hu ht ihu iht =>
    obtain ⟨hbranch, hrest⟩ := List.forall_mem_cons.1 hend
    have hle := hu.covers.length_le
    have hle' := ht.covers.length_le
    refine .cons hrule (ihu (by omega) fun u hu hocc => ?_) (iht (by omega) hrest)
    exact hbranch (.child hu hocc)

/-- Symbols that vanish derive nothing, without the end of input. -/
theorem of_vanishes (h : Vanishes g.entries α) (i : List Char) :
    ∃ ts, Derives g α ts i i ∧ ∀ t ∈ ts, ¬Tree.Occurs (.leaf .endOfInput) t := by
  induction h with
  | nil => exact ⟨[], .nil, fun t ht => absurd ht List.not_mem_nil⟩
  | @cons n rule α hrule _ _ ihu iht =>
    obtain ⟨us, hus, hu⟩ := ihu
    obtain ⟨ts, hts, ht⟩ := iht
    refine ⟨.branch n rule us :: ts, .nonTerminal hrule hus hts, ?_⟩
    refine List.forall_mem_cons.2 ⟨fun hocc => ?_, ht⟩
    rcases Tree.occurs_branch.1 hocc with heq | ⟨u, hmem, hocc⟩
    · cases heq
    · exact hu u hmem hocc

/-! ### What derivations begin with -/

section Made

variable {memo : Memo} (hg : g.Made memo)

include hg

/-- A branch that consumes nothing stands for a nullable name, if it does not
    rely on the end of input. -/
theorem isNullable {n : String} {rule : Rule} (hrule : Rewrites g.entries n rule)
    (h : Derives g rule.symbols us i j) (hij : i = j)
    (hend : ¬Tree.Occurs (.leaf .endOfInput) (.branch n rule us)) : g.isNullable n := by
  refine hg.isNullable_iff.2 (.cons hrule (h.vanishes (Nat.le_of_eq ?_) fun u hu hocc => ?_) .nil)
  · rw [hij]
  · exact hend (.child hu hocc)

/-- What is consumed begins with a character of the FIRST-set. -/
theorem starts (h : Derives g α ts i r) {c : Char} {rest : List Char} (hi : i = c :: rest)
    (hne : i ≠ r) : Starts g.entries g.isNullable α c := by
  induction h with
  | nil => exact absurd rfl hne
  | endOfInput => cases hi
  | charClass hk =>
    cases hi
    exact .charClass hk
  | terminal =>
    cases hi
    exact .terminal
  | @nonTerminal n rule α us ts i j r hrule hu _ ihu iht =>
    by_cases hij : i = j
    · -- Nothing was consumed, and there is more to come: no end of input yet.
      have hne' : j ≠ [] := by
        rw [← hij, hi]
        exact List.cons_ne_nil c rest
      refine .behind (hu.isNullable hg hrule hij fun hocc => ?_) ?_
      · rcases Tree.occurs_branch.1 hocc with heq | ⟨u, hmem, hocc⟩
        · cases heq
        · exact hne' (hu.covers.eq_nil_of_occurs hmem hocc)
      · exact iht (hij ▸ hi) (hij ▸ hne)
    · exact .name hrule (ihu hi hij)

/-- A name has a character in its FIRST-set that one of its rules can begin
    with. -/
theorem exists_first {n : String} {rule : Rule} {c : Char} (hrule : Rewrites g.entries n rule)
    (hc : Starts g.entries g.isNullable rule.symbols c) :
    ∃ set, g.first? n = some set ∧ set.admits (some c) := by
  obtain ⟨p, hp, hmem⟩ := Grammar.rewrites_iff.1 hrule
  obtain ⟨hsum, hsets⟩ := hg.opens hp
  refine ⟨p.firsts.whole, by rw [Grammar.first?, hp, Option.map_some], ?_⟩
  rw [hsum, LookaheadSet.admits_sum, Memo.exists_admits_iff hsets]
  exact ⟨c, rfl, rule, hmem, hc⟩

/-- Behind a name, symbols either begin with what is there, or they are all
    nullable and consume nothing. -/
theorem heads (h : Derives g α ts i r) (hground : ∀ t ∈ ts, t.Grounded) :
    Heads g α i.head? ∨ AllNullable g α ∧ i = r := by
  induction h with
  | nil => exact .inr ⟨fun s hs => absurd hs List.not_mem_nil, rfl⟩
  | endOfInput => exact .inl .endOfInput
  | charClass hk => exact .inl (.charClass hk)
  | terminal => exact .inl .terminal
  | @nonTerminal n rule α us ts i j r hrule hu _ _ iht =>
    obtain ⟨hbranch, hrest⟩ := List.forall_mem_cons.1 hground
    by_cases hij : i = j
    · have hn : g.isNullable n :=
        hu.isNullable hg hrule hij (hbranch n rule us .whole (hu.covers.text_eq_empty_iff.2 hij))
      rw [hij]
      rcases iht hrest with h | ⟨hall, heq⟩
      · exact .inl (.behind hn h)
      · exact .inr ⟨allNullable_cons.2 ⟨⟨n, rfl, hn⟩, hall⟩, heq⟩
    · left
      cases i with
      | nil =>
        exact absurd hu.covers.eq_nil.symm hij
      | cons c rest =>
        obtain ⟨set, hset, hc⟩ := exists_first hg hrule (hu.starts hg rfl hij)
        exact .name hset hc

/-- What follows the owner of a rule, or a name in it, follows the names in
    front of it. -/
theorem follows {start : Symbol} {p n : String} (hp : Precedes g p n α) (h : Derives g α ts i r)
    (hground : ∀ t ∈ ts, t.Grounded) (hfollow : Follows g start p r.head?) :
    Follows g start n i.head? := by
  rcases h.heads hg hground with hheads | ⟨hall, rfl⟩
  · exact .direct hp hheads
  · exact .flow hp hall hfollow

end Made

end Derives

end Flat

end Ramify
