import Ramify.Proofs.Ebnf.References

/-!
# Made-up names are new

Names are made up for each rule of an extended grammar on its own. Two rules can
nevertheless not make up the same name, whatever the names of the grammar look like,
unless one of them makes up a name of the grammar: what was made up tells its parent
and its number, and so do the parent, its own parent, and so on. Taken back far
enough, a name that two drafts have in common is the root of one of them.

* `Draft.Grown`: how the names of a draft have come about, which is kept while the
  draft goes on (`Draft.Continues.grown`);
* `Draft.Grown.disjoint`: what drafts for different names have in common;
* `Grammar.nodup_lowered`: no name comes twice in what a grammar is lowered to, if none
  that is made up is one of the grammar. This is all that has to be checked
  (`Grammar.fresh_unless_clash`).
-/

namespace Ramify.Ebnf

open Relation (TransGen)

/-! ### The names of a draft -/

namespace Draft

variable {d d₁ : Draft} {root n m parent : String} {rule : Flat.Rule}

/-- A name was made up in a draft: the counter of its parent has gone past it. -/
def Minted (d : Draft) (m : String) : Prop :=
  ∃ parent k, m = madeUp parent k ∧ k < d.count parent

theorem minted_emit : (d.emit n rule).Minted m ↔ d.Minted m := by
  simp only [Minted, count_emit]

theorem minted_mint : (d.mint n).Minted m ↔ d.Minted m ∨ m = d.nextName n := by
  constructor
  · rintro ⟨parent, k, rfl, hk⟩
    by_cases hparent : parent = n
    · subst hparent
      rw [count_mint_self] at hk
      rcases Nat.lt_succ_iff_lt_or_eq.1 hk with hk | rfl
      · exact .inl ⟨parent, k, rfl, hk⟩
      · exact .inr rfl
    · rw [count_mint_of_ne hparent] at hk
      exact .inl ⟨parent, k, rfl, hk⟩
  · rintro (⟨parent, k, rfl, hk⟩ | rfl)
    · exact ⟨parent, k, rfl, Nat.lt_of_lt_of_le hk count_le_mint⟩
    · exact ⟨n, d.count n, rfl, by rw [count_mint_self]; exact Nat.lt_succ_self _⟩

theorem reserve_of_mem_names (hn : n ∈ d.names) : d.reserve n = d := by
  obtain ⟨target, htarget, rfl⟩ := List.mem_map.1 hn
  rw [reserve, if_pos]
  exact List.any_eq_true.2 ⟨target, htarget, beq_self_eq_true _⟩

theorem nodup_names_reserve (h : d.names.Nodup) : (d.reserve n).names.Nodup := by
  rw [reserve]
  split
  · exact h
  · rename_i hany
    have hn : n ∉ d.names := fun hn => by
      obtain ⟨target, htarget, rfl⟩ := List.mem_map.1 hn
      exact hany (List.any_eq_true.2 ⟨target, htarget, beq_self_eq_true _⟩)
    rw [names, List.map_append]
    refine List.nodup_append.2 ⟨h, List.nodup_singleton n, fun m hm k hk => ?_⟩
    obtain rfl := List.mem_singleton.1 hk
    rintro rfl
    exact hn hm

/-- How the names of a draft have come about. -/
structure Grown (root : String) (d : Draft) : Prop where
  /-- No name has two places. -/
  nodup : d.names.Nodup
  /-- Names are made up under those of the draft, and each gets a place. -/
  places : ∀ parent k, k < d.count parent → parent ∈ d.names ∧ madeUp parent k ∈ d.names
  /-- All other names but the one of the rule are made up. -/
  born : ∀ n ∈ d.names, n = root ∨ d.Minted n

theorem Grown.emit (h : d.Grown root) (hn : n ∈ d.names) : (d.emit n rule).Grown root := by
  have hnames : (d.emit n rule).names = d.names := by rw [names_emit, reserve_of_mem_names hn]
  refine ⟨by rw [hnames]; exact h.nodup, fun parent k hk => ?_, fun m hm => ?_⟩
  · rw [count_emit] at hk
    rw [hnames]
    exact h.places parent k hk
  · rw [hnames] at hm
    exact (h.born m hm).imp_right minted_emit.2

theorem Grown.mint (h : d.Grown root) (hn : n ∈ d.names) : (d.mint n).Grown root where
  nodup := nodup_names_reserve (d := ⟨d.targets, (n, d.count n + 1) :: d.minted⟩) h.nodup
  places parent k hk := by
    rw [mem_names_mint, mem_names_mint]
    rcases minted_mint.1 ⟨parent, k, rfl, hk⟩ with ⟨parent', k', heq, hk'⟩ | hnext
    · obtain ⟨rfl, rfl⟩ := madeUp_inj heq
      exact ⟨.inl (h.places _ _ hk').1, .inl (h.places _ _ hk').2⟩
    · obtain ⟨rfl, -⟩ := madeUp_inj (q := n) (l := d.count n) hnext
      exact ⟨.inl hn, .inr hnext⟩
  born m hm := by
    rcases mem_names_mint.1 hm with hm | hm
    · exact (h.born m hm).imp_right fun hminted => minted_mint.2 (.inl hminted)
    · exact .inr (minted_mint.2 (.inr hm))

theorem Continues.grown (h : d.Continues d₁) (hd : d.Grown root) : d₁.Grown root := by
  induction h with
  | refl => exact hd
  | emit _ hn ih => exact ih.emit hn
  | mint _ hn ih => exact ih.mint hn

/-- Drafts for different names have no name in common, unless one of them has made up
    the name that the other one is for. -/
theorem Grown.disjoint (h : d.Grown n) (h₁ : d₁.Grown m) (hne : n ≠ m) (hn : ¬d₁.Minted n)
    (hm : ¬d.Minted m) : d.names.Disjoint d₁.names := by
  intro name
  induction hlength : name.length using Nat.strongRecOn generalizing name with
  | ind length ih =>
    intro hname hname₁
    subst hlength
    rcases h.born name hname with rfl | ⟨parent, k, rfl, hk⟩
    · exact (h₁.born name hname₁).elim hne hn
    · rcases h₁.born _ hname₁ with heq | ⟨parent₁, k₁, heq, hk₁⟩
      · exact hm ⟨parent, k, heq.symm, hk⟩
      · -- It is made up under the same parent in both, which is shorter.
        obtain ⟨rfl, rfl⟩ := madeUp_inj heq
        exact ih _ (length_lt_madeUp parent k) rfl (h.places _ _ hk).1 (h₁.places _ _ hk₁).1

end Draft

section Rule

variable {n m : String} {e : Expr}

theorem grown_lowerRule (n : String) (e : Expr) : (lowerRule n e).Grown n := by
  refine (lowerRule_continues n e).grown ⟨List.nodup_singleton n, fun parent k hk => ?_, ?_⟩
  · exact absurd hk (Nat.not_lt_zero k)
  · exact fun m hm => .inl (List.mem_singleton.1 hm)

/-- The name of a rule has the first place in its draft. -/
theorem exists_names_lowerRule (n : String) (e : Expr) : ∃ made, (lowerRule n e).names = n :: made := by
  have hcontinues := lowerRule_continues n e
  obtain ⟨made, hmade⟩ := hcontinues.names_prefix
  exact ⟨made, hmade.symm⟩

/-- The other places are those of the names that were made up. -/
theorem mem_tail_names_iff : m ∈ (lowerRule n e).names.tail ↔ (lowerRule n e).Minted m := by
  obtain ⟨made, hnames⟩ := exists_names_lowerRule n e
  have hgrown := grown_lowerRule n e
  have hnodup := hgrown.nodup
  rw [hnames, List.nodup_cons] at hnodup
  rw [hnames, List.tail_cons]
  constructor
  · intro hm
    refine (hgrown.born m ?_).resolve_left fun heq => hnodup.1 (heq ▸ hm)
    rw [hnames]
    exact List.mem_cons_of_mem _ hm
  · rintro ⟨parent, k, rfl, hk⟩
    obtain ⟨hparent, hplace⟩ := hgrown.places parent k hk
    rw [hnames] at hplace
    refine (List.mem_cons.1 hplace).resolve_left fun heq => ?_
    -- No name is made up under one that is shorter than that of the rule.
    have htidy : (lowerRule n e).Tidy n := (lowerRule_continues n e).tidy fun m hm =>
      .inl (List.mem_singleton.1 hm)
    have hlt := Nat.lt_of_le_of_lt (htidy.length_le hparent) (length_lt_madeUp parent k)
    rw [heq] at hlt
    exact Nat.lt_irrefl _ hlt

end Rule

theorem Draft.map_name_entries (d : Draft) : d.entries.map (·.name) = d.names := by
  rw [entries, names]
  split
  · rename_i hnil
    rw [hnil]
    rfl
  · rename_i hcons
    rw [hcons, List.map_cons, List.map_map, List.map_cons]
    rfl

theorem Draft.map_name_filter_synthetic (d : Draft) :
    (d.entries.filter (·.synthetic)).map (·.name) = d.names.tail := by
  rw [entries, names]
  split
  · rename_i hnil
    rw [hnil]
    rfl
  · rename_i hcons
    rw [hcons, List.filter_cons_of_neg Bool.false_ne_true, List.filter_eq_self.2, List.map_map]
    · rfl
    · intro entry hentry
      obtain ⟨target, -, rfl⟩ := List.mem_map.1 hentry
      rfl

/-! ### Grammars -/

namespace Grammar

variable {g : Grammar} {m : String}

/-- The names that are made up while a grammar is lowered, in the order in which they
    come in the result. -/
def mintedNames (g : Grammar) : List String :=
  g.rules.flatMap fun rule => (lowerRule rule.1 rule.2).names.tail

theorem mem_mintedNames_iff :
    m ∈ g.mintedNames ↔ ∃ rule ∈ g.rules, (lowerRule rule.1 rule.2).Minted m := by
  simp only [mintedNames, List.mem_flatMap, mem_tail_names_iff]

theorem map_name_lowered :
    g.lowered.map (·.name) = g.rules.flatMap fun rule => (lowerRule rule.1 rule.2).names := by
  simp only [lowered, List.map_flatMap, Draft.map_name_entries]

theorem clash?_eq : g.clash? = g.mintedNames.find? g.contains := by
  simp only [clash?, lowered, List.filter_flatMap, List.map_flatMap,
    Draft.map_name_filter_synthetic, mintedNames]

/-- No name comes twice if none that is made up is one of the grammar. -/
theorem nodup_lowered (h : ∀ m ∈ g.mintedNames, ¬g.contains m) :
    (g.lowered.map (·.name)).Nodup := by
  have hnew : ∀ rule ∈ g.rules, ∀ rule' ∈ g.rules, ¬(lowerRule rule.1 rule.2).Minted rule'.1 := by
    intro rule hrule rule' hrule' hminted
    refine h rule'.1 (mem_mintedNames_iff.2 ⟨rule, hrule, hminted⟩) ?_
    exact contains_iff.2 ⟨rule'.2, g.find?_eq_some_iff.2 hrule'⟩
  rw [map_name_lowered, List.nodup_flatMap]
  refine ⟨fun rule _ => (grown_lowerRule rule.1 rule.2).nodup, ?_⟩
  refine (List.pairwise_map.1 g.distinct).imp_of_mem fun {rule rule'} hrule hrule' hne => ?_
  exact (grown_lowerRule _ _).disjoint (grown_lowerRule _ _) hne (hnew rule' hrule' rule hrule)
    (hnew rule hrule rule' hrule')

theorem clash?_eq_none_iff : g.clash? = none ↔ ∀ m ∈ g.mintedNames, ¬g.contains m := by
  rw [clash?_eq, List.find?_eq_none]

/-- The clash that is found is the first one. -/
theorem clash?_eq_some_iff : g.clash? = some m ↔ ∃ before after,
    g.mintedNames = before ++ m :: after ∧ (∀ k ∈ before, ¬g.contains k) ∧ g.contains m := by
  rw [clash?_eq, List.find?_eq_some_iff_append]
  constructor
  · rintro ⟨hm, before, after, heq, hbefore⟩
    exact ⟨before, after, heq, by simpa using hbefore, hm⟩
  · rintro ⟨before, after, heq, hbefore, hm⟩
    exact ⟨hm, before, after, heq, by simpa using hbefore⟩

/-- The ways lowering a grammar can end, in the order in which it goes about. The
    analysis never finds a name repeated. -/
theorem flatten_cases (g : Grammar) :
    (∃ m, g.clash? = some m ∧ g.flatten = .error (.nameClash m)) ∨
    g.clash? = none ∧
      ((∃ m, Flat.Grammar.undefined? g.lowered = some m ∧ g.flatten = .error (.missingRule m)) ∨
      (∃ m, TransGen (Flat.BeginsWith g.lowered) m m ∧ g.flatten = .error (.leftRecursion m)) ∨
      ∃ f, g.flatten = .ok f) := by
  rw [flatten]
  split
  · rename_i m hm
    exact .inl ⟨m, hm, rfl⟩
  · rename_i hnone
    refine .inr ⟨hnone, ?_⟩
    have hunique := Flat.Grammar.repeated?_eq_none_iff.2 (nodup_lowered (clash?_eq_none_iff.1 hnone))
    rcases Flat.Grammar.analyse_cases g.lowered with ⟨e, he, -⟩ | ⟨-, hundef | ⟨-, hcircle | ⟨-, hok⟩⟩⟩
    · cases hunique.symm.trans he
    · exact .inl hundef
    · exact .inr (.inl hcircle)
    · exact .inr (.inr hok)

/-- The made-up names are those that the counters went past. If none of them is a name
    of the grammar, they are new: no name comes twice after lowering, and the analysis
    finds none repeated. So lowering never reports a repeated name, and it reports a clash
    if and only if a made-up name is one of the grammar, namely the first such name. -/
theorem fresh_unless_clash (g : Grammar) :
    (∀ m, m ∈ g.mintedNames ↔ ∃ rule ∈ g.rules, (lowerRule rule.1 rule.2).Minted m) ∧
    ((∀ m ∈ g.mintedNames, ¬g.contains m) →
      (g.lowered.map (·.name)).Nodup ∧ Flat.Grammar.repeated? [] g.lowered = none) ∧
    (∀ m, g.flatten ≠ .error (.duplicateRule m)) ∧
    ∀ m, g.flatten = .error (.nameClash m) ↔ ∃ before after,
      g.mintedNames = before ++ m :: after ∧ (∀ k ∈ before, ¬g.contains k) ∧ g.contains m := by
  refine ⟨fun m => mem_mintedNames_iff, fun hnew => ?_, fun m => ?_, fun m => ?_⟩
  · have hnodup := nodup_lowered hnew
    exact ⟨hnodup, Flat.Grammar.repeated?_eq_none_iff.2 hnodup⟩
  · rcases g.flatten_cases with ⟨n, -, h⟩ | ⟨-, ⟨n, -, h⟩ | ⟨n, -, h⟩ | ⟨f, h⟩⟩
    all_goals
      rw [h]
      exact nofun
  · rw [← clash?_eq_some_iff]
    rcases g.flatten_cases with ⟨n, hclash, h⟩ | ⟨hclash, ⟨n, -, h⟩ | ⟨n, -, h⟩ | ⟨f, h⟩⟩
    all_goals simp [h, hclash]

/-- Names that look as if they had been made up under `A`, but have not. -/
def lookalikes : Grammar :=
  ⟨[("A", .seq [.symbol (.terminal ⟨'a', []⟩),
      .optional (.seq [.symbol (.nonTerminal "A_1"), .many (.symbol (.terminal ⟨'b', []⟩))])]),
    ("A_1", .seq [.optional (.symbol (.terminal ⟨'c', []⟩)), .symbol (.nonTerminal "A_0_")]),
    ("A_0_", .choice [.many (.symbol (.terminal ⟨'d', []⟩))])], by decide⟩

/-- A name that is made up under `S` as well. -/
def taken : Grammar :=
  ⟨[("S", .seq [.symbol (.terminal ⟨'a', []⟩), .optional (.symbol (.terminal ⟨'b', []⟩))]),
    ("S_0", .symbol (.terminal ⟨'c', []⟩))], by decide⟩

theorem fresh_unless_clash_lookalikes :
    lookalikes.mintedNames = ["A_0", "A_0_0", "A_1_0", "A_0__0"] ∧
    (∀ m ∈ lookalikes.mintedNames, ¬lookalikes.contains m) ∧
    (lookalikes.lowered.map (·.name)).Nodup ∧
    Flat.Grammar.repeated? [] lookalikes.lowered = none ∧
    taken.flatten = .error (.nameClash "S_0") := by
  have hnew : ∀ m ∈ lookalikes.mintedNames, ¬lookalikes.contains m := by decide
  obtain ⟨hnodup, hunique⟩ := (fresh_unless_clash lookalikes).2.1 hnew
  refine ⟨by decide, hnew, hnodup, hunique, ?_⟩
  refine ((fresh_unless_clash taken).2.2.2 "S_0").2 ⟨[], [], by decide, ?_, by decide⟩
  exact fun k hk => absurd hk List.not_mem_nil

end Grammar

end Ramify.Ebnf
