import Ramify.Proofs.Ebnf.Lowering
import Ramify.Proofs.Flat.Recursion
import Ramify.Proofs.Parse.Verdict

/-!
# What references are resolved to

References are checked after lowering, and lowering leaves out none of them
(`lower_refers`). So every name that an extended grammar refers to has rules once
the grammar is flat, and so has the start symbol of a parser that is built from it.

Yet the names that were made up have rules by then, too. A name without a rule of
its own is not reported if it happens to be one of them; nothing else goes
unnoticed (`Grammar.references_resolve`). Made-up names are all of the form
`parent_k`, and differ from those of the grammar.
-/

namespace Ramify.Ebnf

/-! ### Drafts that go on -/

namespace Draft

variable {d d₁ d₂ : Draft} {root n m : String} {rule : Flat.Rule}

/-- A draft goes on to another one: names that have a place get rules, and names
    are made up under them. -/
inductive Continues (d : Draft) : Draft → Prop
  | refl : Continues d d
  | emit {d₁ : Draft} {n : String} {rule : Flat.Rule} : Continues d d₁ → n ∈ d₁.names →
    Continues d (d₁.emit n rule)
  | mint {d₁ : Draft} {n : String} : Continues d d₁ → n ∈ d₁.names → Continues d (d₁.mint n)

theorem Continues.trans (h : d.Continues d₁) (h' : d₁.Continues d₂) : d.Continues d₂ := by
  induction h' with
  | refl => exact h
  | emit _ hn ih => exact ih.emit hn
  | mint _ hn ih => exact ih.mint hn

theorem names_prefix_reserve : d.names <+: (d.reserve n).names := by
  rw [reserve]
  split
  · exact List.prefix_rfl
  · simp [names]

theorem names_prefix_mint : d.names <+: (d.mint n).names :=
  names_prefix_reserve (d := ⟨d.targets, (n, d.count n + 1) :: d.minted⟩)

theorem nextName_mem_names_mint : d.nextName n ∈ (d.mint n).names := mem_names_mint.2 (.inr rfl)

/-- Names keep their places, and new ones come behind them. -/
theorem Continues.names_prefix (h : d.Continues d₁) : d.names <+: d₁.names := by
  induction h with
  | refl => exact List.prefix_rfl
  | emit _ _ ih =>
    rw [names_emit]
    exact ih.trans names_prefix_reserve
  | mint _ _ ih => exact ih.trans names_prefix_mint

theorem Continues.mem_names (h : d.Continues d₁) (hn : n ∈ d.names) : n ∈ d₁.names :=
  h.names_prefix.subset hn

theorem Continues.emit_of_mem (h : d.Continues d₁) (hn : n ∈ d.names) :
    d.Continues (d₁.emit n rule) :=
  h.emit (h.mem_names hn)

theorem Continues.tidy (h : d.Continues d₁) (hd : d.Tidy root) : d₁.Tidy root := by
  induction h with
  | refl => exact hd
  | emit _ hn ih => exact ih.emit hn
  | mint _ hn ih => exact ih.mint hn

/-- A rule of a draft refers to a name. -/
def Refers (d : Draft) (m : String) : Prop :=
  ∃ n, ∃ rule ∈ d.rules n, .nonTerminal m ∈ rule.symbols

theorem refers_emit_of_mem (hm : .nonTerminal m ∈ rule.symbols) : (d.emit n rule).Refers m := by
  refine ⟨n, rule, ?_, hm⟩
  rw [rules_emit]
  exact List.mem_append_right _ List.mem_cons_self

theorem Refers.emit (h : d.Refers m) : (d.emit n rule).Refers m := by
  obtain ⟨k, rule', hrule', hm⟩ := h
  refine ⟨k, rule', ?_, hm⟩
  by_cases hk : k = n
  · subst hk
    rw [rules_emit]
    exact List.mem_append_left _ hrule'
  · rwa [rules_emit_of_ne hk]

theorem Refers.mint (h : d.Refers m) : (d.mint n).Refers m := by
  simpa only [Refers, rules_mint] using h

theorem Continues.refers (h : d.Continues d₁) (hm : d.Refers m) : d₁.Refers m := by
  induction h with
  | refl => exact hm
  | emit _ _ ih => exact ih.emit
  | mint _ _ ih => exact ih.mint

end Draft

/-! ### Lowering goes on with a draft -/

variable {target n m : String} {e : Expr} {d : Draft}

open Draft (nextName_mem_names_mint)

mutual

theorem lower_continues (target : String) (e : Expr) (d : Draft) (ht : target ∈ d.names) :
    d.Continues (lower target e d) := by
  cases e with
  | symbol s =>
    rw [lower]
    exact .emit .refl ht
  | choice variants =>
    rw [lower]
    exact lowerVariants_continues target variants d ht
  | many body =>
    rw [lower]
    split
    · exact (Draft.Continues.refl.emit_of_mem ht).emit_of_mem ht
    · exact ((lower_aside target body d ht).emit_of_mem ht).emit_of_mem ht
  | optional body =>
    rw [lower]
    exact (lower_continues target body d ht).emit_of_mem ht
  | seq parts =>
    rw [lower]
    exact (lowerParts_continues target parts d ht).emit_of_mem ht
termination_by (sizeOf e, 0)

/-- What is lowered under a name of its own. -/
theorem lower_aside (target : String) (e : Expr) (d : Draft) (ht : target ∈ d.names) :
    d.Continues (lower (d.nextName target) e (d.mint target)) :=
  (Draft.Continues.mint .refl ht).trans (lower_continues _ e _ nextName_mem_names_mint)
termination_by (sizeOf e, 1)

theorem lowerVariants_continues (target : String) (es : List Expr) (d : Draft)
    (ht : target ∈ d.names) : d.Continues (lowerVariants target es d) := by
  cases es with
  | nil =>
    rw [lowerVariants]
    exact .refl
  | cons e es =>
    rw [lowerVariants]
    split
    · have he : d.Continues ((lower (d.nextName target) e (d.mint target)).emit target
          ⟨[.nonTerminal (d.nextName target)]⟩) := (lower_aside target e d ht).emit_of_mem ht
      exact he.trans (lowerVariants_continues target es _ (he.mem_names ht))
    · have he := lower_continues target e d ht
      exact he.trans (lowerVariants_continues target es _ (he.mem_names ht))
termination_by (sizeOf es, 0)

theorem lowerParts_continues (target : String) (es : List Expr) (d : Draft)
    (ht : target ∈ d.names) : d.Continues (lowerParts target es d).2 := by
  cases es with
  | nil =>
    rw [lowerParts]
    exact .refl
  | cons e es =>
    rw [lowerParts]
    split
    · exact lowerParts_continues target es d ht
    · have he := lower_aside target e d ht
      exact he.trans (lowerParts_continues target es _ (he.mem_names ht))
termination_by (sizeOf es, 0)

end

/-! ### No reference is lost -/

theorem Expr.mem_references_symbol {s : Symbol} :
    m ∈ (Expr.symbol s).references ↔ s = .nonTerminal m := by
  cases s <;> simp [references, Symbol.name?, eq_comm]

open Draft (Refers refers_emit_of_mem)

mutual

/-- The rules of an expression refer to all names that it refers to. -/
theorem lower_refers (target : String) (e : Expr) (d : Draft) (ht : target ∈ d.names)
    (hm : m ∈ e.references) : (lower target e d).Refers m := by
  cases e with
  | symbol s =>
    rw [lower]
    obtain rfl := Expr.mem_references_symbol.1 hm
    exact refers_emit_of_mem List.mem_cons_self
  | choice variants =>
    rw [lower]
    exact lowerVariants_refers target variants d ht hm
  | many body =>
    rw [lower]
    split
    · rename_i s hs
      obtain rfl := Expr.symbol?_eq_some_iff.1 hs
      obtain rfl := Expr.mem_references_symbol.1 hm
      exact (refers_emit_of_mem List.mem_cons_self).emit
    · exact (lower_refers _ body _ nextName_mem_names_mint hm).emit.emit
  | optional body =>
    rw [lower]
    exact (lower_refers target body d ht hm).emit
  | seq parts =>
    rw [lower]
    obtain hm | hm := lowerParts_refers target parts d ht hm
    · exact refers_emit_of_mem hm
    · exact hm.emit
termination_by sizeOf e

theorem lowerVariants_refers (target : String) (es : List Expr) (d : Draft)
    (ht : target ∈ d.names) (hm : m ∈ Expr.referencesAll es) :
    (lowerVariants target es d).Refers m := by
  cases es with
  | nil => exact absurd hm List.not_mem_nil
  | cons e es =>
    rw [lowerVariants]
    split
    · have he : d.Continues ((lower (d.nextName target) e (d.mint target)).emit target
          ⟨[.nonTerminal (d.nextName target)]⟩) := (lower_aside target e d ht).emit_of_mem ht
      obtain hm | hm := List.mem_append.1 hm
      · -- What comes after a variant leaves its references alone.
        refine (lowerVariants_continues target es _ (he.mem_names ht)).refers ?_
        exact (lower_refers _ e _ nextName_mem_names_mint hm).emit
      · exact lowerVariants_refers target es _ (he.mem_names ht) hm
    · have he := lower_continues target e d ht
      obtain hm | hm := List.mem_append.1 hm
      · refine (lowerVariants_continues target es _ (he.mem_names ht)).refers ?_
        exact lower_refers target e d ht hm
      · exact lowerVariants_refers target es _ (he.mem_names ht) hm
termination_by sizeOf es

/-- A part that is a symbol stays in the sequence, and all others refer to what
    they refer to under a name of their own. -/
theorem lowerParts_refers (target : String) (es : List Expr) (d : Draft) (ht : target ∈ d.names)
    (hm : m ∈ Expr.referencesAll es) :
    .nonTerminal m ∈ (lowerParts target es d).1 ∨ (lowerParts target es d).2.Refers m := by
  cases es with
  | nil => exact absurd hm List.not_mem_nil
  | cons e es =>
    rw [lowerParts]
    split
    · rename_i s hs
      obtain rfl := Expr.symbol?_eq_some_iff.1 hs
      obtain hm | hm := List.mem_append.1 hm
      · obtain rfl := Expr.mem_references_symbol.1 hm
        exact .inl List.mem_cons_self
      · exact (lowerParts_refers target es d ht hm).imp_left (List.mem_cons_of_mem _)
    · have he := lower_aside target e d ht
      obtain hm | hm := List.mem_append.1 hm
      · refine .inr ((lowerParts_continues target es _ (he.mem_names ht)).refers ?_)
        exact lower_refers _ e _ nextName_mem_names_mint hm
      · exact (lowerParts_refers target es _ (he.mem_names ht) hm).imp_left
          (List.mem_cons_of_mem _)
termination_by sizeOf es

end

/-! ### Entries and grammars -/

theorem Draft.Refers.mem_references (h : d.Refers m) :
    m ∈ d.entries.flatMap Flat.Entry.references := by
  obtain ⟨n, rule, hrule, hm⟩ := h
  have hn : n ∈ d.names := by
    by_contra hn
    rw [Draft.rules_of_not_mem_names hn] at hrule
    exact absurd hrule List.not_mem_nil
  obtain ⟨entry, hentry, -, hrules⟩ := Draft.mem_entries hn
  refine List.mem_flatMap.2 ⟨entry, hentry, List.mem_flatMap.2 ⟨rule, hrules ▸ hrule, ?_⟩⟩
  exact List.mem_filterMap.2 ⟨.nonTerminal m, hm, rfl⟩

theorem lowerRule_continues (n : String) (e : Expr) :
    (Draft.reserve n ⟨[], []⟩).Continues (lowerRule n e) :=
  lower_continues n e _ (Draft.mem_names_reserve.2 (.inr rfl))

/-- The entries of a rule: the first one has its name, and the names of all others
    that are not the same are made up. -/
theorem entry_of_lowerRule {entry : Flat.Entry} (h : entry ∈ (lowerRule n e).entries) :
    (entry.synthetic = false ∧ entry.name = n) ∨
      (entry.synthetic = true ∧ (entry.name = n ∨ ∃ parent k, entry.name = madeUp parent k)) := by
  have hcontinues := lowerRule_continues n e
  have htidy : (lowerRule n e).Tidy n :=
    hcontinues.tidy fun m hm => .inl ((Draft.mem_names_reserve.1 hm).resolve_left List.not_mem_nil)
  obtain ⟨names, hnames⟩ := hcontinues.names_prefix
  rw [Draft.entries] at h
  split at h
  · exact absurd h List.not_mem_nil
  · rename_i name rules made htargets
    have hhead : name :: made.map (·.1) = n :: names := by
      have hmap : (lowerRule n e).names = name :: made.map (·.1) := by
        rw [Draft.names, htargets, List.map_cons]
      rw [← hmap, ← hnames]
      rfl
    obtain rfl | hmade := List.mem_cons.1 h
    · exact .inl ⟨rfl, (List.cons.inj hhead).1⟩
    · obtain ⟨target, htarget, rfl⟩ := List.mem_map.1 hmade
      have hmem : target.1 ∈ (lowerRule n e).names := by
        rw [Draft.names, htargets]
        exact List.mem_map_of_mem (List.mem_cons_of_mem _ htarget)
      refine .inr ⟨rfl, (htidy _ hmem).imp_right ?_⟩
      rintro ⟨parent, k, hname, -⟩
      exact ⟨parent, k, hname⟩

namespace Grammar

variable {g : Grammar} {f : Flat.Grammar}

/-- What a name of an extended grammar is resolved to: its rule, or the rules of
    a name of the same spelling that lowering has made up. -/
def Resolves (g : Grammar) (f : Flat.Grammar) (n : String) : Prop :=
  f.contains n ∧ (g.contains n ∧ ¬f.isSynthetic n ∨
    ¬g.contains n ∧ f.isSynthetic n ∧ ∃ parent k, n = madeUp parent k)

theorem entry_of_flatten {entry : Flat.Entry} (h : g.flatten = .ok f) (he : entry ∈ f.entries) :
    (entry.synthetic = false ∧ g.contains entry.name) ∨
      (entry.synthetic = true ∧ ¬g.contains entry.name ∧
        ∃ parent k, entry.name = madeUp parent k) := by
  rw [Flat.Grammar.entries_of_flatten h] at he
  have hclash : g.clash? = none := by
    rw [flatten] at h
    split at h
    · cases h
    · assumption
  obtain ⟨⟨n, e⟩, hrule, hentry⟩ := List.mem_flatMap.1 he
  have hn : g.contains n := contains_iff.2 ⟨e, g.find?_eq_some_iff.2 hrule⟩
  obtain ⟨hplain, rfl⟩ | ⟨hmade, hname⟩ := entry_of_lowerRule hentry
  · exact .inl ⟨hplain, hn⟩
  · have hnew : ¬g.contains entry.name := by
      refine List.find?_eq_none.1 hclash entry.name (List.mem_map_of_mem ?_)
      exact List.mem_filter.2 ⟨he, hmade⟩
    exact .inr ⟨hmade, hnew, hname.resolve_left fun hroot => hnew (hroot ▸ hn)⟩

/-- A name of the flat grammar is one of the extended grammar, or made up. -/
theorem resolves_of_contains (h : g.flatten = .ok f) (hn : f.contains n) : g.Resolves f n := by
  refine ⟨hn, ?_⟩
  rw [Flat.Grammar.contains, Option.isSome_iff_exists] at hn
  obtain ⟨p, hp⟩ := hn
  obtain ⟨hmem, rfl⟩ := f.find?_eq_some_iff.1 hp
  have hsynthetic : f.isSynthetic p.name = p.synthetic := by
    rw [Flat.Grammar.isSynthetic, hp, Option.any_some]
  rw [hsynthetic]
  obtain ⟨hplain, hin⟩ | ⟨hmade, hnew, hname⟩ := entry_of_flatten h (List.mem_map_of_mem hmem)
  · exact .inl ⟨hin, by simp [hplain]⟩
  · exact .inr ⟨hnew, hmade, hname⟩

/-- The analysis has seen all references of an extended grammar. -/
theorem contains_of_flatten {rule : String × Expr} (h : g.flatten = .ok f) (hrule : rule ∈ g.rules)
    (hm : m ∈ rule.2.references) : f.contains m := by
  obtain ⟨memo, hmade⟩ := (Flat.Grammar.Analysed.of_flatten h).made
  have href : (lowerRule rule.1 rule.2).Refers m :=
    lower_refers _ _ _ (Draft.mem_names_reserve.2 (.inr rfl)) hm
  obtain ⟨entry, hentry, hmem⟩ := List.mem_flatMap.1 href.mem_references
  have hlowered : entry ∈ f.entries := by
    rw [Flat.Grammar.entries_of_flatten h]
    exact List.mem_flatMap.2 ⟨rule, hrule, hentry⟩
  rw [Flat.Grammar.contains_iff, ← Flat.Grammar.map_name_entries]
  exact Flat.Grammar.undefined?_eq_none_iff.1 hmade.defined m
    (List.mem_flatMap.2 ⟨entry, hlowered, hmem⟩)

/-- Whatever an extended grammar refers to, and whatever a parser for it starts
    with, is resolved to a rule of the grammar, or else to a name that lowering has
    made up. If neither has that name, an error is reported. -/
theorem references_resolve (g : Grammar) :
    (∀ f, g.flatten = .ok f →
      ∀ rule ∈ g.rules, ∀ n ∈ rule.2.references, g.Resolves f n) ∧
    (∀ (p : Plan) (parser : Parser) (n : String), p.rules = .extended g →
      p.start = .nonTerminal n → p.build = .ok parser → g.Resolves parser.grammar n) := by
  refine ⟨fun f h rule hrule n hn => resolves_of_contains h (contains_of_flatten h hrule hn), ?_⟩
  intro p parser n hrules hstart hbuild
  have hflatten : g.flatten = .ok parser.grammar := by
    have h := (Plan.build_eq_ok hbuild).1
    rwa [Plan.flatten, hrules] at h
  exact resolves_of_contains hflatten (Plan.contains_of_build hbuild hstart)

/-- A reference to the name that is made up for the option before it. -/
def borrowed : Grammar :=
  ⟨[("S", .seq [.symbol (.terminal ⟨'a', []⟩), .optional (.symbol (.terminal ⟨'b', []⟩)),
    .symbol (.nonTerminal "S_0")])], by decide⟩

theorem references_resolve_borrowed : ∃ f, borrowed.flatten = .ok f ∧ borrowed.Resolves f "S_0" ∧
    ∃ parser, Plan.build ⟨.extended borrowed, .nonTerminal "S_0", .standard, []⟩ = .ok parser ∧
      borrowed.Resolves parser.grammar "S_0" := by
  obtain ⟨f, hf⟩ : ∃ f, borrowed.flatten = .ok f := ⟨_, rfl⟩
  obtain ⟨parser, hparser⟩ : ∃ parser, Plan.build ⟨.extended borrowed, .nonTerminal "S_0", .standard,
    []⟩ = .ok parser := ⟨_, rfl⟩
  refine ⟨f, hf, ?_, parser, hparser, ?_⟩
  · exact (references_resolve borrowed).1 f hf _ List.mem_cons_self _ (by decide)
  · exact (references_resolve borrowed).2 _ parser "S_0" rfl rfl hparser

/-- A name without a rule is not always reported. -/
theorem not_forall_closed_of_flatten :
    ¬∀ (g : Grammar) (f : Flat.Grammar), g.flatten = .ok f → g.Closed := by
  intro h
  obtain ⟨f, hf⟩ : ∃ f, borrowed.flatten = .ok f := ⟨_, rfl⟩
  exact absurd (h borrowed f hf) (by decide)

end Grammar

end Ramify.Ebnf
