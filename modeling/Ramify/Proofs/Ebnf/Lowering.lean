import Ramify.Proofs.Ebnf.Draft
import Ramify.Proofs.Ebnf.Matching

/-!
# Lowering keeps the meaning

Lowering an expression under a name adds rules to that name, and to no other
name that is there already (`Draft.Adds`). What else it needs goes under names
that are new. As long as these keep their rules, which they do because later
names are new as well, the rules added are those that the expression offers
(`lower_adds`).

So once a grammar is lowered, each of its names stands for its expression, and
derives what that matches.
-/

namespace Ramify.Ebnf

namespace Draft

variable {d d₁ d₂ : Draft} {root target : String} {rule : Flat.Rule} {added added' : List Flat.Rule}
  {R : String → Flat.Rule → Prop}

/-- A name has its place in a draft, so that rules can be added to it. -/
structure Ready (root target : String) (d : Draft) : Prop where
  tidy : d.Tidy root
  mem : target ∈ d.names

/-- One name gets rules, and all others that were there keep theirs. -/
structure Adds (root target : String) (added : List Flat.Rule) (d d₁ : Draft) : Prop where
  tidy : d₁.Tidy root
  names : ∀ n ∈ d.names, n ∈ d₁.names
  added : d₁.rules target = d.rules target ++ added
  kept : ∀ n ∈ d.names, n ≠ target → d₁.rules n = d.rules n

/-- What the rules of names are said to be is what they are for the names that
    are new in a draft. -/
def Tells (R : String → Flat.Rule → Prop) (d d₁ : Draft) : Prop :=
  ∀ n ∈ d₁.names, n ∉ d.names → ∀ rule, R n rule ↔ rule ∈ d₁.rules n

theorem Adds.refl (hd : d.Tidy root) : d.Adds root target [] d where
  tidy := hd
  names _ hn := hn
  added := (List.append_nil _).symm
  kept _ _ _ := rfl

theorem Adds.trans (h : d.Adds root target added d₁) (h' : d₁.Adds root target added' d₂) :
    d.Adds root target (added ++ added') d₂ where
  tidy := h'.tidy
  names n hn := h'.names n (h.names n hn)
  added := by rw [h'.added, h.added, List.append_assoc]
  kept n hn hne := (h'.kept n (h.names n hn) hne).trans (h.kept n hn hne)

theorem Adds.ready (h : d.Adds root target added d₁) (hd : d.Ready root target) :
    d₁.Ready root target :=
  ⟨h.tidy, h.names _ hd.mem⟩

theorem Ready.emit (hd : d.Ready root target) : d.Adds root target [rule] (d.emit target rule) where
  tidy := hd.tidy.emit hd.mem
  names _ hn := (mem_names_emit hd.mem).2 hn
  added := rules_emit
  kept _ _ hne := rules_emit_of_ne hne

theorem Adds.emit (h : d.Adds root target added d₁) (hd : d.Ready root target) :
    d.Adds root target (added ++ [rule]) (d₁.emit target rule) :=
  h.trans (h.ready hd).emit

/-- What is said of a later draft holds of an earlier one: names that are new
    there keep their rules. -/
theorem Tells.before (hR : Tells R d d₂) (hd : target ∈ d.names)
    (h : d₁.Adds root target added d₂) : Tells R d d₁ := by
  intro n hn hnew rule
  have hne : n ≠ target := fun hn => hnew (hn ▸ hd)
  rw [hR n (h.names n hn) hnew, h.kept n hn hne]

theorem Tells.after (hR : Tells R d d₂) (h : d.Adds root target added d₁) : Tells R d₁ d₂ :=
  fun n hn hnew => hR n hn fun hd => hnew (h.names n hd)

theorem Ready.mint (hd : d.Ready root target) : (d.mint target).Ready root (d.nextName target) :=
  ⟨hd.tidy.mint hd.mem, mem_names_mint.2 (.inr rfl)⟩

end Draft

variable {g : Grammar}

/-- What is lowered under a name of its own adds nothing to the names that are
    there, and the new name stands for it. -/
theorem Draft.Ready.aside {d d₁ : Draft} {root target : String} {e : Expr}
    {added : List Flat.Rule} (hd : d.Ready root target)
    (h : (d.mint target).Adds root (d.nextName target) added d₁)
    (hoffers : ∀ R, Tells R (d.mint target) d₁ → Offers g R (d.nextName target) e added) :
    d.Adds root target [] d₁ ∧ ∀ R, Tells R d d₁ → Stands g R (d.nextName target) e := by
  have hnew : d.nextName target ∉ d.names := hd.tidy.nextName_not_mem hd.mem
  have hnames : ∀ n ∈ d.names, n ∈ (d.mint target).names := fun n hn => mem_names_mint.2 (.inl hn)
  have hkept : ∀ n ∈ d.names, d₁.rules n = d.rules n := fun n hn =>
    (h.kept n (hnames n hn) fun hn' => hnew (hn' ▸ hn)).trans rules_mint
  -- A name that is new has no rules before.
  have hadded : d₁.rules (d.nextName target) = added := by
    rw [h.added, rules_mint, rules_of_not_mem_names hnew, List.nil_append]
  refine ⟨⟨h.tidy, fun n hn => h.names n (hnames n hn), ?_, fun n hn _ => hkept n hn⟩, ?_⟩
  · rw [hkept target hd.mem, List.append_nil]
  · intro R hR
    refine ⟨added, hoffers R fun n hn hn' => hR n hn fun hd => hn' (hnames n hd), ?_⟩
    intro rule
    rw [hR _ (h.names _ (mem_names_mint.2 (.inr rfl))) hnew, hadded]

theorem Expr.symbol?_eq_some_iff {e : Expr} {s : Symbol} : e.symbol? = some s ↔ e = .symbol s := by
  cases e <;> simp [symbol?]

theorem Grammar.contains_of_references {s : Symbol}
    (hrefs : ∀ m ∈ (Expr.symbol s).references, g.contains m) (m : String)
    (hs : s = .nonTerminal m) : g.contains m := by
  subst hs
  exact hrefs m (List.mem_singleton_self m)

open Draft (Ready Adds Tells)

mutual

/-- Lowering an expression under a name adds the rules that it offers. -/
theorem lower_adds (root target : String) (e : Expr) (d : Draft) (hd : d.Ready root target)
    (hrefs : ∀ m ∈ e.references, g.contains m) :
    ∃ added, d.Adds root target added (lower target e d) ∧
      ∀ R, Tells R d (lower target e d) → Offers g R target e added := by
  cases e with
  | symbol s =>
    rw [lower]
    exact ⟨_, hd.emit, fun R _ => .symbol (Grammar.contains_of_references hrefs)⟩
  | choice variants =>
    rw [lower]
    obtain ⟨added, hadds, hoffers⟩ := lowerVariants_adds root target variants d hd hrefs
    exact ⟨added, hadds, fun R hR => .choice (hoffers R hR)⟩
  | many body =>
    rw [lower]
    split
    · rename_i s hs
      obtain rfl := Expr.symbol?_eq_some_iff.1 hs
      exact ⟨_, hd.emit.emit hd,
        fun R _ => .many (.symbol (Grammar.contains_of_references hrefs) .nil)⟩
    · obtain ⟨added, hadds, hoffers⟩ := lower_adds root (d.nextName target) body (d.mint target)
        hd.mint hrefs
      obtain ⟨haside, hstands⟩ := hd.aside hadds hoffers
      have hready := haside.ready hd
      -- The rules of the target come after the body was lowered, and leave its name
      -- alone.
      refine ⟨_, (haside.emit hd).emit hd, fun R hR => .many (.single (hstands R ?_))⟩
      exact hR.before hd.mem (hready.emit.emit hready)
  | optional body =>
    rw [lower]
    obtain ⟨added, hadds, hoffers⟩ := lower_adds root target body d hd hrefs
    refine ⟨_, hadds.emit hd, fun R hR => .optional (hoffers R ?_)⟩
    exact hR.before hd.mem (hadds.ready hd).emit
  | seq parts =>
    rw [lower]
    obtain ⟨hadds, hspells⟩ := lowerParts_adds root target parts d hd hrefs
    refine ⟨_, hadds.emit hd, fun R hR => .seq (hspells R ?_)⟩
    exact hR.before hd.mem (hadds.ready hd).emit
termination_by sizeOf e

/-- Lowering variants under a name adds the rules that they offer. -/
theorem lowerVariants_adds (root target : String) (es : List Expr) (d : Draft)
    (hd : d.Ready root target) (hrefs : ∀ m ∈ Expr.referencesAll es, g.contains m) :
    ∃ added, d.Adds root target added (lowerVariants target es d) ∧
      ∀ R, Tells R d (lowerVariants target es d) → OffersAny g R target es added := by
  cases es with
  | nil =>
    rw [lowerVariants]
    exact ⟨[], .refl hd.tidy, fun R _ => .nil⟩
  | cons e es =>
    rw [lowerVariants]
    obtain ⟨href, hrest⟩ := List.forall_mem_append.1 hrefs
    split
    · obtain ⟨added, hadds, hoffers⟩ := lower_adds root (d.nextName target) e (d.mint target)
        hd.mint href
      obtain ⟨haside, hstands⟩ := hd.aside hadds hoffers
      have hemit : d.Adds root target [⟨[.nonTerminal (d.nextName target)]⟩] _ := haside.emit hd
      obtain ⟨added', hadds', hoffers'⟩ :=
        lowerVariants_adds root target es _ (hemit.ready hd) hrest
      refine ⟨_, hemit.trans hadds', fun R hR => ?_⟩
      obtain ⟨rules, hrules, hiff⟩ := hstands R
        ((hR.before hd.mem hadds').before hd.mem (haside.ready hd).emit)
      exact .apart hrules hiff (hoffers' R (hR.after hemit))
    · rename_i hclosed
      obtain ⟨added, hadds, hoffers⟩ := lower_adds root target e d hd href
      obtain ⟨added', hadds', hoffers'⟩ :=
        lowerVariants_adds root target es _ (hadds.ready hd) hrest
      refine ⟨_, hadds.trans hadds', fun R hR => ?_⟩
      exact .keep (Bool.eq_false_iff.2 hclosed) (hoffers R (hR.before hd.mem hadds'))
        (hoffers' R (hR.after hadds))
termination_by sizeOf es

/-- Lowering parts under a name adds no rule to it. -/
theorem lowerParts_adds (root target : String) (es : List Expr) (d : Draft)
    (hd : d.Ready root target) (hrefs : ∀ m ∈ Expr.referencesAll es, g.contains m) :
    d.Adds root target [] (lowerParts target es d).2 ∧
      ∀ R, Tells R d (lowerParts target es d).2 → Spells g R es (lowerParts target es d).1 := by
  cases es with
  | nil =>
    rw [lowerParts]
    exact ⟨.refl hd.tidy, fun R _ => .nil⟩
  | cons e es =>
    rw [lowerParts]
    obtain ⟨href, hrest⟩ := List.forall_mem_append.1 hrefs
    split
    · rename_i s hs
      obtain rfl := Expr.symbol?_eq_some_iff.1 hs
      obtain ⟨hadds, hspells⟩ := lowerParts_adds root target es d hd hrest
      exact ⟨hadds, fun R hR => .symbol (Grammar.contains_of_references href) (hspells R hR)⟩
    · obtain ⟨added, hadds, hoffers⟩ := lower_adds root (d.nextName target) e (d.mint target)
        hd.mint href
      obtain ⟨haside, hstands⟩ := hd.aside hadds hoffers
      obtain ⟨hadds', hspells⟩ := lowerParts_adds root target es _ (haside.ready hd) hrest
      refine ⟨haside.trans hadds', fun R hR => ?_⟩
      obtain ⟨rules, hrules, hiff⟩ := hstands R (hR.before hd.mem hadds')
      exact .name hrules hiff (hspells R (hR.after haside))
termination_by sizeOf es

end

section Flatten

variable {sg : Flat.Grammar} {n : String} {e : Expr}

theorem Draft.mem_entries {d : Draft} (hn : n ∈ d.names) :
    ∃ entry ∈ d.entries, entry.name = n ∧ entry.rules = d.rules n := by
  have hmem : (n, d.rules n) ∈ d.targets := by
    obtain ⟨before, after, htargets, -⟩ := List.lookup_eq_some_iff.1 (lookup_of_mem_names hn)
    rw [htargets]
    exact List.mem_append_right _ List.mem_cons_self
  rw [entries]
  split
  · rename_i hnil
    rw [hnil] at hmem
    exact absurd hmem List.not_mem_nil
  · rename_i name rules made hcons
    rw [hcons] at hmem
    rcases List.mem_cons.1 hmem with hhead | hmade
    · obtain ⟨rfl, hrules⟩ := Prod.mk.inj hhead
      exact ⟨_, List.mem_cons_self, rfl, hrules.symm⟩
    · exact ⟨_, List.mem_cons_of_mem _ (List.mem_map_of_mem hmade), rfl, rfl⟩

/-- Once a grammar is lowered, each of its names stands for its expression. -/
theorem Grammar.stands (hg : g.Closed) (h : g.flatten = .ok sg) (he : g.find? n = some e) :
    Stands g (Flat.Rewrites sg.entries) n e := by
  have hrule : (n, e) ∈ g.rules := g.find?_eq_some_iff.1 he
  have hready : (Draft.reserve n ⟨[], []⟩).Ready n n := by
    refine ⟨fun m hm => ?_, Draft.mem_names_reserve.2 (.inr rfl)⟩
    rcases Draft.mem_names_reserve.1 hm with hm | rfl
    · exact absurd hm List.not_mem_nil
    · exact .inl rfl
  obtain ⟨added, hadds, hoffers⟩ := lower_adds n n e _ hready (hg (n, e) hrule)
  -- No name has two entries, so the rules of a draft are those of the grammar.
  have htells : ∀ m ∈ (lowerRule n e).names, ∀ rule,
      Flat.Rewrites sg.entries m rule ↔ rule ∈ (lowerRule n e).rules m := by
    intro m hm rule
    obtain ⟨entry, hentry, rfl, hrules⟩ := Draft.mem_entries hm
    have hlowered : entry ∈ sg.entries := by
      rw [Flat.Grammar.entries_of_flatten h]
      exact List.mem_flatMap.2 ⟨(n, e), hrule, hentry⟩
    rw [Flat.rewrites_name_iff Flat.Grammar.nodup_entries hlowered, hrules]
  refine ⟨added, hoffers _ fun m hm _ => htells m hm, fun rule => ?_⟩
  rw [htells n (hadds.names n hready.mem), lowerRule, hadds.added, Draft.rules_reserve]
  rfl

/-- Lowering keeps the meaning: between any two places of a text, the expression
    of a name matches if and only if its rules derive what lies there. -/
theorem Grammar.matches_iff_derives (hg : g.Closed) (h : g.flatten = .ok sg)
    (he : g.find? n = some e) (i r : List Char) :
    Matches g [e] i r ↔ ∃ t, Flat.Derives sg [.nonTerminal n] [t] i r :=
  Stands.derives_iff (fun _ _ => stands hg h) (stands hg h he)

/-- Lists of letters and of lists in parentheses. -/
def Grammar.lists : Grammar :=
  ⟨[("L", .choice [.many (.choice [.symbol (.terminal ⟨'a', []⟩), .symbol (.nonTerminal "P")]),
      .symbol (.terminal ⟨'.', []⟩)]),
    ("P", .seq [.symbol (.terminal ⟨'(', []⟩), .optional (.symbol (.nonTerminal "L")),
      .symbol (.terminal ⟨')', []⟩)])], by decide⟩

theorem Grammar.matches_iff_derives_lists : ∃ sg, lists.flatten = .ok sg ∧
    ∃ e, lists.find? "L" = some e ∧ ∀ i r,
      Matches lists [e] i r ↔ ∃ t, Flat.Derives sg [.nonTerminal "L"] [t] i r := by
  obtain ⟨sg, hsg⟩ : ∃ sg, lists.flatten = .ok sg := ⟨_, rfl⟩
  exact ⟨sg, hsg, _, rfl, matches_iff_derives (by decide) hsg rfl⟩

end Flatten

end Ramify.Ebnf
