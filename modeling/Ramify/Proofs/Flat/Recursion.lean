import Mathlib.Logic.Relation
import Ramify.Proofs.Flat.First

/-!
# Which grammars are accepted

The analysis accepts hand-written rules just if no name is defined twice, all names
that are referred to have rules, and no name begins with itself, be it over any
number of other names (`Grammar.analyse_decides`). What it tells of rules that it
does not accept is the first name that is repeated, or else the first reference to
a name without rules, or else some name that begins with itself.

The last one is found by the walk for the FIRST-sets. All names it is working on
lead to the one it visits next. So a name that is met a second time begins with
itself (`visit_eq_error`), and this is the only thing that can go wrong, since the
path has room for all names of the grammar. A walk that comes to its end has put
the names into an order in which there are no circles.
-/

namespace Ramify.Flat

open Relation (TransGen)

variable {entries : List Entry} {nullable : String → Bool} {memo memo' : Memo}
  {symbols : List Symbol} {rules : List Rule} {path ns : List String} {n m : String}
  {e : GrammarError}

/-! ### Names that begin with names -/

/-- A name begins with another one: a rule of the first contains the second, and
    nothing before it but the end of input and nullable names. -/
def BeginsWith (entries : List Entry) (n m : String) : Prop :=
  ∃ rule before after, Rewrites entries n rule ∧
    rule.symbols = before ++ .nonTerminal m :: after ∧
    ∀ s ∈ before, s = .endOfInput ∨ ∃ k, s = .nonTerminal k ∧ Vanishes entries [.nonTerminal k]

/-- The corners that the analysis goes by are those of the nullable names. -/
theorem leftCorner_iff :
    LeftCorner entries (nullableNames entries).contains n m ↔ BeginsWith entries n m := by
  simp only [LeftCorner, Corner, Transparent, BeginsWith, List.contains_iff_mem,
    mem_nullableNames_iff]
  constructor
  · intro ⟨rule, hrule, before, after, h⟩
    exact ⟨rule, before, after, hrule, h⟩
  · intro ⟨rule, before, after, hrule, h⟩
    exact ⟨rule, hrule, before, after, h⟩

/-! ### Where a walk fails -/

section Walk

variable {v : String → Memo → Except GrammarError Memo}

/-- A walk fails at one of the corners of its rule. -/
theorem walkRule_eq_error {acc : LookaheadSet} (h : walkRule nullable v symbols acc memo = .error e) :
    ∃ m memo', Corner nullable symbols m ∧ v m memo' = .error e := by
  induction symbols generalizing acc memo with
  | nil => cases h
  | cons s symbols ih =>
    cases s with
    | terminal | charClass => cases h
    | endOfInput =>
      obtain ⟨m, memo', hm, hv⟩ := ih h
      exact ⟨m, memo', corner_cons.2 (.inr ⟨.inl rfl, hm⟩), hv⟩
    | nonTerminal n =>
      rw [walkRule] at h
      split at h
      · rename_i hv
        cases h
        exact ⟨n, memo, corner_cons.2 (.inl rfl), hv⟩
      · dsimp only at h
        split at h
        · rename_i hnull
          obtain ⟨m, memo', hm, hv⟩ := ih h
          exact ⟨m, memo', corner_cons.2 (.inr ⟨transparent_nonTerminal.2 hnull, hm⟩), hv⟩
        · cases h

theorem walkRules_eq_error (h : walkRules nullable v rules memo = .error e) :
    ∃ rule ∈ rules, ∃ m memo', Corner nullable rule.symbols m ∧ v m memo' = .error e := by
  induction rules generalizing memo with
  | nil => cases h
  | cons rule rules ih =>
    rw [walkRules] at h
    split at h
    · rename_i hrule
      cases h
      exact ⟨rule, List.mem_cons_self, walkRule_eq_error hrule⟩
    · split at h
      · rename_i hrules
        cases h
        obtain ⟨rule', hmem, hfails⟩ := ih hrules
        exact ⟨rule', List.mem_cons_of_mem _ hmem, hfails⟩
      · cases h

end Walk

/-- All names in rules are defined. -/
def Defined (entries : List Entry) : Prop :=
  ∀ n ∈ entries.flatMap Entry.references, n ∈ entries.map (·.name)

theorem Defined.mem_names {rule : Rule} (hdef : Defined entries) (hrule : Rewrites entries n rule)
    (hm : .nonTerminal m ∈ rule.symbols) : m ∈ entries.map (·.name) := by
  obtain ⟨entry, hentry, -, hrule⟩ := hrule
  refine hdef m (List.mem_flatMap.2 ⟨entry, hentry, List.mem_flatMap.2 ⟨rule, hrule, ?_⟩⟩)
  exact List.mem_filterMap.2 ⟨.nonTerminal m, hm, rfl⟩

/-- A visit that fails has met a name that begins with itself. All names on the
    path lead to the one that is visited. -/
theorem visit_eq_error {room : Nat} (hdef : Defined entries) (hn : n ∈ entries.map (·.name))
    (hnodup : path.Nodup) (hpath : ∀ p ∈ path, p ∈ entries.map (·.name) ∧
      TransGen (LeftCorner entries nullable) p n)
    (hroom : entries.length < room + path.length)
    (h : visit entries nullable room path n memo = .error e) :
    ∃ m, e = .leftRecursion m ∧ TransGen (LeftCorner entries nullable) m m := by
  induction room generalizing path n memo with
  | zero =>
    -- There is room for all names of the grammar.
    have hsub : path ⊆ entries.map (·.name) := fun p hp => (hpath p hp).1
    have hle := (List.subperm_of_subset hnodup hsub).length_le
    rw [List.length_map] at hle
    omega
  | succ room ih =>
    rw [visit] at h
    split at h
    · rename_i hmem
      cases h
      exact ⟨n, rfl, (hpath n (List.contains_iff_mem.1 hmem)).2⟩
    · rename_i hnew
      split at h
      · cases h
      · split at h
        · rename_i hnone
          obtain ⟨entry, hentry, rfl⟩ := List.mem_map.1 hn
          simpa using List.find?_eq_none.1 hnone entry hentry
        · rename_i entry hentry
          split at h
          · rename_i hrules
            cases h
            obtain ⟨rule, hrule, m, memo', hcorner, hvisit⟩ := walkRules_eq_error hrules
            have hrewrites : Rewrites entries n rule :=
              ⟨entry, List.mem_of_find?_eq_some hentry, by simpa using List.find?_some hentry, hrule⟩
            have hstep : LeftCorner entries nullable n m := ⟨rule, hrewrites, hcorner⟩
            obtain ⟨before, after, heq, -⟩ := hcorner
            refine ih (hdef.mem_names hrewrites (by simp [heq])) ?_ ?_ ?_ hvisit
            · exact List.nodup_cons.2 ⟨fun hp => hnew (List.contains_iff_mem.2 hp), hnodup⟩
            · refine List.forall_mem_cons.2 ⟨⟨hn, .single hstep⟩, fun p hp => ?_⟩
              exact ⟨(hpath p hp).1, (hpath p hp).2.tail hstep⟩
            · rw [List.length_cons]
              omega
          · cases h

theorem visitAll_eq_error (h : visitAll entries nullable ns memo = .error e) :
    ∃ n ∈ ns, ∃ memo', visit entries nullable (entries.length + 1) [] n memo' = .error e := by
  induction ns generalizing memo with
  | nil => cases h
  | cons n ns ih =>
    rw [visitAll] at h
    split at h
    · rename_i hn
      cases h
      exact ⟨n, List.mem_cons_self, memo, hn⟩
    · obtain ⟨m, hm, hvisit⟩ := ih h
      exact ⟨m, List.mem_cons_of_mem _ hm, hvisit⟩

theorem firstSets_eq_error (hdef : Defined entries) (h : firstSets entries nullable = .error e) :
    ∃ n, e = .leftRecursion n ∧ TransGen (LeftCorner entries nullable) n n := by
  obtain ⟨n, hn, memo, hvisit⟩ := visitAll_eq_error h
  exact visit_eq_error hdef hn List.nodup_nil (by simp) (by simp) hvisit

/-- A walk that comes to its end has met no circle. -/
theorem not_transGen_of_firstSets (hnodup : (entries.map (·.name)).Nodup)
    (h : firstSets entries nullable = .ok memo) (n : String) :
    ¬TransGen (LeftCorner entries nullable) n n := by
  obtain ⟨hgood, hall⟩ := firstSets_eq_ok hnodup h
  have hlt : ∀ n m, LeftCorner entries nullable n m → memo.rank m < memo.rank n := by
    intro n m hcorner
    obtain ⟨rule, hrule, -⟩ := id hcorner
    exact hgood.sorted.rank_lt (hall n hrule.mem_names) hcorner
  have hlt' : ∀ m, TransGen (LeftCorner entries nullable) n m → memo.rank m < memo.rank n := by
    intro m hm
    induction hm with
    | single hcorner => exact hlt _ _ hcorner
    | tail _ hcorner ih => exact Nat.lt_trans (hlt _ _ hcorner) ih
  exact fun hn => Nat.lt_irrefl _ (hlt' n hn)

/-! ### The analysis -/

namespace Grammar

variable {seen : List Entry}

/-- The entry that is found is the first one whose name comes before. -/
theorem repeated?_eq_some (h : repeated? seen entries = some e)
    (hnodup : (seen.map (·.name)).Nodup) :
    ∃ before entry after, entries = before ++ entry :: after ∧
      ((before.reverse ++ seen).map (·.name)).Nodup ∧
      ∃ previous ∈ before.reverse ++ seen, previous.name = entry.name ∧
        e = if entry.synthetic || previous.synthetic then .nameClash entry.name
          else .duplicateRule entry.name := by
  induction entries generalizing seen with
  | nil => cases h
  | cons entry entries ih =>
    rw [repeated?] at h
    split at h
    · rename_i previous hprevious
      cases h
      refine ⟨[], entry, entries, rfl, hnodup, previous, ?_, ?_, rfl⟩
      · exact List.mem_of_find?_eq_some hprevious
      · simpa using List.find?_some hprevious
    · rename_i hnone
      have hnodup' : ((entry :: seen).map (·.name)).Nodup := by
        refine List.nodup_cons.2 ⟨fun hmem => ?_, hnodup⟩
        obtain ⟨s, hs, heq⟩ := List.mem_map.1 hmem
        simpa [heq] using List.find?_eq_none.1 hnone s hs
      obtain ⟨before, entry', after, rfl, hbefore, hprevious⟩ := ih h hnodup'
      refine ⟨entry :: before, entry', after, rfl, ?_⟩
      rw [List.reverse_cons, List.append_assoc, List.singleton_append]
      exact ⟨hbefore, hprevious⟩

/-- No entry is found if and only if no name comes twice. -/
theorem repeated?_eq_none_iff : repeated? [] entries = none ↔ (entries.map (·.name)).Nodup := by
  refine ⟨fun h => (nodup_of_repeated?_eq_none h).1, fun hnodup => ?_⟩
  by_contra hsome
  obtain ⟨e, he⟩ := Option.ne_none_iff_exists'.1 hsome
  obtain ⟨before, entry, after, rfl, -, previous, hprevious, hname, -⟩ :=
    repeated?_eq_some he List.nodup_nil
  rw [List.append_nil, List.mem_reverse] at hprevious
  rw [List.map_append, List.map_cons] at hnodup
  exact (List.nodup_append.1 hnodup).2.2 _ (List.mem_map_of_mem hprevious) _ List.mem_cons_self
    hname

theorem undefined?_eq_none_iff : undefined? entries = none ↔ Defined entries := by
  simp only [undefined?, Defined, List.find?_eq_none, Bool.not_eq_true', Bool.not_eq_false,
    List.any_eq_true, beq_iff_eq, List.mem_map]

/-- What is found is the first reference to a name without rules. -/
theorem undefined?_eq_some (h : undefined? entries = some n) :
    ∃ before after, entries.flatMap Entry.references = before ++ n :: after ∧
      (∀ m ∈ before, m ∈ entries.map (·.name)) ∧ n ∉ entries.map (·.name) := by
  obtain ⟨hn, before, after, heq, hbefore⟩ := List.find?_eq_some_iff_append.1 h
  exact ⟨before, after, heq, by simpa using hbefore, by simpa using hn⟩

/-- The ways an analysis can end, in the order in which it goes about. -/
theorem analyse_cases (entries : List Entry) :
    (∃ e, repeated? [] entries = some e ∧ analyse entries = .error e) ∨
    (entries.map (·.name)).Nodup ∧
      ((∃ n, undefined? entries = some n ∧ analyse entries = .error (.missingRule n)) ∨
      Defined entries ∧
        ((∃ n, TransGen (BeginsWith entries) n n ∧ analyse entries = .error (.leftRecursion n)) ∨
        (∀ n, ¬TransGen (BeginsWith entries) n n) ∧ ∃ g, analyse entries = .ok g)) := by
  have hcorner : LeftCorner entries (nullableNames entries).contains = BeginsWith entries :=
    funext fun n => funext fun m => propext leftCorner_iff
  rw [analyse]
  split
  · rename_i e he
    exact .inl ⟨e, he, rfl⟩
  · rename_i hnone
    have hnodup := (nodup_of_repeated?_eq_none hnone).1
    refine .inr ⟨hnodup, ?_⟩
    split
    · rename_i n hn
      exact .inl ⟨n, hn, rfl⟩
    · rename_i hdef
      rw [undefined?_eq_none_iff] at hdef
      refine .inr ⟨hdef, ?_⟩
      dsimp only
      split
      · rename_i e he
        obtain ⟨n, rfl, hcycle⟩ := firstSets_eq_error hdef he
        exact .inl ⟨n, hcorner ▸ hcycle, rfl⟩
      · rename_i memo hmemo
        exact .inr ⟨hcorner ▸ not_transGen_of_firstSets hnodup hmemo, _, rfl⟩

/-- In a grammar that was accepted no name begins with itself. -/
theorem Analysed.not_transGen {g : Grammar} (hg : g.Analysed) (n : String) :
    ¬TransGen (BeginsWith g.entries) n n := by
  obtain ⟨es, h⟩ := hg
  rw [entries_of_analyse h]
  rcases analyse_cases es with
    ⟨e, -, herr⟩ | ⟨-, ⟨m, -, herr⟩ | ⟨-, ⟨m, -, herr⟩ | ⟨hacyclic, -⟩⟩⟩
  · exact nomatch h.symm.trans herr
  · exact nomatch h.symm.trans herr
  · exact nomatch h.symm.trans herr
  · exact hacyclic n

/-- The entries of hand-written rules. -/
def handwritten (rules : List (String × List Rule)) : List Entry :=
  rules.map fun rule => ⟨rule.1, rule.2, false⟩

theorem map_name_handwritten (rules : List (String × List Rule)) :
    (handwritten rules).map (·.name) = rules.map (·.1) := by
  simp [handwritten]

/-- Hand-written rules that repeat a name. -/
theorem repeated?_handwritten {rules : List (String × List Rule)}
    (h : repeated? [] (handwritten rules) = some e) : ∃ before n after,
      rules.map (·.1) = before ++ n :: after ∧ before.Nodup ∧ n ∈ before ∧
      e = .duplicateRule n := by
  obtain ⟨before, entry, after, heq, hnodup, previous, hprevious, hname, he⟩ :=
    repeated?_eq_some h List.nodup_nil
  -- No entry is made up.
  have hplain : ∀ entry ∈ handwritten rules, entry.synthetic = false := by
    intro entry hentry
    obtain ⟨rule, -, rfl⟩ := List.mem_map.1 hentry
    rfl
  rw [heq] at hplain
  rw [List.append_nil] at hnodup hprevious
  have hmem : previous ∈ before := List.mem_reverse.1 hprevious
  refine ⟨before.map (·.name), entry.name, after.map (·.name), ?_, ?_, ?_, ?_⟩
  · rw [← map_name_handwritten, heq, List.map_append, List.map_cons]
  · rwa [List.map_reverse, List.nodup_reverse] at hnodup
  · exact List.mem_map.2 ⟨previous, hmem, hname⟩
  · rw [he, hplain entry (by simp), hplain previous (by simp [hmem])]
    rfl

/-- Which rules the analysis accepts, and what it finds wrong with all others. -/
theorem analyse_decides (rules : List (String × List Rule)) :
    let entries := handwritten rules
    let names := rules.map (·.1)
    let references := entries.flatMap Entry.references
    ((∃ g, analyse entries = .ok g) ↔
      names.Nodup ∧ (∀ n ∈ references, n ∈ names) ∧ ∀ n, ¬TransGen (BeginsWith entries) n n) ∧
    (¬names.Nodup → ∃ before n after, names = before ++ n :: after ∧ before.Nodup ∧ n ∈ before ∧
      analyse entries = .error (.duplicateRule n)) ∧
    (names.Nodup → (¬∀ n ∈ references, n ∈ names) → ∃ before n after,
      references = before ++ n :: after ∧ (∀ m ∈ before, m ∈ names) ∧ n ∉ names ∧
      analyse entries = .error (.missingRule n)) ∧
    (names.Nodup → (∀ n ∈ references, n ∈ names) → (¬∀ n, ¬TransGen (BeginsWith entries) n n) →
      ∃ n, TransGen (BeginsWith entries) n n ∧ analyse entries = .error (.leftRecursion n)) := by
  intro entries names references
  have hnames : entries.map (·.name) = names := map_name_handwritten rules
  have hcases := analyse_cases entries
  simp only [Defined, hnames] at hcases
  have not_ok : ∀ {e}, analyse entries = .error e → ¬∃ g, analyse entries = .ok g := by
    intro e herr ⟨g, hok⟩
    exact nomatch hok.symm.trans herr
  -- What is wrong excludes all that is looked for earlier, and nothing else is
  -- looked for then.
  rcases hcases with ⟨e, he, herr⟩ |
    ⟨hnodup, ⟨n, hn, herr⟩ | ⟨hdef, ⟨n, hcycle, herr⟩ | ⟨hacyclic, hok⟩⟩⟩
  · obtain ⟨before, n, after, heq, hbefore, hmem, rfl⟩ := repeated?_handwritten he
    have hrepeats : ¬names.Nodup := by
      intro hnodup
      have hsplit : (before ++ n :: after).Nodup := heq ▸ hnodup
      exact (List.nodup_append.1 hsplit).2.2 n hmem n List.mem_cons_self rfl
    refine ⟨⟨fun hok => absurd hok (not_ok herr), fun h => absurd h.1 hrepeats⟩, fun _ => ?_,
      fun h => absurd h hrepeats, fun h => absurd h hrepeats⟩
    exact ⟨before, n, after, heq, hbefore, hmem, herr⟩
  · obtain ⟨before, after, heq, hbefore, hnot⟩ := undefined?_eq_some hn
    rw [hnames] at hbefore hnot
    have hopen : ¬∀ m ∈ references, m ∈ names := fun hdef =>
      hnot (hdef n (by simp [references, heq]))
    refine ⟨⟨fun hok => absurd hok (not_ok herr), fun h => absurd h.2.1 hopen⟩,
      fun h => absurd hnodup h, fun _ _ => ?_, fun _ h => absurd h hopen⟩
    exact ⟨before, n, after, heq, hbefore, hnot, herr⟩
  · have hcircle : ¬∀ n, ¬TransGen (BeginsWith entries) n n := fun h => h n hcycle
    exact ⟨⟨fun hok => absurd hok (not_ok herr), fun h => absurd h.2.2 hcircle⟩,
      fun h => absurd hnodup h, fun _ h => absurd hdef h, fun _ _ _ => ⟨n, hcycle, herr⟩⟩
  · exact ⟨⟨fun _ => ⟨hnodup, hdef, hacyclic⟩, fun _ => hok⟩, fun h => absurd hnodup h,
      fun _ h => absurd hdef h, fun _ _ h => absurd hacyclic h⟩

/-- `S` begins with `N`, which is nullable, and so with `T`, which begins with `S`. -/
theorem analyse_decides_circle :
    let rules : List (String × List Rule) :=
      [("S", [⟨[.endOfInput, .nonTerminal "N", .nonTerminal "T"]⟩]), ("N", [⟨[]⟩]),
        ("T", [⟨[.nonTerminal "S"]⟩])]
    (rules.map (·.1)).Nodup ∧
      (∀ n ∈ (handwritten rules).flatMap Entry.references, n ∈ rules.map (·.1)) ∧
      (¬∀ n, ¬TransGen (BeginsWith (handwritten rules)) n n) ∧
      analyse (handwritten rules) = .error (.leftRecursion "S") := by
  intro rules
  have herr : analyse (handwritten rules) = .error (.leftRecursion "S") := rfl
  have hnodup : (rules.map (·.1)).Nodup := by decide
  have hdef : ∀ n ∈ (handwritten rules).flatMap Entry.references, n ∈ rules.map (·.1) := by decide
  refine ⟨hnodup, hdef, fun hacyclic => ?_, herr⟩
  obtain ⟨g, hg⟩ := (analyse_decides rules).1.2 ⟨hnodup, hdef, hacyclic⟩
  exact nomatch hg.symm.trans herr

end Grammar

end Ramify.Flat
