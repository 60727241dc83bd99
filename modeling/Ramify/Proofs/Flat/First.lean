import Mathlib.Data.List.Nodup
import Mathlib.Data.List.Perm.Subperm
import Ramify.Proofs.Flat.Nullable
import Ramify.Proofs.Lookahead

/-!
# What a rule can begin with

The characters that the symbols of a rule can begin with (`Starts`) are found by
the walk of the analysis: names it is done with have exactly the sets they
should have (`Memo.Exact`). The walk also puts the names into an order
(`Memo.Sorted`): a name that another one can begin with, a *left corner* of it, is
done with before. So a name has a rank (`Memo.rank`) that its left corners are
below, and which is less than the number of names.

For an analysed grammar this tells which rules are candidates
(`Grammar.Made.mem_candidates_iff`), and that left corners do not go round in
circles (`Grammar.Made.rank_lt`).
-/

namespace Ramify.Flat

section Walk

variable {entries : List Entry} {nullable : String → Bool}

/-- Symbols can begin with a character: the end of input is passed over, and so
    are nullable names. -/
inductive Starts (entries : List Entry) (nullable : String → Bool) : List Symbol → Char → Prop
  | terminal {t : Terminal} {α : List Symbol} : Starts entries nullable (.terminal t :: α) t.first
  | charClass {k : CharClass} {c : Char} {α : List Symbol} : k.accepts (some c) →
    Starts entries nullable (.charClass k :: α) c
  | endOfInput {c : Char} {α : List Symbol} : Starts entries nullable α c →
    Starts entries nullable (.endOfInput :: α) c
  | name {n : String} {rule : Rule} {c : Char} {α : List Symbol} : Rewrites entries n rule →
    Starts entries nullable rule.symbols c → Starts entries nullable (.nonTerminal n :: α) c
  | behind {n : String} {c : Char} {α : List Symbol} : nullable n → Starts entries nullable α c →
    Starts entries nullable (.nonTerminal n :: α) c

/-- What the walk looks behind: the end of input and nullable names. -/
def Transparent (nullable : String → Bool) (s : Symbol) : Prop :=
  s = .endOfInput ∨ ∃ n, s = .nonTerminal n ∧ nullable n

/-- A name occurs among symbols with only transparent ones before it. -/
def Corner (nullable : String → Bool) (α : List Symbol) (m : String) : Prop :=
  ∃ before after, α = before ++ .nonTerminal m :: after ∧ ∀ s ∈ before, Transparent nullable s

/-- A name can begin with another one. -/
def LeftCorner (entries : List Entry) (nullable : String → Bool) (n m : String) : Prop :=
  ∃ rule, Rewrites entries n rule ∧ Corner nullable rule.symbols m

/-- A set admits what symbols can begin with, and not the end of input. -/
def Opens (entries : List Entry) (nullable : String → Bool) (α : List Symbol)
    (set : LookaheadSet) : Prop :=
  ∀ c, set.admits c ↔ ∃ d, c = some d ∧ Starts entries nullable α d

variable {s : Symbol} {α : List Symbol} {n m : String} {c : Char}

theorem not_starts_nil : ¬Starts entries nullable [] c := fun h => nomatch h

theorem starts_terminal {t : Terminal} :
    Starts entries nullable (.terminal t :: α) c ↔ c = t.first := by
  refine ⟨fun h => ?_, fun h => h ▸ .terminal⟩
  cases h
  rfl

theorem starts_charClass {k : CharClass} :
    Starts entries nullable (.charClass k :: α) c ↔ k.accepts (some c) := by
  refine ⟨fun h => ?_, .charClass⟩
  cases h with
  | charClass hk => exact hk

theorem starts_endOfInput :
    Starts entries nullable (.endOfInput :: α) c ↔ Starts entries nullable α c := by
  refine ⟨fun h => ?_, .endOfInput⟩
  cases h with
  | endOfInput h => exact h

theorem starts_nonTerminal : Starts entries nullable (.nonTerminal n :: α) c ↔
    (∃ rule, Rewrites entries n rule ∧ Starts entries nullable rule.symbols c) ∨
      nullable n ∧ Starts entries nullable α c := by
  constructor
  · intro h
    cases h with
    | name hrule h => exact .inl ⟨_, hrule, h⟩
    | behind hn h => exact .inr ⟨hn, h⟩
  · rintro (⟨rule, hrule, h⟩ | ⟨hn, h⟩)
    · exact .name hrule h
    · exact .behind hn h

theorem transparent_nonTerminal : Transparent nullable (.nonTerminal n) ↔ nullable n := by
  constructor
  · rintro (h | ⟨m, h, hm⟩)
    · cases h
    · cases h
      exact hm
  · exact fun h => .inr ⟨n, rfl, h⟩

theorem not_corner_nil : ¬Corner nullable [] m := by
  rintro ⟨before, after, heq, -⟩
  exact List.append_ne_nil_of_right_ne_nil _ (List.cons_ne_nil _ _) heq.symm

theorem corner_cons :
    Corner nullable (s :: α) m ↔
      s = .nonTerminal m ∨ Transparent nullable s ∧ Corner nullable α m := by
  constructor
  · rintro ⟨before, after, heq, hall⟩
    rcases before with _ | ⟨s', before⟩
    · obtain ⟨rfl, -⟩ := List.cons.inj heq
      exact .inl rfl
    · obtain ⟨rfl, rfl⟩ := List.cons.inj heq
      obtain ⟨hs, hall⟩ := List.forall_mem_cons.1 hall
      exact .inr ⟨hs, before, after, rfl, hall⟩
  · rintro (rfl | ⟨hs, before, after, rfl, hall⟩)
    · exact ⟨[], α, rfl, fun s hs => absurd hs List.not_mem_nil⟩
    · exact ⟨s :: before, after, rfl, List.forall_mem_cons.2 ⟨hs, hall⟩⟩

/-- Nothing is looked for behind a symbol that consumes a character. -/
theorem not_corner_cons (hs : ¬Transparent nullable s) (hname : s.name? = none) :
    ¬Corner nullable (s :: α) m := by
  intro h
  rcases corner_cons.1 h with rfl | ⟨h, -⟩
  · cases hname
  · exact hs h

theorem not_transparent_terminal {t : Terminal} : ¬Transparent nullable (.terminal t) := by
  rintro (h | ⟨n, h, -⟩) <;> cases h

theorem not_transparent_charClass {k : CharClass} : ¬Transparent nullable (.charClass k) := by
  rintro (h | ⟨n, h, -⟩) <;> cases h

end Walk

/-! ### Memos -/

namespace Memo

variable {entries : List Entry} {nullable : String → Bool} {memo memo' : Memo} {n m : String}
  {path : List String}

/-- The names a walk is done with. -/
def names (memo : Memo) : List String := memo.map (·.1)

/-- The sets of a name are what its rules can begin with. -/
def Exact (entries : List Entry) (nullable : String → Bool) (memo : Memo) : Prop :=
  ∀ n f, memo.find? n = some f → f.whole = .sum f.perRule ∧ ∃ e ∈ entries, e.name = n ∧
    List.Forall₂ (fun rule set => Opens entries nullable rule.symbols set) e.rules f.perRule

/-- The left corners of a name come behind it, and no name comes twice. -/
def Sorted (entries : List Entry) (nullable : String → Bool) : Memo → Prop
  | [] => True
  | (n, _) :: memo => n ∉ names memo ∧ (∀ m, LeftCorner entries nullable n m → m ∈ names memo) ∧
    n ∈ entries.map (·.name) ∧ Sorted entries nullable memo

/-- What holds of the memo of a walk at any time. -/
structure Good (entries : List Entry) (nullable : String → Bool) (memo : Memo) : Prop where
  exact : memo.Exact entries nullable
  sorted : memo.Sorted entries nullable

/-- A memo has got more names, none of them on a path. -/
def Extends (path : List String) (memo memo' : Memo) : Prop :=
  ∃ added, memo' = added ++ memo ∧ ∀ p ∈ path, p ∉ Memo.names added

theorem isSome_find?_iff : (memo.find? n).isSome ↔ n ∈ memo.names := by
  rw [find?, names]
  induction memo with
  | nil => simp
  | cons x memo ih =>
    obtain ⟨k, f⟩ := x
    rw [List.lookup_cons, List.map_cons, List.mem_cons, ← ih]
    cases h : n == k
    · simp [show n ≠ k by simpa using h]
    · simp [show n = k by simpa using h]

namespace Extends

theorem refl : Extends path memo memo := ⟨[], rfl, fun _ _ => List.not_mem_nil⟩

theorem trans {memo'' : Memo} (h : Extends path memo memo') (h' : Extends path memo' memo'') :
    Extends path memo memo'' := by
  obtain ⟨added, rfl, hpath⟩ := h
  obtain ⟨added', rfl, hpath'⟩ := h'
  refine ⟨added' ++ added, (List.append_assoc _ _ _).symm, fun p hp => ?_⟩
  rw [names, List.map_append, List.mem_append, not_or]
  exact ⟨hpath' p hp, hpath p hp⟩

theorem mem_names (h : Extends path memo memo') (hn : n ∈ memo.names) : n ∈ memo'.names := by
  obtain ⟨added, rfl, -⟩ := h
  rw [names, List.map_append]
  exact List.mem_append_right _ hn

/-- A name on the path is not among the new ones. -/
theorem notMem_names (h : Extends path memo memo') (hp : n ∈ path) (hn : n ∉ memo.names) :
    n ∉ memo'.names := by
  obtain ⟨added, rfl, hpath⟩ := h
  rw [names, List.map_append, List.mem_append, not_or]
  exact ⟨hpath n hp, hn⟩

theorem of_cons (h : Extends (n :: path) memo memo') : Extends path memo memo' := by
  obtain ⟨added, rfl, hpath⟩ := h
  exact ⟨added, rfl, fun p hp => hpath p (List.mem_cons_of_mem _ hp)⟩

end Extends

theorem Exact.cons {e : Entry} {f : Firsts} (h : memo.Exact entries nullable)
    (hsum : f.whole = .sum f.perRule) (he : e ∈ entries)
    (hrules : List.Forall₂ (fun rule set => Opens entries nullable rule.symbols set)
      e.rules f.perRule) : Exact entries nullable ((e.name, f) :: memo) := by
  intro n f' hf'
  rw [find?, List.lookup_cons] at hf'
  split at hf'
  · rename_i heq
    cases hf'
    exact ⟨hsum, e, he, (beq_iff_eq.1 heq).symm, hrules⟩
  · exact h n f' hf'

/-- What some rules begin with is admitted by one of their sets. -/
theorem exists_admits_iff {rules : List Rule} {sets : List LookaheadSet} {c : Lookahead}
    (h : List.Forall₂ (fun rule set => Opens entries nullable rule.symbols set) rules sets) :
    (∃ set ∈ sets, set.admits c) ↔
      ∃ d, c = some d ∧ ∃ rule ∈ rules, Starts entries nullable rule.symbols d := by
  induction h with
  | nil => simp
  | cons hopen _ ih =>
    simp only [List.mem_cons, exists_eq_or_imp, ih, hopen c, ← exists_or, ← and_or_left]

/-- A rule whose set admits a lookahead is one that can begin with it. -/
theorem exists_mem_zip_iff {rule : Rule} {rules : List Rule} {sets : List LookaheadSet}
    {c : Lookahead}
    (h : List.Forall₂ (fun rule set => Opens entries nullable rule.symbols set) rules sets) :
    (∃ set, (rule, set) ∈ rules.zip sets ∧ set.admits c) ↔
      ∃ d, c = some d ∧ rule ∈ rules ∧ Starts entries nullable rule.symbols d := by
  induction h with
  | nil => simp
  | @cons rule' set' rules sets hopen _ ih =>
    have hhead : (rule = rule' ∧ set'.admits c) ↔
        ∃ d, c = some d ∧ rule = rule' ∧ Starts entries nullable rule.symbols d := by
      rw [hopen c]
      constructor
      · rintro ⟨rfl, d, rfl, hd⟩
        exact ⟨d, rfl, rfl, hd⟩
      · rintro ⟨d, rfl, rfl, hd⟩
        exact ⟨rfl, d, rfl, hd⟩
    simp only [List.zip_cons_cons, List.mem_cons, Prod.mk.injEq, or_and_right, and_or_left,
      exists_or, ih, ← hhead, and_assoc, exists_and_left, exists_eq_left]

/-- The set of a name that a walk is done with. -/
theorem Exact.whole (h : memo.Exact entries nullable) (hnodup : (entries.map (·.name)).Nodup)
    (hn : n ∈ memo.names) (c : Lookahead) : (memo.whole n).admits c ↔
      ∃ d, c = some d ∧
        ∃ rule, Rewrites entries n rule ∧ Starts entries nullable rule.symbols d := by
  obtain ⟨f, hf⟩ := Option.isSome_iff_exists.1 (isSome_find?_iff.2 hn)
  obtain ⟨hsum, e, he, rfl, hrules⟩ := h n f hf
  rw [Memo.whole, hf]
  dsimp only
  rw [hsum, LookaheadSet.admits_sum, exists_admits_iff hrules]
  simp only [rewrites_name_iff hnodup he]

end Memo

/-! ### The walk -/

section Walk

variable {entries : List Entry} {nullable : String → Bool} {memo memo' : Memo} {n m : String}
  {path : List String}

/-- What the visit of a name does to a memo. -/
structure Visited (entries : List Entry) (nullable : String → Bool) (path : List String)
    (memo memo' : Memo) : Prop where
  good : memo'.Good entries nullable
  grows : Memo.Extends path memo memo'

/-- The rules of a name are walked, given that names are visited as they should. -/
theorem walkRule_eq_ok {v : String → Memo → Except GrammarError Memo}
    (hnodup : (entries.map (·.name)).Nodup)
    (hv : ∀ n memo memo', v n memo = .ok memo' → memo.Good entries nullable →
      Visited entries nullable path memo memo' ∧ n ∈ memo'.names)
    {symbols : List Symbol} {acc set : LookaheadSet}
    (hwalk : walkRule nullable v symbols acc memo = .ok (set, memo'))
    (hgood : memo.Good entries nullable) :
    Visited entries nullable path memo memo' ∧
      (∀ m, Corner nullable symbols m → m ∈ memo'.names) ∧
      ∀ c, set.admits c ↔ acc.admits c ∨ ∃ d, c = some d ∧ Starts entries nullable symbols d := by
  induction symbols generalizing acc memo with
  | nil =>
    cases hwalk
    refine ⟨⟨hgood, .refl⟩, fun m hm => absurd hm not_corner_nil, fun c => ?_⟩
    simp only [not_starts_nil, and_false, exists_false, or_false]
  | cons s symbols ih =>
    cases s with
    | terminal t =>
      cases hwalk
      refine ⟨⟨hgood, .refl⟩, fun m hm => absurd hm (not_corner_cons not_transparent_terminal rfl),
        fun c => ?_⟩
      rw [LookaheadSet.admits_add, LookaheadSet.admits_ofTerminal]
      simp only [starts_terminal, exists_eq_right]
    | charClass k =>
      cases hwalk
      refine ⟨⟨hgood, .refl⟩, fun m hm => absurd hm (not_corner_cons not_transparent_charClass rfl),
        fun c => ?_⟩
      rw [LookaheadSet.admits_add, LookaheadSet.admits_ofClass]
      cases c <;> simp [starts_charClass]
    | endOfInput =>
      -- The end of input is passed over.
      obtain ⟨hvisited, hcorners, hset⟩ := ih hwalk hgood
      refine ⟨hvisited, fun m hm => ?_, fun c => ?_⟩
      · rcases corner_cons.1 hm with h | ⟨-, hm⟩
        · cases h
        · exact hcorners m hm
      · simp only [hset, starts_endOfInput]
    | nonTerminal n =>
      rw [walkRule] at hwalk
      split at hwalk
      · cases hwalk
      · rename_i memo₁ hvisit
        obtain ⟨⟨hgood₁, hgrows₁⟩, hn⟩ := hv n memo memo₁ hvisit hgood
        have hwhole := hgood₁.exact.whole hnodup hn
        dsimp only at hwalk
        split at hwalk
        · rename_i hnull
          -- Behind a nullable name the walk goes on.
          obtain ⟨⟨hgood₂, hgrows₂⟩, hcorners, hset⟩ := ih hwalk hgood₁
          refine ⟨⟨hgood₂, hgrows₁.trans hgrows₂⟩, fun m hm => ?_, fun c => ?_⟩
          · rcases corner_cons.1 hm with h | ⟨-, hm⟩
            · cases h
              exact hgrows₂.mem_names hn
            · exact hcorners m hm
          · simp only [hset, LookaheadSet.admits_add, hwhole, starts_nonTerminal, hnull, true_and,
              and_or_left, exists_or, or_assoc]
        · rename_i hnull
          -- No other corner is behind a name that is not nullable.
          cases hwalk
          refine ⟨⟨hgood₁, hgrows₁⟩, fun m hm => ?_, fun c => ?_⟩
          · rcases corner_cons.1 hm with h | ⟨h, -⟩
            · cases h
              exact hn
            · exact absurd (transparent_nonTerminal.1 h) hnull
          · simp only [LookaheadSet.admits_add, hwhole, starts_nonTerminal, hnull, false_and,
              or_false, Bool.false_eq_true]

theorem walkRules_eq_ok {v : String → Memo → Except GrammarError Memo}
    (hnodup : (entries.map (·.name)).Nodup)
    (hv : ∀ n memo memo', v n memo = .ok memo' → memo.Good entries nullable →
      Visited entries nullable path memo memo' ∧ n ∈ memo'.names)
    {rules : List Rule} {sets : List LookaheadSet}
    (hwalk : walkRules nullable v rules memo = .ok (sets, memo'))
    (hgood : memo.Good entries nullable) :
    Visited entries nullable path memo memo' ∧
      (∀ rule ∈ rules, ∀ m, Corner nullable rule.symbols m → m ∈ memo'.names) ∧
      List.Forall₂ (fun rule set => Opens entries nullable rule.symbols set) rules sets := by
  induction rules generalizing memo sets with
  | nil =>
    cases hwalk
    exact ⟨⟨hgood, .refl⟩, fun rule hrule => absurd hrule List.not_mem_nil, .nil⟩
  | cons rule rules ih =>
    rw [walkRules] at hwalk
    split at hwalk
    · cases hwalk
    · rename_i set memo₁ hrule
      split at hwalk
      · cases hwalk
      · rename_i sets memo₂ hrules
        cases hwalk
        obtain ⟨⟨hgood₁, hgrows₁⟩, hcorners₁, hset⟩ := walkRule_eq_ok hnodup hv hrule hgood
        obtain ⟨⟨hgood₂, hgrows₂⟩, hcorners₂, hsets⟩ := ih hrules hgood₁
        refine ⟨⟨hgood₂, hgrows₁.trans hgrows₂⟩, ?_, .cons (fun c => ?_) hsets⟩
        · refine List.forall_mem_cons.2 ⟨fun m hm => ?_, hcorners₂⟩
          exact hgrows₂.mem_names (hcorners₁ m hm)
        · simp [hset]

/-- A visit ends with the name done, and adds no name that is being worked on. -/
theorem visit_eq_ok (hnodup : (entries.map (·.name)).Nodup) {room : Nat}
    (hvisit : visit entries nullable room path n memo = .ok memo')
    (hgood : memo.Good entries nullable) :
    Visited entries nullable path memo memo' ∧ n ∈ memo'.names := by
  induction room generalizing path n memo memo' with
  | zero => cases hvisit
  | succ room ih =>
    rw [visit] at hvisit
    split at hvisit
    · cases hvisit
    · rename_i hpath
      split at hvisit
      · rename_i hdone
        cases hvisit
        exact ⟨⟨hgood, .refl⟩, Memo.isSome_find?_iff.1 hdone⟩
      · rename_i hnew
        split at hvisit
        · cases hvisit
        · rename_i entry hentry
          split at hvisit
          · cases hvisit
          · rename_i sets memo₁ hrules
            cases hvisit
            obtain ⟨⟨hgood₁, hgrows₁⟩, hcorners, hsets⟩ :=
              walkRules_eq_ok hnodup (fun k memo memo' => ih) hrules hgood
            have he : entry ∈ entries := List.mem_of_find?_eq_some hentry
            obtain rfl : entry.name = n := by simpa using List.find?_some hentry
            -- The visits on the way had the name on their path.
            have hfresh : entry.name ∉ memo₁.names :=
              hgrows₁.notMem_names List.mem_cons_self fun h => hnew (Memo.isSome_find?_iff.2 h)
            refine ⟨⟨⟨hgood₁.exact.cons rfl he hsets, hfresh, ?_, ?_, hgood₁.sorted⟩, ?_⟩,
              List.mem_cons_self⟩
            · rintro m ⟨rule, hrule, hm⟩
              exact hcorners rule ((rewrites_name_iff hnodup he).1 hrule) m hm
            · exact List.mem_map.2 ⟨entry, he, rfl⟩
            · refine hgrows₁.of_cons.trans ⟨[(entry.name, _)], rfl, fun p hp h => hpath ?_⟩
              obtain rfl := List.mem_singleton.1 h
              exact List.contains_iff_mem.2 hp

/-- In the end the walk is done with all names. -/
theorem visitAll_eq_ok (hnodup : (entries.map (·.name)).Nodup) {ns : List String}
    (hvisit : visitAll entries nullable ns memo = .ok memo') (hgood : memo.Good entries nullable) :
    Visited entries nullable [] memo memo' ∧ ∀ n ∈ ns, n ∈ memo'.names := by
  induction ns generalizing memo with
  | nil =>
    cases hvisit
    exact ⟨⟨hgood, .refl⟩, fun n hn => absurd hn List.not_mem_nil⟩
  | cons n ns ih =>
    rw [visitAll] at hvisit
    split at hvisit
    · cases hvisit
    · rename_i memo₁ hn
      obtain ⟨⟨hgood₁, hgrows₁⟩, hmem⟩ := visit_eq_ok hnodup hn hgood
      obtain ⟨⟨hgood₂, hgrows₂⟩, hall⟩ := ih hvisit hgood₁
      exact ⟨⟨hgood₂, hgrows₁.trans hgrows₂⟩,
        List.forall_mem_cons.2 ⟨hgrows₂.mem_names hmem, hall⟩⟩

theorem firstSets_eq_ok (hnodup : (entries.map (·.name)).Nodup)
    (hfirsts : firstSets entries nullable = .ok memo) :
    memo.Good entries nullable ∧ ∀ n ∈ entries.map (·.name), n ∈ memo.names := by
  have hempty : Memo.Good entries nullable [] := ⟨fun n f hf => (nomatch hf), trivial⟩
  obtain ⟨⟨hgood, -⟩, hall⟩ := visitAll_eq_ok hnodup hfirsts hempty
  exact ⟨hgood, hall⟩

end Walk

/-! ### Ranks -/

namespace Memo

variable {entries : List Entry} {nullable : String → Bool} {memo : Memo} {n m : String}

/-- How many names a walk was done with before a name. -/
def rank : Memo → String → Nat
  | [], _ => 0
  | (k, _) :: memo, n => if k = n then memo.length else rank memo n

theorem rank_lt_length (hn : n ∈ memo.names) : memo.rank n < memo.length := by
  induction memo with
  | nil => exact absurd hn List.not_mem_nil
  | cons x memo ih =>
    obtain ⟨k, f⟩ := x
    rw [rank]
    split
    · exact Nat.lt_succ_self _
    · rename_i hne
      exact Nat.lt_succ_of_lt (ih ((List.mem_cons.1 hn).resolve_left (Ne.symm hne)))

theorem Sorted.mem_names (hs : memo.Sorted entries nullable) (hn : n ∈ memo.names)
    (hcorner : LeftCorner entries nullable n m) : m ∈ memo.names := by
  induction memo with
  | nil => exact absurd hn List.not_mem_nil
  | cons x memo ih =>
    obtain ⟨-, hcorners, -, hs⟩ := hs
    refine List.mem_cons_of_mem _ ?_
    rcases List.mem_cons.1 hn with rfl | hn
    · exact hcorners m hcorner
    · exact ih hs hn

theorem rank_cons_of_mem {f : Firsts} (hn : n ∉ memo.names) (hm : m ∈ memo.names) :
    rank ((n, f) :: memo) m = memo.rank m := by
  rw [rank, if_neg]
  rintro rfl
  exact hn hm

/-- The left corners of a name have lower ranks. -/
theorem Sorted.rank_lt (hs : memo.Sorted entries nullable) (hn : n ∈ memo.names)
    (hcorner : LeftCorner entries nullable n m) : memo.rank m < memo.rank n := by
  induction memo with
  | nil => exact absurd hn List.not_mem_nil
  | cons x memo ih =>
    obtain ⟨k, f⟩ := x
    obtain ⟨hk, hcorners, -, hs⟩ := hs
    rcases List.mem_cons.1 hn with rfl | hn
    · have hm := hcorners m hcorner
      rw [rank_cons_of_mem hk hm, rank, if_pos rfl]
      exact rank_lt_length hm
    · rw [rank_cons_of_mem hk hn, rank_cons_of_mem hk (hs.mem_names hn hcorner)]
      exact ih hs hn

/-- The names a walk is done with are different names of the grammar. -/
theorem Sorted.length_le (hs : memo.Sorted entries nullable) : memo.length ≤ entries.length := by
  have hnodup : memo.names.Nodup ∧ memo.names ⊆ entries.map (·.name) := by
    induction memo with
    | nil => exact ⟨List.nodup_nil, List.nil_subset _⟩
    | cons x memo ih =>
      obtain ⟨hk, -, hmem, hs⟩ := hs
      obtain ⟨hnodup, hsub⟩ := ih hs
      exact ⟨List.nodup_cons.2 ⟨hk, hnodup⟩, List.cons_subset.2 ⟨hmem, hsub⟩⟩
  have hle := (List.subperm_of_subset hnodup.1 hnodup.2).length_le
  rwa [names, List.length_map, List.length_map] at hle

end Memo

/-! ### Candidates -/

/-- The rules of a name that can begin with a lookahead. -/
def Production.openers (p : Production) (c : Lookahead) : List Rule :=
  ((p.rules.zip p.firsts.perRule).filter (·.2.admits c)).map (·.1)

/-- The candidates for a name are those rules, and the empty rule if the name is nullable. -/
theorem Grammar.candidates_of_find? {g : Grammar} {n : String} {p : Production}
    (hp : g.find? n = some p) (c : Lookahead) :
    g.candidates n c = p.openers c ++ if p.nullable then [.epsilon] else [] := by
  rw [candidates, hp]
  rfl

namespace Grammar.Made

variable {g : Grammar} {memo : Memo} {n m : String} {rule : Rule} {c : Lookahead}

variable (hg : g.Made memo)

include hg

/-- The analysis knows the nullable names. -/
theorem contains_eq_isNullable : (nullableNames g.entries).contains = g.isNullable := by
  funext n
  rw [Bool.eq_iff_iff, List.contains_iff_mem, hg.isNullable_iff_mem]

theorem good : memo.Good g.entries g.isNullable ∧ ∀ n ∈ g.names, n ∈ memo.names := by
  have hfirsts := hg.firsts
  rw [hg.contains_eq_isNullable] at hfirsts
  have h := firstSets_eq_ok nodup_entries hfirsts
  rwa [map_name_entries] at h

/-- The FIRST-sets of the rules of a name. -/
theorem opens {p : Production} (hp : g.find? n = some p) : p.firsts.whole = .sum p.firsts.perRule ∧
    List.Forall₂ (fun rule set => Opens g.entries g.isNullable rule.symbols set)
      p.rules p.firsts.perRule := by
  obtain ⟨hgood, hall⟩ := hg.good
  obtain ⟨e, he, rfl, rfl⟩ := hg.find?_iff.1 hp
  have hn : e.name ∈ g.names := by
    rw [← map_name_entries]
    exact List.mem_map.2 ⟨e, he, rfl⟩
  obtain ⟨f, hf⟩ := Option.isSome_iff_exists.1 (Memo.isSome_find?_iff.2 (hall e.name hn))
  obtain ⟨hsum, e', he', hname, hsets⟩ := hgood.exact e.name f hf
  obtain rfl := List.inj_on_of_nodup_map nodup_entries he' he hname
  rw [produce]
  dsimp only
  rw [hf]
  exact ⟨hsum, hsets⟩

theorem mem_openers_iff {p : Production} (hp : g.find? n = some p) : rule ∈ p.openers c ↔
    ∃ d, c = some d ∧ rule ∈ p.rules ∧ Starts g.entries g.isNullable rule.symbols d := by
  rw [← Memo.exists_mem_zip_iff (hg.opens hp).2, Production.openers]
  simp

/-- The candidates for a name are its rules that can begin with the lookahead,
    and the empty rule if the name is nullable. -/
theorem mem_candidates_iff : rule ∈ g.candidates n c ↔
    (∃ d, c = some d ∧ Rewrites g.entries n rule ∧
      Starts g.entries g.isNullable rule.symbols d) ∨ g.isNullable n ∧ rule = .epsilon := by
  cases hp : g.find? n with
  | none => simp [candidates, isNullable, rewrites_iff, hp]
  | some p =>
    have hepsilon : rule ∈ (if p.nullable then [Rule.epsilon] else []) ↔
        p.nullable ∧ rule = .epsilon := by
      cases p.nullable <;> simp
    rw [candidates_of_find? hp, List.mem_append, hepsilon, hg.mem_openers_iff hp]
    simp [isNullable, rewrites_iff, hp]

/-- A name can only begin with names of lower rank. -/
theorem exists_rank : ∃ rank : String → Nat, (∀ n ∈ g.names, rank n < g.size) ∧
    ∀ n m, LeftCorner g.entries g.isNullable n m → rank m < rank n := by
  obtain ⟨hgood, hall⟩ := hg.good
  have hsize : memo.length ≤ g.size := by
    have hle := hgood.sorted.length_le
    rwa [entries, List.length_map] at hle
  refine ⟨memo.rank, fun n hn => ?_, fun n m hcorner => ?_⟩
  · exact Nat.lt_of_lt_of_le (Memo.rank_lt_length (hall n hn)) hsize
  · obtain ⟨rule, hrule, -⟩ := id hcorner
    have hn : n ∈ g.names := by
      rw [← map_name_entries]
      exact hrule.mem_names
    exact hgood.sorted.rank_lt (hall n hn) hcorner

end Grammar.Made

end Ramify.Flat
