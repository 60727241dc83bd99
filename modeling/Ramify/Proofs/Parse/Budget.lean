import Ramify.Proofs.Parse.Language

/-!
# What an attempt can afford

An attempt does not go on forever. To see why, look at its open branches: the
*fresh* ones, at which nothing was consumed yet, and the *stale* ones behind
them. A name that is opened at a fresh branch is a left corner of the one that
branch stands for, and so the ranks of the fresh branches fall (`Charged`). What
a name of some rank can cost without consuming anything is bounded
(`effort`), and all that is still to be done at the open branches weighs no more
than that allows (`weigh`). Each step lowers the weight, but for those that
consume a character: they turn fresh branches into stale ones, which a fixed
price for each character pays for (`Charged.weigh_settle`). So there is a number
of steps that an attempt can afford, and every step uses it up (`Affords.turn`).
-/

namespace Ramify.Parse

open Flat (Rewrites AllNullable LeftCorner Rule)

/-- What the costs of a grammar are measured with. -/
structure Gauge (g : Flat.Grammar) where
  /-- The rank of a name. -/
  rank : String → Nat
  /-- A name begins with names of lower rank only. -/
  falls : ∀ n m, LeftCorner g.entries g.isNullable n m → rank m < rank n
  /-- There are as many ranks as names. -/
  lt_size : ∀ n ∈ g.names, rank n < g.size
  /-- The length of the longest rule. -/
  longest : Nat
  /-- No rule is longer. -/
  length_le : ∀ n rule, Rewrites g.entries n rule → rule.length ≤ longest

/-! ### Weights -/

section Weight

variable {l ρ ρ' : Nat} {b : Bough} {v : Sight}

/-- A bound on the steps that a name below a rank can take without consuming
    anything, with rules of at most `l` symbols. -/
def effort (l : Nat) : Nat → Nat
  | 0 => 1
  | ρ + 1 => 2 + l * effort l ρ

/-- How many symbols of its rule a branch has not got yet. -/
def todo (b : Bough) : Nat := b.data.rule.length - b.children.length

/-- The weight of open branches, innermost first, each with a bound on the ranks
    of the names that it can still open without consuming anything. A branch
    that is not the innermost one has one symbol less to do. -/
def weigh (l : Nat) : Nat → List (Nat × Bough) → Nat
  | _, [] => 0
  | opened, (ρ, b) :: bs => 1 + (todo b - opened) * effort l ρ + weigh l 1 bs

theorem effort_pos : 0 < effort l ρ := by
  cases ρ with
  | zero => exact Nat.one_pos
  | succ ρ => rw [effort]; omega

theorem effort_mono (h : ρ ≤ ρ') : effort l ρ ≤ effort l ρ' := by
  induction ρ generalizing ρ' with
  | zero => exact effort_pos
  | succ ρ ih =>
    obtain ⟨k, rfl⟩ := Nat.exists_eq_add_one_of_ne_zero (Nat.ne_zero_of_lt h)
    rw [effort, effort]
    exact Nat.add_le_add_left (Nat.mul_le_mul_left l (ih (Nat.le_of_succ_le_succ h))) 2

theorem effort_le_pow : effort l ρ ≤ (l + 2) ^ ρ := by
  induction ρ with
  | zero => exact Nat.le_refl 1
  | succ ρ ih =>
    have hpos : 0 < effort l ρ := effort_pos
    calc effort l (ρ + 1) = 2 + l * effort l ρ := rfl
      _ ≤ 2 * effort l ρ + l * effort l ρ := Nat.add_le_add_right (by omega) _
      _ = (l + 2) * effort l ρ := by rw [Nat.add_comm, ← Nat.add_mul]
      _ ≤ (l + 2) * (l + 2) ^ ρ := Nat.mul_le_mul_left _ ih
      _ = (l + 2) ^ (ρ + 1) := Nat.mul_comm _ _

theorem todo_add : todo (b.add v) = todo b - 1 := by
  rw [todo, todo, Fork.Limb.add]
  dsimp only
  rw [List.length_append, List.length_singleton]
  omega

/-- What is to be done at a branch includes what is due. -/
theorem todo_spent {s : Symbol} (h : due b = some s) (cost : Nat) :
    (todo b - 1) * cost + cost = todo b * cost := by
  have hlt := (List.getElem?_eq_some_iff.1 h).1
  have hpos : 0 < todo b := Nat.sub_pos_of_lt hlt
  rw [← Nat.succ_mul, Nat.succ_eq_add_one, Nat.sub_add_cancel hpos]

end Weight

/-! ### Fresh and stale branches -/

section Charge

variable {g : Flat.Grammar} {gauge : Gauge g} {memo : Flat.Memo} {rest : List Char}
  {ρ ρ' : Nat} {b p : Bough} {bs : List (Nat × Bough)} {v : Sight} {n : String} {rule : Rule}

/-- A branch at which nothing was consumed yet: all that it has got are branches
    of nullable names, and unless it stands for the empty rule, there is a
    character left. -/
structure Young (g : Flat.Grammar) (rest : List Char) (b : Bough) : Prop where
  rule : b.data.rule = .epsilon ∧ g.isNullable b.data.name ∨
    rest ≠ [] ∧ Rewrites g.entries b.data.name b.data.rule
  children : AllNullable g (b.data.rule.symbols.take b.children.length)

/-- Open branches with their bounds: the fresh ones, each opened for a name of
    lower rank than the bound of the one it is below, and behind them the stale
    ones, which can open any name. -/
inductive Charged (gauge : Gauge g) (rest : List Char) : List (Nat × Bough) → Prop
  | stale {bs : List (Nat × Bough)} : (∀ x ∈ bs, x.1 = g.size) → Charged gauge rest bs
  | fresh {ρ : Nat} {b p : Bough} {bs : List (Nat × Bough)} : Young g rest b →
    due p = some (.nonTerminal b.data.name) → gauge.rank b.data.name < ρ →
    Charged gauge rest ((ρ, p) :: bs) →
    Charged gauge rest ((gauge.rank b.data.name, b) :: (ρ, p) :: bs)

/-- Open branches that are all stale. -/
def settle (size : Nat) (bs : List (Nat × Bough)) : List (Nat × Bough) :=
  bs.map fun x => (size, x.2)

namespace Young

/-- A branch for which there is something to do has one of the rules of its
    name. -/
theorem of_due {s : Symbol} (h : Young g rest b) (hdue : due b = some s) :
    rest ≠ [] ∧ Rewrites g.entries b.data.name b.data.rule := by
  refine h.rule.resolve_left ?_
  rintro ⟨hrule, -⟩
  rw [due, hrule] at hdue
  cases hdue

/-- A complete branch is one of a nullable name. -/
theorem isNullable (hg : g.Made memo) (h : Young g rest b)
    (hlen : b.children.length = b.data.rule.length) : g.isNullable b.data.name := by
  rcases h.rule with ⟨-, hnull⟩ | ⟨-, hrule⟩
  · exact hnull
  · have hall := h.children
    rw [List.take_of_length_le (Nat.le_of_eq hlen.symm)] at hall
    refine hg.isNullable_iff.2 (.cons hrule (Flat.vanishes_of_forall fun s hs => ?_) .nil)
    obtain ⟨m, rfl, hm⟩ := hall s hs
    exact ⟨m, rfl, hg.isNullable_iff.1 hm⟩

/-- A branch that gets one of a nullable name is still one where nothing was
    consumed. -/
theorem add (h : Young g rest b) (hdue : due b = some (.nonTerminal n)) (hn : g.isNullable n) :
    Young g rest (b.add v) := by
  refine ⟨h.rule, fun s hs => ?_⟩
  rw [Fork.Limb.add] at hs
  dsimp only at hs
  rw [List.length_append, List.length_singleton, List.take_add_one] at hs
  rcases List.mem_append.1 hs with hs | hs
  · exact h.children s hs
  · have hmem := Option.mem_toList.1 hs
    obtain rfl := Option.some.inj (hdue.symm.trans hmem)
    exact ⟨n, rfl, hn⟩

theorem rule_length_le (gauge : Gauge g) (h : Young g rest b) :
    b.data.rule.length ≤ gauge.longest := by
  rcases h.rule with ⟨hrule, -⟩ | ⟨-, hrule⟩
  · rw [hrule]
    exact Nat.zero_le _
  · exact gauge.length_le _ _ hrule

/-- What comes next at a branch is a left corner of the name it stands for. -/
theorem leftCorner (h : Young g rest b) (hdue : due b = some (.nonTerminal n)) :
    LeftCorner g.entries g.isNullable b.data.name n := by
  obtain ⟨hlt, hn⟩ := List.getElem?_eq_some_iff.1 hdue
  refine ⟨b.data.rule, (h.of_due hdue).2, b.data.rule.symbols.take b.children.length,
    b.data.rule.symbols.drop (b.children.length + 1), ?_, fun s hs => .inr (h.children s hs)⟩
  rw [← hn, List.getElem_cons_drop, List.take_append_drop]

/-- Where a name is expanded, nothing was consumed yet. -/
theorem of_mem_candidates (hg : g.Made memo) (h : rule ∈ g.candidates n rest.head?) :
    Young g rest ⟨⟨n, rule⟩, []⟩ := by
  refine ⟨?_, fun s hs => absurd hs List.not_mem_nil⟩
  rcases hg.mem_candidates_iff.1 h with ⟨c, hc, hrule, -⟩ | ⟨hn, hrule⟩
  · refine .inr ⟨?_, hrule⟩
    rintro rfl
    cases hc
  · exact .inl ⟨hrule, hn⟩

end Young

theorem mem_names_of_mem_candidates {c : Lookahead} (h : rule ∈ g.candidates n c) :
    n ∈ g.names := by
  rw [← Flat.Grammar.contains_iff, Flat.Grammar.contains]
  rw [Flat.Grammar.candidates] at h
  split at h
  · exact absurd h List.not_mem_nil
  · rename_i hfind
    rw [hfind]
    rfl

theorem weigh_settle_cons (l size opened : Nat) (ρ : Nat) (b : Bough) (bs : List (Nat × Bough)) :
    weigh l opened (settle size ((ρ, b) :: bs)) =
      1 + (todo b - opened) * effort l size + weigh l 1 (settle size bs) := rfl

namespace Charged

/-- All branches together are worth no more than the price of a character when
    they become stale. The lower the bound of the innermost one is, the more of
    them can be fresh. -/
theorem weigh_settle (h : Charged gauge rest ((ρ, b) :: bs)) (opened : Nat) :
    weigh gauge.longest opened (settle g.size ((ρ, b) :: bs)) +
        ρ * (gauge.longest * effort gauge.longest g.size) ≤
      weigh gauge.longest opened ((ρ, b) :: bs) +
        g.size * (gauge.longest * effort gauge.longest g.size) := by
  generalize hbs : (ρ, b) :: bs = all at h
  induction h generalizing ρ b bs opened with
  | stale hall =>
    subst hbs
    -- Stale branches are what they were.
    have hsame : settle g.size ((ρ, b) :: bs) = (ρ, b) :: bs := by
      refine (List.map_congr_left fun x hx => ?_).trans (List.map_id _)
      rw [← hall x hx]
      rfl
    obtain rfl : ρ = g.size := hall _ List.mem_cons_self
    rw [hsame]
  | @fresh ρ' b' p bs' hyoung hdue hlt hbehind ih =>
    obtain ⟨hpair, rfl⟩ := List.cons.inj hbs
    obtain ⟨rfl, rfl⟩ := Prod.mk.inj hpair
    have hih := ih 1 rfl
    have htodo : (todo b - opened) * effort gauge.longest g.size ≤
        gauge.longest * effort gauge.longest g.size := by
      refine Nat.mul_le_mul_right _ (Nat.le_trans (Nat.sub_le _ _) ?_)
      exact Nat.le_trans (Nat.sub_le _ _) (hyoung.rule_length_le gauge)
    -- The fall in rank leaves room for all that the branch may cost as a stale one.
    have hstep : gauge.rank b.data.name * (gauge.longest * effort gauge.longest g.size) +
        gauge.longest * effort gauge.longest g.size ≤
        ρ' * (gauge.longest * effort gauge.longest g.size) := by
      rw [← Nat.succ_mul]
      exact Nat.mul_le_mul_right _ hlt
    rw [weigh_settle_cons, weigh]
    omega

/-- A complete branch is closed. -/
theorem ascend (hg : g.Made memo) (h : Charged gauge rest ((ρ, b) :: (ρ', p) :: bs))
    (hlen : b.children.length = b.data.rule.length) :
    Charged gauge rest ((ρ', p.add b.close) :: bs) := by
  cases h with
  | stale hall =>
    obtain ⟨-, hp, hbs⟩ := List.forall_mem_cons.1 hall |>.imp_right List.forall_mem_cons.1
    exact .stale (List.forall_mem_cons.2 ⟨hp, hbs⟩)
  | fresh hyoung hdue _ hbehind =>
    cases hbehind with
    | stale hall => exact .stale (List.forall_mem_cons.2 (List.forall_mem_cons.1 hall))
    | fresh hyoung' hdue' hlt' hbehind' =>
      exact .fresh (hyoung'.add hdue (hyoung.isNullable hg hlen)) hdue' hlt' hbehind'

/-- A branch is opened for a name that is due. -/
theorem descend (hg : g.Made memo) (h : Charged gauge rest ((ρ, b) :: bs))
    (hdue : due b = some (.nonTerminal n)) (hrule : rule ∈ g.candidates n rest.head?) :
    Charged gauge rest ((gauge.rank n, ⟨⟨n, rule⟩, []⟩) :: (ρ, b) :: bs) ∧ gauge.rank n < ρ := by
  have hlt : gauge.rank n < ρ := by
    cases h with
    | stale hall =>
      have hρ : ρ = g.size := hall _ List.mem_cons_self
      rw [hρ]
      exact gauge.lt_size n (mem_names_of_mem_candidates hrule)
    | fresh hyoung => exact gauge.falls _ _ (hyoung.leftCorner hdue)
  exact ⟨.fresh (.of_mem_candidates hg hrule) hdue hlt h, hlt⟩

/-- At the end of the input there is nothing to do at fresh branches. -/
theorem stale_of_due {s : Symbol} (h : Charged gauge [] ((ρ, b) :: bs)) (hdue : due b = some s) :
    ∀ x ∈ (ρ, b) :: bs, x.1 = g.size := by
  cases h with
  | stale hall => exact hall
  | fresh hyoung => exact absurd rfl (hyoung.of_due hdue).1

end Charged

/-- A number of steps that is enough for an attempt: to be done at its open
    branches, and to consume what is left. -/
def Affords (gauge : Gauge g) (a : Solo) (fuel : Nat) : Prop :=
  ∃ ρ bs, bs.map (·.2) = a.above ∧ Charged gauge a.rest ((ρ, a.top) :: bs) ∧
    weigh gauge.longest 0 ((ρ, a.top) :: bs) +
      a.rest.length * (g.size * (gauge.longest * effort gauge.longest g.size) + 1) ≤ fuel

namespace Affords

variable {start : Symbol} {w : List Char} {m : Machine} {a a' : Solo} {fuel : Nat}

theorem begin (gauge : Gauge g) (start : Symbol) (w : List Char) :
    Affords gauge (.begin start w) (1 + effort gauge.longest g.size +
      w.length * (g.size * (gauge.longest * effort gauge.longest g.size) + 1)) := by
  refine ⟨g.size, [], rfl, .stale fun x hx => ?_, Nat.le_of_eq ?_⟩
  · rw [List.mem_singleton.1 hx]
  · simp [weigh, todo, Solo.begin, Rule.length]

theorem pos (h : Affords gauge a fuel) : 0 < fuel := by
  obtain ⟨ρ, bs, -, -, hle⟩ := h
  rw [weigh] at hle
  omega

/-- Characters are consumed. All branches become stale. -/
theorem consume {r : List Char} (h : Affords gauge a fuel) (hr : r.length < a.rest.length)
    (token : Token) :
    ∃ fuel' < fuel, Affords gauge (a.grow token r) fuel' := by
  obtain ⟨ρ, bs, hbs, hc, hle⟩ := h
  -- The price of the character pays for what it costs that fresh branches become
  -- stale, as they can open any name again.
  refine ⟨_, Nat.lt_of_lt_of_le ?_ hle, g.size, settle g.size bs, ?_, .stale ?_, Nat.le_refl _⟩
  · have hsettle := hc.weigh_settle 0
    have hpos : 0 < effort gauge.longest g.size := effort_pos
    have hgrow : weigh gauge.longest 0 ((g.size, a.top.add (.leaf token)) :: settle g.size bs) ≤
        weigh gauge.longest 0 (settle g.size ((ρ, a.top) :: bs)) := by
      rw [weigh_settle_cons, weigh, todo_add]
      exact Nat.add_le_add_right (Nat.add_le_add_left (Nat.mul_le_mul_right _ (by omega)) 1) _
    have hprice : (r.length + 1) * (g.size * (gauge.longest * effort gauge.longest g.size) + 1) ≤
        a.rest.length * (g.size * (gauge.longest * effort gauge.longest g.size) + 1) :=
      Nat.mul_le_mul_right _ hr
    rw [Nat.succ_mul] at hprice
    rw [Solo.grow]
    dsimp only
    omega
  · rw [settle, List.map_map]
    exact hbs
  · refine List.forall_mem_cons.2 ⟨rfl, fun x hx => ?_⟩
    obtain ⟨y, -, rfl⟩ := List.mem_map.1 hx
    rfl

/-- A complete branch is closed, which costs nothing but itself. -/
theorem ascend (hg : g.Made memo) (h : Affords gauge a fuel)
    (hlen : a.top.children.length = a.top.data.rule.length) {limb : Bough} {limbs : List Bough}
    (habove : a.above = limb :: limbs) :
    ∃ fuel' < fuel, Affords gauge ⟨limb.add a.top.close, limbs, a.rest⟩ fuel' := by
  obtain ⟨ρ, bs, hbs, hc, hle⟩ := h
  rw [habove] at hbs
  obtain ⟨⟨ρ', limb'⟩, bs, rfl, rfl, rfl⟩ := List.map_eq_cons_iff.1 hbs
  refine ⟨_, Nat.lt_of_lt_of_le ?_ hle, ρ', bs, rfl, hc.ascend hg hlen, Nat.le_refl _⟩
  have htodo : todo a.top = 0 := Nat.sub_eq_zero_of_le (Nat.le_of_eq hlen.symm)
  simp only [weigh, todo_add, htodo, Nat.sub_zero]
  omega

/-- The end of the input is a symbol less to do. -/
theorem endOfInput {s : Symbol} (h : Affords gauge a fuel) (hdue : due a.top = some s)
    (hrest : a.rest = []) (token : Token) :
    ∃ fuel' < fuel, Affords gauge (a.grow token []) fuel' := by
  obtain ⟨ρ, bs, hbs, hc, hle⟩ := h
  rw [hrest] at hc hle
  obtain ⟨hρ, hall⟩ := List.forall_mem_cons.1 (hc.stale_of_due hdue)
  refine ⟨_, Nat.lt_of_lt_of_le ?_ hle, ρ, bs, hbs, .stale (List.forall_mem_cons.2 ⟨hρ, hall⟩),
    Nat.le_refl _⟩
  have hspent := todo_spent hdue (effort gauge.longest ρ)
  have hpos : 0 < effort gauge.longest ρ := effort_pos
  simp only [Solo.grow, weigh, todo_add, Nat.sub_zero]
  omega

/-- What a name can cost is covered by the symbol that is dealt with. -/
theorem descend (hg : g.Made memo) (h : Affords gauge a fuel)
    (hdue : due a.top = some (.nonTerminal n)) (hrule : rule ∈ g.candidates n a.rest.head?) :
    ∃ fuel' < fuel, Affords gauge (a.descend ⟨n, rule⟩) fuel' := by
  obtain ⟨ρ, bs, hbs, hc, hle⟩ := h
  obtain ⟨hc', hlt⟩ := hc.descend hg hdue hrule
  refine ⟨_, Nat.lt_of_lt_of_le ?_ hle, gauge.rank n, (ρ, a.top) :: bs, ?_, hc', Nat.le_refl _⟩
  · have hspent := todo_spent hdue (effort gauge.longest ρ)
    have heffort : effort gauge.longest (gauge.rank n + 1) ≤ effort gauge.longest ρ :=
      effort_mono hlt
    rw [effort] at heffort
    have hcost : rule.length * effort gauge.longest (gauge.rank n) ≤
        gauge.longest * effort gauge.longest (gauge.rank n) :=
      Nat.mul_le_mul_right _ ((Young.of_mem_candidates hg hrule).rule_length_le gauge)
    have htodo : todo ⟨⟨n, rule⟩, []⟩ = rule.length := rfl
    simp only [Solo.descend, weigh, htodo, Nat.sub_zero]
    omega
  · rw [Solo.descend, ← hbs]
    rfl

/-- Every step is paid for. -/
theorem turn (hg : m.grammar.Made memo) {gauge : Gauge m.grammar} (h : Affords gauge a fuel)
    (ht : a.Turn m (.running a')) : ∃ fuel' < fuel, Affords gauge a' fuel' := by
  cases ht with
  | ascend hlen habove => exact h.ascend hg hlen habove
  | endOfInput hdue hrest => exact h.endOfInput hdue hrest _
  | charClass hdue hrest hk =>
    refine h.consume ?_ _
    rw [hrest]
    exact Nat.lt_succ_self _
  | terminal hdue hrest =>
    refine h.consume ?_ _
    rw [hrest, List.length_append, Terminal.chars, List.length_cons]
    omega
  | descend hdue hmem => exact h.descend hg hdue (Machine.mem_candidates_iff.1 hmem).1

theorem mono {fuel' : Nat} (h : Affords gauge a fuel) (hle : fuel ≤ fuel') :
    Affords gauge a fuel' := by
  obtain ⟨ρ, bs, hbs, hc, hfuel⟩ := h
  exact ⟨ρ, bs, hbs, hc, Nat.le_trans hfuel hle⟩

end Affords

/-- A number of steps that is enough for a state. -/
def Solo.State.Affords (gauge : Gauge g) : Solo.State → Nat → Prop
  | .running a, fuel => Parse.Affords gauge a fuel
  | _, _ => True

theorem Solo.State.Affords.next {m : Machine} (hg : m.grammar.Made memo) {gauge : Gauge m.grammar}
    {a : Solo} {u : Solo.State} {us : List Solo.State} {fuel : Nat}
    (h : Parse.Affords gauge a fuel) (hus : a.step m = .ok us) (hu : u ∈ us) :
    u.Affords gauge (fuel - 1) := by
  cases u with
  | running b =>
    obtain ⟨fuel', hlt, hb⟩ := h.turn hg (Solo.turn_of_next hus hu Solo.State.noConfusion)
    exact hb.mono (Nat.le_sub_one_of_lt hlt)
  | accepted b | failed => trivial

end Charge

end Ramify.Parse
