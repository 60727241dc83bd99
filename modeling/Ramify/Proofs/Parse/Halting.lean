import Mathlib.Logic.Hydra
import Mathlib.Tactic.Abel
import Mathlib.Tactic.Ring
import Ramify.Parse.Parser
import Ramify.Proofs.Parse.Budget
import Ramify.Proofs.Parse.Pool

/-!
# Every parse halts

Since each step of an attempt uses up what it can afford, no path is longer than
what the first attempt can afford, and the limit of a search is more than that
(`lt_stepLimit`). A pool of attempts comes to an end as well, in whatever order
they take their steps: of what they can afford, one number is replaced by any
number of smaller ones.
-/

namespace Ramify.Parse

open Search (Leads)

variable {g : Flat.Grammar} {memo : Flat.Memo} {m : Machine} {w : List Char} {start : Symbol}

theorem Gauge.exists (hg : g.Made memo) :
    ∃ gauge : Gauge g, gauge.longest = (Flat.Metrics.compute g).maxRuleLength := by
  obtain ⟨rank, hsize, hfalls⟩ := hg.exists_rank
  refine ⟨⟨rank, hfalls, hsize, _, fun n rule hrule => ?_⟩, rfl⟩
  obtain ⟨p, hp, hmem⟩ := Flat.Grammar.rewrites_iff.1 hrule
  have hrules : rule.length ∈ (g.productions.flatMap (·.rules)).map (·.length) :=
    List.mem_map.2 ⟨rule, List.mem_flatMap.2 ⟨p, (g.find?_eq_some_iff.1 hp).1, hmem⟩, rfl⟩
  rw [Flat.Metrics.compute]
  dsimp only
  rw [List.foldl_max]
  exact Nat.le_trans (List.le_max?_getD_of_mem hrules) (Nat.le_max_right _ _)

/-- The limit is more than an attempt can afford. -/
theorem lt_stepLimit {gauge : Gauge g}
    (hlongest : gauge.longest = (Flat.Metrics.compute g).maxRuleLength) (length : Nat) :
    1 + effort gauge.longest g.size +
      length * (g.size * (gauge.longest * effort gauge.longest g.size) + 1) <
      Parser.stepLimit g length := by
  have hnames : (Flat.Metrics.compute g).names = g.size := rfl
  rw [Parser.stepLimit, Nat.pow_eq, ← hlongest, hnames]
  generalize gauge.longest = l
  generalize g.size = k
  -- Each part of the cost stays below the power in the limit. The powers are
  -- made opaque then, so that the rest is arithmetic.
  have hpow : effort l k ≤ (l + 2) ^ (k + 1) :=
    Nat.le_trans effort_le_pow (Nat.pow_le_pow_right (Nat.succ_pos _) (Nat.le_succ k))
  have hrule : l * effort l k ≤ (l + 2) ^ (k + 2) :=
    calc l * effort l k ≤ (l + 2) * (l + 2) ^ (k + 1) := Nat.mul_le_mul (Nat.le_add_right l 2) hpow
      _ = (l + 2) ^ (k + 2) := Nat.mul_comm _ _
  have hname : effort l k ≤ (l + 2) ^ (k + 2) :=
    Nat.le_trans hpow (Nat.pow_le_pow_right (Nat.succ_pos _) (Nat.le_succ _))
  have hpos : 0 < (l + 2) ^ (k + 2) := Nat.pow_pos (Nat.succ_pos _)
  generalize (l + 2) ^ (k + 2) = q at hrule hname hpos
  have hprice : k * (l * effort l k) + 1 ≤ (k + 1) * q :=
    calc k * (l * effort l k) + 1 ≤ k * q + q := Nat.add_le_add (Nat.mul_le_mul_left k hrule) hpos
      _ = (k + 1) * q := (Nat.succ_mul k q).symm
  have htotal : effort l k + length * (k * (l * effort l k) + 1) ≤ (length + 1) * ((k + 1) * q) :=
    calc effort l k + length * (k * (l * effort l k) + 1)
        ≤ (k + 1) * q + length * ((k + 1) * q) :=
          Nat.add_le_add (Nat.le_trans hname (Nat.le_mul_of_pos_left q (Nat.succ_pos k)))
            (Nat.mul_le_mul_left length hprice)
      _ = (length + 1) * ((k + 1) * q) := by ring
  calc 1 + effort l k + length * (k * (l * effort l k) + 1)
      ≤ 1 + (length + 1) * ((k + 1) * q) := by
        rw [Nat.add_assoc]
        exact Nat.add_le_add_left htotal 1
    _ < 2 * ((length + 1) * ((k + 1) * q)) + 4 := by omega
    _ = 2 * (k + 1) * (length + 1) * q + 4 := by ring

/-- A move of a pool uses up some of what its attempts can afford. -/
theorem Solo.Moves.cutExpand (hg : m.grammar.Made memo) {gauge : Gauge m.grammar}
    {xs : List (Solo.State × Nat)} {ts : List Solo.State} (h : ∀ x ∈ xs, x.1.Affords gauge x.2)
    (hmove : Moves m (xs.map (·.1)) ts) : ∃ ys : List (Solo.State × Nat), ys.map (·.1) = ts ∧
      (∀ y ∈ ys, y.1.Affords gauge y.2) ∧ Relation.CutExpand (· < ·)
        (ys.map (·.2) : Multiset Nat) (xs.map (·.2) : Multiset Nat) := by
  generalize hts : xs.map (·.1) = all at hmove
  cases hmove with
  | @advance before after new b hnew =>
    obtain ⟨xb, _, rfl, rfl, hrest⟩ := List.map_eq_append_iff.1 hts
    obtain ⟨⟨t, n⟩, xa, rfl, rfl, rfl⟩ := List.map_eq_cons_iff.1 hrest
    have hb : Parse.Affords gauge b n := h _ (List.mem_append_right _ List.mem_cons_self)
    -- All successors can afford one step less than the attempt could.
    refine ⟨xb ++ (new.map (·, n - 1) ++ xa), ?_, fun y hy => ?_,
      (List.replicate new.length (n - 1) : List Nat), n, fun k hk => ?_, ?_⟩
    · simp [Function.comp_def]
    · rcases List.mem_append.1 hy with hy | hy
      · exact h y (List.mem_append_left _ hy)
      · rcases List.mem_append.1 hy with hy | hy
        · obtain ⟨u, hu, rfl⟩ := List.mem_map.1 hy
          exact .next hg hb hnew hu
        · exact h y (List.mem_append_right _ (List.mem_cons_of_mem _ hy))
    · have hpos := hb.pos
      rw [List.eq_of_mem_replicate (Multiset.mem_coe.1 hk)]
      omega
    · have hfuels : (new.map (·, n - 1)).map (·.2) = List.replicate new.length (n - 1) := by
        rw [List.map_map]
        exact List.map_const'
      rw [List.map_append, List.map_append, List.map_append, List.map_cons, hfuels,
        ← Multiset.coe_add, ← Multiset.coe_add, ← Multiset.coe_add, ← Multiset.cons_coe,
        ← Multiset.singleton_add]
      abel
  | @giveUp before after t =>
    obtain ⟨xb, _, rfl, rfl, hrest⟩ := List.map_eq_append_iff.1 hts
    obtain ⟨⟨t, n⟩, xa, rfl, rfl, rfl⟩ := List.map_eq_cons_iff.1 hrest
    -- What the state could have afforded is lost, and nothing takes its place.
    refine ⟨xb ++ xa, List.map_append, fun y hy => h y ?_, 0, n, by simp, ?_⟩
    · rcases List.mem_append.1 hy with hy | hy
      · exact List.mem_append_left _ hy
      · exact List.mem_append_right _ (List.mem_cons_of_mem _ hy)
    · rw [List.map_append, List.map_append, List.map_cons, ← Multiset.coe_add,
        ← Multiset.coe_add, ← Multiset.cons_coe, ← Multiset.singleton_add]
      abel

/-- There are only finitely many moves, in whatever order. -/
theorem Solo.acc_moves (hg : m.grammar.Made memo) {gauge : Gauge m.grammar}
    (xs : List (Solo.State × Nat)) (h : ∀ x ∈ xs, x.1.Affords gauge x.2) :
    Acc (fun us ts => Moves m ts us) (xs.map (·.1)) := by
  -- The induction is on what all attempts together can afford: a multiset, of
  -- which a move cuts one number into lower ones.
  have hwf : WellFounded (Relation.CutExpand fun k n : Nat => k < n) := wellFounded_lt.cutExpand
  generalize hfuels : (xs.map (·.2) : Multiset Nat) = fuels
  induction fuels using hwf.induction generalizing xs with
  | _ fuels ih =>
    subst hfuels
    refine ⟨_, fun us hmove => ?_⟩
    obtain ⟨ys, rfl, hys, hlt⟩ := hmove.cutExpand hg h
    exact ih _ hlt ys hys rfl

/-- From the first attempt there are only finitely many moves. -/
theorem Solo.acc_begin (hg : m.grammar.Made memo) (start : Symbol) (w : List Char) :
    Acc (fun us ts => Moves m ts us) [.running (begin start w)] := by
  obtain ⟨gauge, -⟩ := Gauge.exists hg
  -- At first there is a single attempt, which can afford what the limit allows.
  exact acc_moves hg [(.running (begin start w), _)]
    (List.forall_mem_singleton.2 (Affords.begin gauge start w))

theorem Hosts.acc_step {σ : Type} {p : Pool σ} {guests : List Guest}
    (hacc : Acc (fun us ts => Solo.Moves m ts us) (guests.map (·.2))) (h : Hosts w p.shared guests)
    (hp : guests.map (·.1) = p.states) : Acc (fun q p : Pool σ => p.Step m q) p := by
  generalize hts : guests.map (·.2) = ts at hacc
  induction hacc generalizing p guests with
  | intro ts _ ih =>
    subst hts
    refine ⟨_, fun q hstep => ?_⟩
    obtain ⟨guests', hq, h', hmoves⟩ := h.step_pool hp hstep
    exact ih _ hmoves h' hq rfl

/-- From where every sequence of steps ends, there is none that does not. -/
theorem not_forall_of_acc {α : Type} {r : α → α → Prop} {a : α} (hacc : Acc r a) :
    ¬∃ f : Nat → α, f 0 = a ∧ ∀ i, r (f (i + 1)) (f i) := by
  induction hacc with
  | intro a _ ih =>
    rintro ⟨f, rfl, hf⟩
    exact ih (f 1) (hf 0) ⟨fun i => f (i + 1), rfl, fun i => hf (i + 1)⟩

/-- The attempts on their own come to an end within the limit. -/
theorem Solo.lt_stepLimit_of_leads {t : Solo.State} {k : Nat} (hg : m.grammar.Made memo)
    (h : Leads State.kind (Solo.next m) k (.running (begin start w)) t) :
    k < Parser.stepLimit m.grammar w.length := by
  obtain ⟨gauge, hlongest⟩ := Gauge.exists hg
  refine Nat.lt_of_le_of_lt ?_ (lt_stepLimit hlongest w.length)
  refine h.length_le (P := fun n t => t.Affords gauge n) (fun n t us u ht hk hus hu => ?_)
    (Affords.begin gauge start w)
  cases t with
  | running a => exact ⟨n - 1, Nat.sub_one_lt (Nat.ne_of_gt ht.pos), .next hg ht hus hu⟩
  | accepted a | failed => cases hk

/-- A search ends as one of attempts on their own does, and how that ends tells
    which of them can be reached. -/
theorem Hosts.exists_ended {σ : Type} {s : Shared σ} {a : Attempt}
    (h : Hosts w s [(.running a, .running (Solo.begin start w))]) (limit : Nat) :
    ∃ o, Search.Simulates.Agree (Hosts w) (Search.Breadth.run m.automaton limit (.running a) s).2
        (Search.Breadth.run m.automaton limit (.running a) s).1 o ∧
      Search.Breadth.Ended Solo.State.kind (Solo.next m) limit [.running (Solo.begin start w)] o :=
  ⟨_, (simulates m w).run h, Search.Breadth.ended_run rfl⟩

/-- A search that stands for one of attempts on their own is not stopped. -/
theorem Hosts.run_ne_stopped {σ : Type} {s : Shared σ} {a : Attempt} (hg : m.grammar.Made memo)
    (h : Hosts w s [(.running a, .running (Solo.begin start w))]) {limit : Nat}
    (hlimit : Parser.stepLimit m.grammar w.length ≤ limit) :
    (Search.Breadth.run (m.automaton : Search.Automaton State (Shared σ) Fault) limit
      (.running a) s).1 ≠ .stopped := by
  intro hstop
  obtain ⟨o, hagree, hended⟩ := h.exists_ended (m := m) limit
  rw [hstop] at hagree
  cases hagree
  cases hended with
  | stopped hs hlead =>
    rw [List.mem_singleton.1 hs] at hlead
    exact Nat.not_lt_of_le hlimit (Solo.lt_stepLimit_of_leads hg hlead)

/-- Every parse halts. Whatever the text, there is no infinite sequence of steps
    from the first attempt, in whatever order attempts take them and whichever
    of them are given up; and a search generation by generation is not stopped
    by its limit. -/
theorem halts {σ : Type} (hg : g.Analysed) (follow : Flat.FollowSets) (start : Symbol)
    {produce : σ → Option Char × σ} {source : σ} (hw : Fork.Tape.Yields produce w source) :
    ∃ a s, begin start (.new produce source) 0 = .ok (a, s) ∧
      (¬∃ f : Nat → Pool σ, f 0 = ⟨[.running a], s⟩ ∧ ∀ i, (f i).Step ⟨g, follow⟩ (f (i + 1))) ∧
      ∀ limit, Parser.stepLimit g w.length ≤ limit →
        (Search.Breadth.run (Machine.automaton ⟨g, follow⟩) limit (.running a) s).1 ≠ .stopped := by
  obtain ⟨memo, hmade⟩ := hg.made
  obtain ⟨a, s, hbegin, h⟩ := hosts_begin hw start
  refine ⟨a, s, hbegin, ?_,
    fun limit hlimit => Hosts.run_ne_stopped (m := ⟨g, follow⟩) hmade h hlimit⟩
  exact not_forall_of_acc (Hosts.acc_step (Solo.acc_begin (m := ⟨g, follow⟩) hmade start w) h rfl)

/-- Parentheses, nested to any depth. -/
def parentheses : Ebnf.Grammar :=
  ⟨[("S", .optional (.seq [.symbol (.terminal ⟨'(', []⟩), .symbol (.nonTerminal "S"),
    .symbol (.terminal ⟨')', []⟩)]))], by decide⟩

theorem halts_parentheses : ∃ g, parentheses.flatten = .ok g ∧
    ∃ a s, begin (.nonTerminal "S") (.ofList ['(', ')']) 0 = .ok (a, s) ∧
      (¬∃ f : Nat → Pool (List Char), f 0 = ⟨[.running a], s⟩ ∧
        ∀ i, (f i).Step ⟨g, .compute g (.nonTerminal "S")⟩ (f (i + 1))) ∧
      ∀ limit, Parser.stepLimit g 2 ≤ limit →
        (Search.Breadth.run (Machine.automaton ⟨g, .compute g (.nonTerminal "S")⟩) limit
          (.running a) s).1 ≠ .stopped := by
  obtain ⟨g, hg⟩ : ∃ g, parentheses.flatten = .ok g := ⟨_, rfl⟩
  exact ⟨g, hg, halts (.of_flatten hg) _ _ (Fork.Tape.yields_fromList ['(', ')'])⟩

end Ramify.Parse
