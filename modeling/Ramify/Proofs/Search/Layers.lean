import Mathlib.Data.List.Shortlex
import Mathlib.Data.Set.Finite.Lattice
import Ramify.Proofs.Search.Barren
import Ramify.Proofs.Search.Lockstep

/-!
# Layer by layer

The unfinished states that can be reached from a start state are the nodes of a tree,
and a place in it (`Lies`) is a list of numbers. Breadth-first search goes through the
places in a fixed order: shorter ones before longer ones, and those of one length in
lexicographic order. At some of them the search can be *decided*, by a failure or by a
success among the successors (`verdict?`), and it ends at the first of these:

* `layer`: the places of one length in order, with the states that lie there;
* `generation_map`: trying a layer ends with the first verdict in it, and leaves the next
  layer if there is none;
* `Reported`: what every end of a limited search says about the places, kept up from
  layer to layer (`reported_generations`);
* `Breadth.returns_exactly`: without a limit, the search comes to an end just if there is
  a verdict or the tree is finite, and it ends with the first verdict there is.
-/

namespace Ramify.Search

variable {σ ε : Type} {kind : σ → Kind} {next : σ → Except ε (List σ)} {s t u v : σ} {i n : Nat}
  {p path : List Nat} {o o' : Outcome σ ε}

/-! ### Places -/

/-- A place below another one. -/
theorem lies_concat_iff : Lies kind next (p ++ [i]) s t ↔ ∃ u ts, Lies kind next p s u ∧
    kind u = .unfinished ∧ next u = .ok ts ∧ ts[i]? = some t := by
  induction p generalizing s with
  | nil =>
    constructor
    · intro h
      cases h with
      | onward hs hnext ht hlies =>
        cases hlies
        exact ⟨s, _, .root s, hs, hnext, ht⟩
    · rintro ⟨u, ts, hlies, hu, hnext, ht⟩
      cases hlies
      exact .onward hu hnext ht (.root t)
  | cons j p ih =>
    constructor
    · intro h
      cases h with
      | onward hs hnext ht hlies =>
        obtain ⟨u, ts, hlies, hu⟩ := ih.1 hlies
        exact ⟨u, ts, .onward hs hnext ht hlies, hu⟩
    · rintro ⟨u, ts, hlies, hu⟩
      cases hlies with
      | onward hs hnext ht hlies => exact .onward hs hnext ht (ih.2 ⟨u, ts, hlies, hu⟩)

/-- An unfinished state lies at a place below the start state. -/
def Node (kind : σ → Kind) (next : σ → Except ε (List σ)) (s : σ) (path : List Nat) (u : σ) :
    Prop :=
  Lies kind next path s u ∧ kind u = .unfinished

theorem node_concat_iff : Node kind next s (p ++ [i]) t ↔ ∃ u ts, Node kind next s p u ∧
    next u = .ok ts ∧ ts[i]? = some t ∧ kind t = .unfinished := by
  rw [Node, lies_concat_iff]
  constructor
  · rintro ⟨⟨u, ts, hlies, hu, hnext, ht⟩, hopen⟩
    exact ⟨u, ts, ⟨hlies, hu⟩, hnext, ht, hopen⟩
  · rintro ⟨u, ts, ⟨hlies, hu⟩, hnext, ht, hopen⟩
    exact ⟨⟨u, ts, hlies, hu, hnext, ht⟩, hopen⟩

/-! ### Verdicts -/

/-- How a search ends at an unfinished state: with a failure if its successors cannot be
    computed, and with the first success among them if there is one. -/
def verdict? (kind : σ → Kind) (next : σ → Except ε (List σ)) (u : σ) : Option (Outcome σ ε) :=
  match next u with
  | .error e => some (.failed e)
  | .ok ts => (ts.find? (kind · = .success)).map .found

theorem verdict?_ne_stopped (h : verdict? kind next u = some o) : o ≠ .stopped := by
  rw [verdict?] at h
  split at h
  · cases h
    exact nofun
  · obtain ⟨t, -, rfl⟩ := Option.map_eq_some_iff.1 h
    exact nofun

/-- There is a verdict at a place. -/
def Decides (kind : σ → Kind) (next : σ → Except ε (List σ)) (s : σ) (path : List Nat)
    (o : Outcome σ ε) : Prop :=
  ∃ u, Node kind next s path u ∧ verdict? kind next u = some o

/-- The first of all verdicts. Shorter places come before longer ones, and those of one
    length in lexicographic order. -/
def First (kind : σ → Kind) (next : σ → Except ε (List σ)) (s : σ) (o : Outcome σ ε) : Prop :=
  ∃ path, Decides kind next s path o ∧
    ∀ path' o', Decides kind next s path' o' → path = path' ∨ List.Shortlex (· < ·) path path'

/-- There is no verdict anywhere, and the tree comes to an end. -/
def Vain (kind : σ → Kind) (next : σ → Except ε (List σ)) (s : σ) : Prop :=
  (∀ path o, ¬Decides kind next s path o) ∧ {path | ∃ u, Node kind next s path u}.Finite

/-! ### Layers -/

/-- The places right below a place, with the unfinished states that lie there. -/
def below (kind : σ → Kind) (next : σ → Except ε (List σ)) (x : List Nat × σ) :
    List (List Nat × σ) :=
  match next x.2 with
  | .error _ => []
  | .ok ts => (ts.zipIdx.filter (kind ·.1 = .unfinished)).map fun y => (x.1 ++ [y.2], y.1)

/-- The places of one length, with the unfinished states that lie there. -/
def layer (kind : σ → Kind) (next : σ → Except ε (List σ)) (s : σ) : Nat → List (List Nat × σ)
  | 0 => [([], s)]
  | n + 1 => (layer kind next s n).flatMap (below kind next)

theorem mem_below {x : List Nat × σ} : (p, t) ∈ below kind next x ↔ ∃ ts i, next x.2 = .ok ts ∧
    ts[i]? = some t ∧ kind t = .unfinished ∧ p = x.1 ++ [i] := by
  rw [below]
  cases hnext : next x.2 with
  | error e => simp
  | ok ts =>
    simp only [List.mem_map, List.mem_filter, decide_eq_true_iff, Prod.mk.injEq, Prod.exists,
      List.mk_mem_zipIdx_iff_getElem?, Except.ok.injEq, exists_and_left, exists_eq_left']
    constructor
    · rintro ⟨u, i, ⟨hi, hu⟩, rfl, rfl⟩
      exact ⟨i, hi, hu, rfl⟩
    · rintro ⟨i, hi, ht, rfl⟩
      exact ⟨t, i, ⟨hi, ht⟩, rfl, rfl⟩

theorem mem_layer (hs : kind s = .unfinished) :
    (p, u) ∈ layer kind next s n ↔ p.length = n ∧ Node kind next s p u := by
  induction n generalizing p u with
  | zero =>
    rw [layer, List.mem_singleton, Prod.mk.injEq, List.length_eq_zero_iff]
    constructor
    · rintro ⟨rfl, rfl⟩
      exact ⟨rfl, .root u, hs⟩
    · rintro ⟨rfl, hlies, -⟩
      cases hlies
      exact ⟨rfl, rfl⟩
  | succ n ih =>
    simp only [layer, List.mem_flatMap, mem_below, Prod.exists, ih]
    constructor
    · rintro ⟨q, v, ⟨rfl, hnode⟩, ts, i, hnext, ht, hopen, rfl⟩
      exact ⟨List.length_append, node_concat_iff.2 ⟨v, ts, hnode, hnext, ht, hopen⟩⟩
    · rintro ⟨hlen, hnode⟩
      obtain rfl | ⟨q, i, rfl⟩ := p.eq_nil_or_concat'
      · cases hlen
      · obtain ⟨v, ts, hnode, hnext, ht, hopen⟩ := node_concat_iff.1 hnode
        refine ⟨q, v, ⟨?_, hnode⟩, ts, i, hnext, ht, hopen, rfl⟩
        simpa using hlen

/-- What comes behind places of one length does not change their order. -/
theorem lex_append {q a b : List Nat} (h : List.Lex (· < ·) p q) (hlen : p.length = q.length) :
    List.Lex (· < ·) (p ++ a) (q ++ b) := by
  induction h with
  | nil => cases hlen
  | rel hlt => exact .rel hlt
  | cons _ ih => exact .cons (ih (Nat.succ.inj hlen))

theorem pairwise_below (x : List Nat × σ) :
    (below kind next x).Pairwise fun y z => List.Lex (· < ·) y.1 z.1 := by
  rw [below]
  cases next x.2 with
  | error e => exact .nil
  | ok ts =>
    have hsorted : (ts.zipIdx.map (·.2)).Pairwise (· < ·) := by
      rw [List.zipIdx_map_snd]
      exact List.pairwise_lt_range'
    refine List.pairwise_map.2 (((List.pairwise_map.1 hsorted).filter _).imp fun hlt => ?_)
    exact List.Lex.append_left _ (.rel hlt) x.1

/-- A layer is in order. -/
theorem pairwise_layer (hs : kind s = .unfinished) :
    (layer kind next s n).Pairwise fun x y => List.Lex (· < ·) x.1 y.1 := by
  induction n with
  | zero => exact List.pairwise_singleton _ _
  | succ n ih =>
    refine List.pairwise_flatMap.2 ⟨fun x _ => pairwise_below x, ?_⟩
    refine ih.imp_of_mem fun {x y} hx hy hlex z hz z' hz' => ?_
    obtain ⟨_, i, -, -, -, hz⟩ := mem_below.1 hz
    obtain ⟨_, j, -, -, -, hz'⟩ := mem_below.1 hz'
    rw [hz, hz']
    exact lex_append hlex (((mem_layer hs).1 hx).1.trans ((mem_layer hs).1 hy).1.symm)

/-- There are no places behind an empty layer. -/
theorem layer_eq_nil_of_le {k : Nat} (h : layer kind next s n = []) (hle : n ≤ k) :
    layer kind next s k = [] := by
  induction hle with
  | refl => exact h
  | step _ ih => rw [layer, ih, List.flatMap_nil]

/-- If a layer is empty, the tree is finite. -/
theorem finite_of_layer_eq_nil (hs : kind s = .unfinished) (h : layer kind next s n = []) :
    {path | ∃ u, Node kind next s path u}.Finite := by
  refine (List.finite_toSet ((List.range n).flatMap fun k =>
    (layer kind next s k).map (·.1))).subset fun path hpath => ?_
  obtain ⟨u, hnode⟩ := hpath
  have hmem := (mem_layer hs).2 ⟨rfl, hnode⟩
  have hlt : path.length < n := by
    refine Nat.lt_of_not_le fun hle => ?_
    rw [layer_eq_nil_of_le h hle] at hmem
    exact List.not_mem_nil hmem
  exact List.mem_flatMap.2 ⟨_, List.mem_range.2 hlt, List.mem_map_of_mem hmem⟩

/-- If the tree is finite, some layer is empty. -/
theorem exists_layer_eq_nil (hs : kind s = .unfinished)
    (h : {path | ∃ u, Node kind next s path u}.Finite) : ∃ n, layer kind next s n = [] := by
  obtain ⟨n, hn⟩ := (h.image List.length).bddAbove
  refine ⟨n + 1, List.eq_nil_iff_forall_not_mem.2 fun ⟨p, u⟩ hmem => ?_⟩
  obtain ⟨hlen, hnode⟩ := (mem_layer hs).1 hmem
  have hle := hn (Set.mem_image_of_mem _ ⟨u, hnode⟩)
  omega

/-! ### Trying a layer -/

/-- The first verdict in a layer. -/
def layerVerdict? (kind : σ → Kind) (next : σ → Except ε (List σ)) (s : σ) (n : Nat) :
    Option (Outcome σ ε) :=
  (layer kind next s n).findSome? fun x => verdict? kind next x.2

theorem layerVerdict?_eq_none_iff (hs : kind s = .unfinished) :
    layerVerdict? kind next s n = none ↔
      ∀ path o, path.length = n → ¬Decides kind next s path o := by
  rw [layerVerdict?, List.findSome?_eq_none_iff]
  constructor
  · rintro h path o hlen ⟨u, hnode, hu⟩
    exact nomatch (h (path, u) ((mem_layer hs).2 ⟨hlen, hnode⟩)).symm.trans hu
  · rintro h ⟨path, u⟩ hmem
    obtain ⟨hlen, hnode⟩ := (mem_layer hs).1 hmem
    refine Option.eq_none_iff_forall_ne_some.2 fun o hu => h path o hlen ⟨u, hnode, hu⟩

/-- The first verdict in a layer is the first of all if there is none before. -/
theorem first_of_layerVerdict? (hs : kind s = .unfinished)
    (hbefore : ∀ k < n, layerVerdict? kind next s k = none)
    (h : layerVerdict? kind next s n = some o) : First kind next s o := by
  obtain ⟨before, ⟨path, u⟩, behind, hlayer, hu, hnone⟩ := List.findSome?_eq_some_iff.1 h
  have hmem : (path, u) ∈ layer kind next s n := by
    rw [hlayer]
    exact List.mem_append_right _ List.mem_cons_self
  obtain ⟨hlen, hnode⟩ := (mem_layer hs).1 hmem
  refine ⟨path, ⟨u, hnode, hu⟩, fun path' o' hdecides => ?_⟩
  rcases Nat.lt_trichotomy path'.length n with hlt | heq | hgt
  · exact absurd hdecides ((layerVerdict?_eq_none_iff hs).1 (hbefore _ hlt) path' o' rfl)
  · obtain ⟨u', hnode', hu'⟩ := hdecides
    have hmem' := (mem_layer hs).2 ⟨heq, hnode'⟩
    have hsorted : (layer kind next s n).Pairwise fun x y => List.Lex (· < ·) x.1 y.1 :=
      pairwise_layer hs
    rw [hlayer] at hmem' hsorted
    rcases List.mem_append.1 hmem' with hmem' | hmem'
    · exact nomatch (hnone _ hmem').symm.trans hu'
    rcases List.mem_cons.1 hmem' with heq' | hmem'
    · exact .inl (congrArg Prod.fst heq').symm
    · refine .inr (List.shortlex_def.2 (.inr ⟨hlen.trans heq.symm, ?_⟩))
      exact (List.pairwise_cons.1 (List.pairwise_append.1 hsorted).2.1).1 _ hmem'
  · exact .inr (List.shortlex_def.2 (.inl (hlen ▸ hgt)))

theorem map_snd_below (x : List Nat × σ) {ts : List σ} (h : next x.2 = .ok ts) :
    (below kind next x).map (·.2) = (Automaton.ofPure kind next).unfinished ts := by
  have hfst : (ts.zipIdx.filter (kind ·.1 = .unfinished)).map (·.1) =
      ts.filter (kind · = .unfinished) := by
    conv_rhs => rw [← List.zipIdx_map_fst 0 ts, List.filter_map]
    rfl
  rw [below, h]
  dsimp only
  rw [List.map_map]
  exact hfst

/-- Trying some states ends with the first verdict, and leaves what is right below them if
    there is none. -/
theorem generation_map (xs : List (List Nat × σ)) (gathered : List σ) :
    Breadth.generation (.ofPure kind next) (xs.map (·.2)) gathered () =
      ((xs.findSome? fun x => verdict? kind next x.2).elim
        (.next (gathered.reverse ++ (xs.flatMap (below kind next)).map (·.2))) .over, ()) := by
  induction xs generalizing gathered with
  | nil =>
    rw [List.flatMap_nil, List.map_nil, List.append_nil]
    rfl
  | cons x xs ih =>
    rw [List.map_cons, Breadth.generation, Breadth.next_ofPure, List.findSome?_cons, verdict?]
    cases hnext : next x.2 with
    | error e => rfl
    | ok ts =>
      have hfirst : (Automaton.ofPure kind next).firstSuccess ts =
          ts.find? (kind · = .success) := rfl
      dsimp only
      rw [hfirst]
      cases ts.find? (kind · = .success) with
      | some t => rfl
      | none =>
        dsimp only [Option.map_none]
        rw [ih, List.reverse_append, List.reverse_reverse, List.flatMap_cons, List.map_append,
          map_snd_below x hnext, List.append_assoc]

/-! ### The end of a search -/

/-- What the end of a search of so many layers says about the places. -/
inductive Reported (kind : σ → Kind) (next : σ → Except ε (List σ)) (s : σ) (limit : Nat) :
    Outcome σ ε → Prop
  | first {o : Outcome σ ε} : First kind next s o → Reported kind next s limit o
  | exhausted : Vain kind next s → Reported kind next s limit .exhausted
  | stopped : (∀ k < limit, layerVerdict? kind next s k = none) → layer kind next s limit ≠ [] →
    Reported kind next s limit .stopped

/-- The search goes on from layer to layer. -/
theorem reported_generations (hs : kind s = .unfinished) (limit : Nat)
    (hbefore : ∀ k < n, layerVerdict? kind next s k = none) (hne : layer kind next s n ≠ []) :
    Reported kind next s (n + limit)
      (Breadth.generations (.ofPure kind next) limit ((layer kind next s n).map (·.2)) ()).1 := by
  induction limit generalizing n with
  | zero => exact .stopped hbefore hne
  | succ limit ih =>
    rw [Breadth.generations, generation_map, List.reverse_nil, List.nil_append, ← layerVerdict?,
      ← layer]
    cases hverdict : layerVerdict? kind next s n with
    | some o => exact .first (first_of_layerVerdict? hs hbefore hverdict)
    | none =>
      have hnone : ∀ k < n + 1, layerVerdict? kind next s k = none := fun k hk =>
        (Nat.lt_succ_iff_lt_or_eq.1 hk).elim (hbefore k) fun heq => heq ▸ hverdict
      rw [Option.elim_none]
      cases hnext : layer kind next s (n + 1) with
      | nil =>
        refine .exhausted ⟨fun path o hdecides => ?_, finite_of_layer_eq_nil hs hnext⟩
        obtain ⟨u, hnode, -⟩ := id hdecides
        -- The place is not in the empty layer, nor in one of those without a verdict.
        by_cases hlt : path.length < n + 1
        · exact (layerVerdict?_eq_none_iff hs).1 (hnone _ hlt) path o rfl hdecides
        · have hmem := (mem_layer hs).2 ⟨rfl, hnode⟩
          rw [layer_eq_nil_of_le hnext (Nat.not_lt.1 hlt)] at hmem
          exact List.not_mem_nil hmem
      | cons x xs =>
        have hgo := ih hnone (hnext ▸ List.cons_ne_nil x xs)
        rw [hnext, Nat.add_right_comm] at hgo
        exact hgo

namespace Breadth

/-- A search comes to an end: with any sufficient limit, it ends in this way. -/
def Returns {ω : Type} (a : Automaton σ ω ε) (s : σ) (w : ω) (o : Outcome σ ε) : Prop :=
  o ≠ .stopped ∧ ∃ n, ∀ limit, n ≤ limit → (run a limit s w).1 = o

theorem returns_of_run {ω : Type} {a : Automaton σ ω ε} {w : ω} {limit : Nat}
    (h : (run a limit s w).1 ≠ .stopped) : Returns a s w (run a limit s w).1 :=
  ⟨h, limit, fun _ hle => congrArg Prod.fst (run_eq_of_le hle h)⟩

theorem reported_run (hs : kind s = .unfinished) (limit : Nat) :
    Reported kind next s limit (run (.ofPure kind next) limit s ()).1 := by
  have hrun : run (.ofPure kind next) limit s () =
      generations (.ofPure kind next) limit ((layer kind next s 0).map (·.2)) () := by
    rw [run, show (Automaton.ofPure kind next).kind s = .unfinished from hs]
    rfl
  have hreported : Reported kind next s (0 + limit)
      (generations (.ofPure kind next) limit ((layer kind next s 0).map (·.2)) ()).1 :=
    reported_generations hs limit (fun k hk => absurd hk (Nat.not_lt_zero k))
      (List.cons_ne_nil _ _)
  rwa [Nat.zero_add, ← hrun] at hreported

/-- It ends with the first verdict, or all was in vain. -/
theorem first_or_vain_of_returns (hs : kind s = .unfinished)
    (h : Returns (.ofPure kind next) s () o) :
    First kind next s o ∨ (o = .exhausted ∧ Vain kind next s) := by
  obtain ⟨hends, n, hn⟩ := h
  have hreported : Reported kind next s n o := hn n (Nat.le_refl n) ▸ reported_run hs n
  cases hreported with
  | first hfirst => exact .inl hfirst
  | exhausted hvain => exact .inr ⟨rfl, hvain⟩
  | stopped => exact absurd rfl hends

/-- It comes to an end if one of the layers has a verdict or is empty. -/
theorem exists_returns {limit : Nat} (hs : kind s = .unfinished)
    (h : (∀ k < limit, layerVerdict? kind next s k = none) → layer kind next s limit = []) :
    ∃ o, Returns (.ofPure kind next) s () o := by
  refine ⟨(run (.ofPure kind next) limit s ()).1, returns_of_run fun hstop => ?_⟩
  have hreported : Reported kind next s limit .stopped := hstop ▸ reported_run hs limit
  cases hreported with
  | first hfirst =>
    obtain ⟨path, ⟨u, -, hu⟩, -⟩ := hfirst
    exact verdict?_ne_stopped hu rfl
  | stopped hnone hne => exact hne (h hnone)

/-- Breadth-first search is exact. If there are places where the search can be decided, it
    ends with the verdict at the first of them: a failure, or the first success among the
    successors. If there are none and the tree of unfinished states is finite, it ends
    with nothing found. Otherwise it does not end. -/
theorem returns_exactly (hs : kind s = .unfinished) :
    ((∃ path o, Decides kind next s path o) →
      ∃ o, First kind next s o ∧ Returns (.ofPure kind next) s () o) ∧
    (Vain kind next s → Returns (.ofPure kind next) s () .exhausted) ∧
    ∀ o, Returns (.ofPure kind next) s () o →
      First kind next s o ∨ (o = .exhausted ∧ Vain kind next s) := by
  refine ⟨fun ⟨path, o, hdecides⟩ => ?_, fun hvain => ?_, fun o => first_or_vain_of_returns hs⟩
  · have hlayer : ¬∀ k < path.length + 1, layerVerdict? kind next s k = none := fun hnone =>
      (layerVerdict?_eq_none_iff hs).1 (hnone _ (Nat.lt_succ_self _)) path o rfl hdecides
    obtain ⟨o', hreturns⟩ := exists_returns hs fun hnone => absurd hnone hlayer
    rcases first_or_vain_of_returns hs hreturns with hfirst | ⟨-, hnone, -⟩
    · exact ⟨o', hfirst, hreturns⟩
    · exact absurd hdecides (hnone path o)
  · obtain ⟨n, hn⟩ := exists_layer_eq_nil hs hvain.2
    obtain ⟨o, hreturns⟩ := exists_returns hs fun _ => hn
    rcases first_or_vain_of_returns hs hreturns with ⟨path, hdecides, -⟩ | ⟨rfl, -⟩
    · exact absurd hdecides (hvain.1 path o)
    · exact hreturns

/-- The rivals are a success below 1 and a failure of 2. -/
def rivalKind : Nat → Kind
  | 3 => .fail
  | 4 | 5 => .success
  | _ => .unfinished

/-- Both lie in one layer, in which 1 comes first. -/
def rivalNext : Nat → Except String (List Nat)
  | 0 => .ok [3, 1, 2]
  | 1 => .ok [6, 4, 5]
  | 2 => .error "broken"
  | n => .ok [n]

theorem returns_exactly_rivals : rivalKind 0 = .unfinished ∧
    Returns (.ofPure rivalKind rivalNext) 0 () (.found 4) ∧
    First rivalKind rivalNext 0 (.found 4) := by
  have hreturns : Returns (.ofPure rivalKind rivalNext) 0 () (.found 4) := by
    refine ⟨nofun, 2, fun limit hle => ?_⟩
    obtain ⟨limit, rfl⟩ := Nat.exists_eq_add_of_le' hle
    rfl
  exact ⟨rfl, hreturns, ((returns_exactly rfl).2.2 _ hreturns).resolve_right (nomatch ·.1)⟩

end Breadth

end Ramify.Search
