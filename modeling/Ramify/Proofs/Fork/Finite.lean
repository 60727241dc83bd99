import Mathlib.Data.Finset.Card
import Mathlib.Logic.Relation
import Ramify.Proofs.Fork.Copying
import Ramify.Proofs.Fork.View

/-!
# All that is seen is finite

Nothing about a node tells that what is seen from it downwards comes to an end, or that no
node is met twice on the way. Yet so it is, since a child is always new when it is added:
it comes after its branch, and it is added nowhere else.

* `Branching`: the children that a handle sees come after their branches, and each is the
  child of one branch, once;
* `Grove.Grown`: whatever has been done on a grove, this is what each handle sees
  (`Grown.branching`);
* `Grove.Beholds`: the views that a handle sees at nodes, whatever the order in which these
  came into being. Among them are those whose nodes ascend (`Shows.beholds`);
* `Grown.beholds_uniquely`, `Grown.size_le`: in a grove that has grown, a handle sees
  exactly one view at each node, which has no more nodes than the grove.
-/

namespace Ramify.Fork

open Relation

/-! ### Branches and their children -/

/-- The children of branches, of all nodes up to a number, make up trees: they come after
    their branches, and each has one place. -/
structure Branching (children : Nat → List Nat) (size : Nat) : Prop where
  ascends : ∀ n, ∀ k ∈ children n, n < k ∧ k < size
  nodup : ∀ n, (children n).Nodup
  parent : ∀ n m k, k ∈ children n → k ∈ children m → n = m

namespace Branching

variable {children : Nat → List Nat} {size n c c' m : Nat}

theorem childless (size : Nat) : Branching (fun _ => []) size :=
  ⟨fun _ _ h => absurd h List.not_mem_nil, fun _ => .nil, fun _ _ _ h => absurd h List.not_mem_nil⟩

theorem mono (hb : Branching children size) (hle : size ≤ m) : Branching children m :=
  { hb with ascends := fun n k hk => (hb.ascends n k hk).imp_right (Nat.lt_of_lt_of_le · hle) }

/-- A new node becomes a child. -/
theorem add (hb : Branching children size) (hn : n < size) :
    Branching (Function.update children n (children n ++ [size])) (size + 1) := by
  have hmem : ∀ m k, k ∈ Function.update children n (children n ++ [size]) m →
      k ∈ children m ∨ (m = n ∧ k = size) := fun m k hk => by
    by_cases hm : m = n
    · subst hm
      rw [Function.update_self, List.mem_append, List.mem_singleton] at hk
      exact hk.imp_right fun h => ⟨rfl, h⟩
    · exact .inl (by rwa [Function.update_of_ne hm] at hk)
  have hnew : ∀ m, size ∉ children m := fun m h => Nat.lt_irrefl _ (hb.ascends m _ h).2
  refine ⟨fun m k hk => ?_, fun m => ?_, fun m m' k hk hk' => ?_⟩
  · rcases hmem m k hk with hk | ⟨rfl, rfl⟩
    · exact (hb.ascends m k hk).imp_right Nat.lt_succ_of_lt
    · exact ⟨hn, Nat.lt_succ_self _⟩
  · by_cases hm : m = n
    · rw [hm, Function.update_self, ← List.concat_eq_append, List.nodup_concat]
      exact ⟨hnew n, hb.nodup n⟩
    · rw [Function.update_of_ne hm]
      exact hb.nodup m
  · rcases hmem m k hk with hold | ⟨rfl, rfl⟩ <;> rcases hmem m' k hk' with hold' | ⟨rfl, hk''⟩
    · exact hb.parent m m' k hold hold'
    · exact absurd (hk'' ▸ hold) (hnew m)
    · exact absurd hold' (hnew m')
    · rfl

/-- A node is found below another one, or is that one. -/
def Leads (children : Nat → List Nat) : Nat → Nat → Prop :=
  ReflTransGen fun p k => k ∈ children p

/-- Two nodes have nothing below them in common. -/
def Apart (children : Nat → List Nat) (n n' : Nat) : Prop :=
  ∀ m, Leads children n m → ¬Leads children n' m

/-- All nodes of a set are found below some nodes. -/
def Spans (children : Nat → List Nat) (ns : List Nat) (S : Finset Nat) : Prop :=
  ∀ m ∈ S, ∃ n ∈ ns, Leads children n m

theorem spans_empty {ns : List Nat} : Spans children ns ∅ := fun m hm =>
  absurd hm (Finset.notMem_empty m)

theorem le (hb : Branching children size) (h : Leads children n m) : n ≤ m := by
  induction h with
  | refl => exact Nat.le_refl n
  | tail _ hm ih => exact Nat.le_trans ih (Nat.le_of_lt (hb.ascends _ _ hm).1)

theorem lt_size (hb : Branching children size) (hn : n < size) (h : Leads children n m) :
    m < size := by
  rcases h.cases_tail with rfl | ⟨p, -, hm⟩
  · exact hn
  · exact (hb.ascends p m hm).2

/-- A child does not lead to another child of its branch. -/
theorem eq_of_leads (hb : Branching children size) (hc : c ∈ children n) (hc' : c' ∈ children n)
    (h : Leads children c c') : c = c' := by
  rcases h.cases_tail with rfl | ⟨p, hp, hp'⟩
  · rfl
  · -- The way would go through the branch, which comes before both.
    have hle : c ≤ n := hb.parent p n c' hp' hc' ▸ hb.le hp
    exact absurd (hb.ascends n c hc).1 (Nat.not_lt_of_le hle)

/-- What is found below one child is not found below another one. -/
theorem apart (hb : Branching children size) (hc : c ∈ children n) (hc' : c' ∈ children n)
    (hne : c ≠ c') : Apart children c c' := by
  intro m h h'
  have hunique : Relator.RightUnique fun k p => k ∈ children p := fun k p q hp hq =>
    hb.parent p q k hp hq
  rcases ReflTransGen.total_of_right_unique hunique h.swap h'.swap with h | h
  · exact hne (hb.eq_of_leads hc' hc h.swap).symm
  · exact hne (hb.eq_of_leads hc hc' h.swap)

/-- The children of a branch are apart from each other. -/
theorem pairwise_apart (hb : Branching children size) (n : Nat) :
    (children n).Pairwise (Apart children) :=
  (hb.nodup n).imp_of_mem hb.apart

/-- What is found below the children of a node and below others, which are apart from it, makes
    up one set with the node itself. -/
theorem exists_spans_cons (hb : Branching children size) {ns : List Nat} {C S : Finset Nat}
    (hC : Spans children (children n) C) (hS : Spans children ns S)
    (hn : ∀ n' ∈ ns, Apart children n n') :
    ∃ T : Finset Nat, T.card = C.card + 1 + S.card ∧ Spans children (n :: ns) T := by
  have hbelow : ∀ m ∈ insert n C, Leads children n m := fun m hm => by
    rcases Finset.mem_insert.1 hm with rfl | hm
    · exact .refl
    · obtain ⟨c, hc, hlead⟩ := hC m hm
      exact hlead.head hc
  have hnot : n ∉ C := fun hmem => by
    obtain ⟨c, hc, hlead⟩ := hC n hmem
    exact absurd (hb.ascends n c hc).1 (Nat.not_lt_of_le (hb.le hlead))
  have hdisjoint : Disjoint (insert n C) S := Finset.disjoint_left.2 fun m hm hm' => by
    obtain ⟨n', hn', hlead⟩ := hS m hm'
    exact hn n' hn' m (hbelow m hm) hlead
  refine ⟨insert n C ∪ S, ?_, fun m hm => ?_⟩
  · rw [Finset.card_union_of_disjoint hdisjoint, Finset.card_insert_of_notMem hnot]
  · rcases Finset.mem_union.1 hm with hm | hm
    · exact ⟨n, List.mem_cons_self, hbelow m hm⟩
    · obtain ⟨n', hn', hlead⟩ := hS m hm
      exact ⟨n', List.mem_cons_of_mem n hn', hlead⟩

end Branching

/-! ### Groves that have grown -/

variable {β κ : Type}

/-- A deed behind the others. -/
theorem done_concat {σ : Type} {act : Deed β κ → σ → Except ForkError (List Nat × σ)}
    (ds : List (Deed β κ)) (d : Deed β κ) (s : σ) :
    done act (ds ++ [d]) s = afterwards (done act ds s) (act d (done act ds s)) := by
  induction ds generalizing s with
  | nil => rfl
  | cons d' ds ih => exact ih _

theorem Deed.fitAll_concat {ds : List (Deed β κ)} {d : Deed β κ} {g : Grove β κ}
    (hds : fitAll ds g) (hd : d.fits (done run ds g)) : fitAll (ds ++ [d]) g := by
  induction ds generalizing g with
  | nil => exact Bool.and_eq_true_iff.2 ⟨hd, rfl⟩
  | cons d' ds ih =>
    obtain ⟨hd', hds⟩ := Bool.and_eq_true_iff.1 hds
    exact Bool.and_eq_true_iff.2 ⟨hd', ih hds hd⟩

namespace Mirrors

variable {g : Grove β κ} {c : Copies β κ} {d : Deed β κ} {label : Label β κ}

/-- The children in all copies make up trees. -/
def Branches (c : Copies β κ) : Prop :=
  ∀ h t, c.roster.use h = .ok t → Branching t.children c.labels.size

theorem branches_plant (hc : Branches c) : Branches (c.plant label) := by
  intro k t ht
  rw [Copies.plant, Array.size_push]
  rcases Roster.use_add.1 ht with ⟨-, rfl⟩ | ht
  · exact .childless _
  · exact (hc k t ht).mono (Nat.le_succ _)

theorem branches_attach {h n : Nat} (hc : Branches c) (hn : n < c.labels.size) :
    Branches ⟨c.labels.push label, c.roster.update h (.add n c.labels.size)⟩ := by
  intro k _ hk
  obtain ⟨t, ht, rfl⟩ := Roster.use_update.1 hk
  rw [Array.size_push]
  split
  · exact (hc k t ht).add hn
  · exact (hc k t ht).mono (Nat.le_succ _)

/-- A deed that fits leaves trees. -/
theorem branches_run (hm : Mirrors g c) (hd : d.fits g) (hc : Branches c) :
    Branches (afterwards c (d.copy c)) := by
  cases d with
  | plant label => exact branches_plant hc
  | add h n label =>
    rw [Deed.copy, Copies.append]
    cases c.roster.use h with
    | error e => exact hc
    | ok t => exact branches_attach hc (hm.nodes ▸ Grove.lt_size_of_isBranch hd)
  | setMarker h n =>
    rw [Deed.copy, Copies.setMarker]
    cases c.roster.use h with
    | error e => exact hc
    | ok _ =>
      intro k _ hk
      obtain ⟨t, ht, rfl⟩ := Roster.use_update.1 hk
      split <;> exact hc k t ht
  | fork h count =>
    rw [Deed.copy, Copies.fork, Roster.fork]
    cases hu : c.roster.use h with
    | error e => exact hc
    | ok p =>
      intro k t ht
      rcases (Roster.use_split hu).1 ht with ⟨-, -, rfl⟩ | ⟨-, ht⟩
      · exact hc h t hu
      · exact hc k t ht
  | drop h => exact fun k t ht => hc k t (Roster.use_drop.1 ht).2

/-- So do any number of deeds. -/
theorem branches_done {ds : List (Deed β κ)} (hm : Mirrors g c) (hds : Deed.fitAll ds g)
    (hc : Branches c) : Branches (Fork.done Deed.copy ds c) := by
  induction ds generalizing g c with
  | nil => exact hc
  | cons d ds ih =>
    obtain ⟨hd, hds⟩ := Bool.and_eq_true_iff.1 hds
    exact ih (hm.run hd).2 hds (hm.branches_run hd hc)

end Mirrors

namespace Grove

/-- A grove has come about by deeds that fit. -/
def Grown (g : Grove β κ) : Prop := ∃ ds, Deed.fitAll ds empty ∧ g = done Deed.run ds empty

variable {g : Grove β κ} {h n lo b : Nat} {p : Place} {ns cs : List Nat}
  {vs us : List (View β κ)} {v : View β κ}

namespace Grown

theorem empty : (Grove.empty : Grove β κ).Grown := ⟨[], rfl, rfl⟩

section Deeds

variable (hg : g.Grown)

include hg

/-- One more deed. -/
theorem afterwards {d : Deed β κ} (hd : d.fits g) : (Fork.afterwards g (d.run g)).Grown := by
  obtain ⟨ds, hds, rfl⟩ := hg
  exact ⟨ds ++ [d], Deed.fitAll_concat hds hd, (done_concat ds d Grove.empty).symm⟩

theorem plant (label : Label β κ) : (g.plant label).Grown :=
  hg.afterwards (d := .plant label) rfl

theorem attach (hu : g.roster.use h = .ok p) (hn : g.isBranch n) (label : Label β κ) :
    (g.attach h n label).Grown := by
  have hadd := hg.afterwards (d := .add h n label) hn
  rwa [Deed.run, append, hu] at hadd

theorem mark (hu : g.roster.use h = .ok p) (n : Nat) : (g.mark h n).Grown := by
  have hmark := hg.afterwards (d := .setMarker h n) rfl
  rwa [Deed.run, setMarker, hu] at hmark

theorem split (hu : g.roster.use h = .ok p) (count : Nat) : (g.split h count).2.Grown := by
  have hfork := hg.afterwards (d := .fork h count) rfl
  rwa [Deed.run, fork, hu] at hfork

theorem drop (h : Nat) : (g.drop h).Grown := hg.afterwards (d := .drop h) rfl

end Deeds

end Grown

/-- What a handle sees in a grove that has grown makes up trees. -/
theorem Grown.branching (hg : g.Grown) (hu : g.roster.use h = .ok p) :
    Branching (g.visible h) g.nodes.size := by
  obtain ⟨ds, hds, rfl⟩ := hg
  have hm := Mirrors.empty.done hds
  have hnone : Mirrors.Branches (Copies.empty : Copies β κ) := fun h _ ht =>
    absurd (Roster.lt_size_of_use ht) (Nat.not_lt_zero h)
  rw [hm.nodes]
  exact Mirrors.empty.branches_done hds hnone h _ ((hm.use h _).2 ⟨p, hu, rfl⟩)

/-! ### Views -/

/-- A handle sees views at nodes. -/
inductive Beholds (g : Grove β κ) (h : Nat) : List Nat → List (View β κ) → Prop
  | nil : Beholds g h [] []
  | leaf {n : Nat} {k : κ} {ns : List Nat} {vs : List (View β κ)} :
    g.label? n = some (.leaf k) → Beholds g h ns vs → Beholds g h (n :: ns) (.leaf k :: vs)
  | branch {n : Nat} {d : β} {cs ns : List Nat} {us vs : List (View β κ)} :
    g.label? n = some (.branch d) → g.children h n = .ok cs → Beholds g h cs us →
    Beholds g h ns vs → Beholds g h (n :: ns) (.branch d us :: vs)

theorem children_of_use (hu : g.roster.use h = .ok p) : g.children h n = .ok (g.visible h n) := by
  rw [children, hu]
  rfl

theorem use_of_children (hc : g.children h n = .ok cs) : ∃ p, g.roster.use h = .ok p := by
  rw [children] at hc
  cases hu : g.roster.use h with
  | ok p => exact ⟨p, rfl⟩
  | error e =>
    rw [hu] at hc
    cases hc

/-- What nodes show in ascending order is what a handle sees there. -/
theorem Shows.beholds (hs : Shows g h lo cs vs b) (hu : g.roster.use h = .ok p) :
    g.Beholds h cs vs := by
  induction hs with
  | nil => exact .nil
  | leaf _ hl _ _ ih => exact .leaf hl ih
  | branch _ hl _ _ ihu ihv => exact .branch hl (children_of_use hu) ihu ihv

namespace Beholds

theorem cons (hv : g.Beholds h [n] [v]) (hvs : g.Beholds h ns vs) :
    g.Beholds h (n :: ns) (v :: vs) := by
  cases hv with
  | leaf hl => exact .leaf hl hvs
  | branch hl hc hu => exact .branch hl hc hu hvs

theorem of_cons (hvs : g.Beholds h ns (v :: vs)) :
    ∃ n ns', ns = n :: ns' ∧ g.Beholds h [n] [v] ∧ g.Beholds h ns' vs := by
  cases hvs with
  | leaf hl hvs => exact ⟨_, _, rfl, .leaf hl .nil, hvs⟩
  | branch hl hc hu hvs => exact ⟨_, _, rfl, .branch hl hc hu .nil, hvs⟩

theorem lt_size (hv : g.Beholds h [n] [v]) : n < g.nodes.size := by
  refine Nat.lt_of_not_le fun hle => ?_
  have hnone : g.label? n = none := by
    rw [label?, node?, Array.getElem?_eq_none hle, Option.map_none]
  cases hv with
  | leaf hl | branch hl => cases hnone.symm.trans hl

theorem of_forall (hns : ∀ n ∈ ns, ∃ v, g.Beholds h [n] [v]) : ∃ vs, g.Beholds h ns vs := by
  induction ns with
  | nil => exact ⟨[], .nil⟩
  | cons n ns ih =>
    obtain ⟨⟨v, hv⟩, hns⟩ := List.forall_mem_cons.1 hns
    obtain ⟨vs, hvs⟩ := ih hns
    exact ⟨v :: vs, hv.cons hvs⟩

theorem unique (hvs : g.Beholds h ns vs) (hus : g.Beholds h ns us) : vs = us := by
  induction hvs generalizing us with
  | nil =>
    cases hus
    rfl
  | leaf hl _ ih =>
    cases hus with
    | leaf hl' hus =>
      cases hl.symm.trans hl'
      rw [ih hus]
    | branch hl' => cases hl.symm.trans hl'
  | branch hl hc _ _ ihc ih =>
    cases hus with
    | leaf hl' => cases hl.symm.trans hl'
    | branch hl' hc' hcs hus =>
      cases hl.symm.trans hl'
      cases hc.symm.trans hc'
      rw [ihc hcs, ih hus]

variable (hb : Branching (g.visible h) g.nodes.size) (hu : g.roster.use h = .ok p)

include hb hu

/-- Views at nodes that are apart have as many nodes as there are below these. -/
theorem exists_spans (hvs : g.Beholds h ns vs)
    (hns : ns.Pairwise (Branching.Apart (g.visible h))) :
    ∃ S : Finset Nat, S.card = View.sizes vs ∧ Branching.Spans (g.visible h) ns S := by
  induction hvs with
  | nil => exact ⟨∅, rfl, Branching.spans_empty⟩
  | leaf _ _ ih =>
    obtain ⟨hn, hns⟩ := List.pairwise_cons.1 hns
    obtain ⟨S, hcard, hS⟩ := ih hns
    obtain ⟨T, hcardT, hT⟩ := hb.exists_spans_cons Branching.spans_empty hS hn
    exact ⟨T, by rw [hcardT, hcard, Finset.card_empty, View.sizes, View.size], hT⟩
  | branch _ hc _ _ ihc ih =>
    obtain rfl := Except.ok.inj (hc.symm.trans (children_of_use hu))
    obtain ⟨hn, hns⟩ := List.pairwise_cons.1 hns
    obtain ⟨S, hcard, hS⟩ := ih hns
    obtain ⟨C, hcardC, hC⟩ := ihc (hb.pairwise_apart _)
    obtain ⟨T, hcardT, hT⟩ := hb.exists_spans_cons hC hS hn
    exact ⟨T, by rw [hcardT, hcard, hcardC, View.sizes, View.size], hT⟩

/-- A view at a node has no more nodes than there are. -/
theorem size_le (hv : g.Beholds h [n] [v]) : v.size ≤ g.nodes.size := by
  obtain ⟨S, hcard, hS⟩ := hv.exists_spans hb hu (List.pairwise_singleton _ n)
  have hsub : S ⊆ Finset.range g.nodes.size := fun m hm => by
    obtain ⟨_, hn', hlead⟩ := hS m hm
    obtain rfl := List.mem_singleton.1 hn'
    exact Finset.mem_range.2 (hb.lt_size hv.lt_size hlead)
  have hle := Finset.card_le_card hsub
  rwa [hcard, Finset.card_range, View.sizes, View.sizes, Nat.add_zero] at hle

/-- Something is seen at each node. -/
theorem exists_of_lt (hn : n < g.nodes.size) : ∃ v, g.Beholds h [n] [v] := by
  -- The further back a node is, the fewer nodes can be below it.
  induction hm : g.nodes.size - n using Nat.strongRecOn generalizing n with
  | ind m ih =>
    have hl : g.label? n = some g.nodes[n].label := by
      rw [label?, node?, Array.getElem?_eq_getElem hn, Option.map_some]
    cases hlabel : g.nodes[n].label with
    | leaf k => exact ⟨.leaf k, .leaf (hl.trans (congrArg some hlabel)) .nil⟩
    | branch d =>
      obtain ⟨us, hus⟩ := of_forall fun k hk => by
        obtain ⟨hlt, hsize⟩ := hb.ascends n k hk
        exact ih (g.nodes.size - k) (by omega) hsize rfl
      exact ⟨.branch d us,
        .branch (hl.trans (congrArg some hlabel)) (children_of_use hu) hus .nil⟩

end Beholds

namespace Grown

/-- In a grove that has grown, a handle sees exactly one view at each node. -/
theorem beholds_uniquely (hg : g.Grown) (hu : g.roster.use h = .ok p) (hn : n < g.nodes.size) :
    ∃! v, g.Beholds h [n] [v] := by
  obtain ⟨v, hv⟩ := Beholds.exists_of_lt (hg.branching hu) hu hn
  exact ⟨v, hv, fun u hv' => (List.cons.inj (hv'.unique hv)).1⟩

/-- No node is met twice, so that a view has no more nodes than the grove. -/
theorem size_le (hg : g.Grown) (hv : g.Beholds h [n] [v]) : v.size ≤ g.nodes.size := by
  cases v with
  | leaf k => exact Nat.lt_of_le_of_lt (Nat.zero_le n) hv.lt_size
  | branch d us =>
    -- A handle that sees children can be used.
    obtain ⟨p, hu⟩ : ∃ p, g.roster.use h = .ok p := by
      cases hv with
      | branch _ hc => exact use_of_children hc
    exact hv.size_le (hg.branching hu) hu

end Grown

end Grove

end Ramify.Fork
