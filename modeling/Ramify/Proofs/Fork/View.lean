import Ramify.Proofs.Fork.Dropping

/-!
# What a handle sees

A *view* is what an owner sees from a node downwards, as a tree in its own
right (`View`). A handle sees more than finished trees, though: from its marker
up to the root it sees branches that are still growing (`Limb`), each with the
children it has so far.

* `Grove.Shows`: nodes show views. Nodes are numbered in the order of their
  creation, and an owner and its ancestors create theirs depth first, so that
  the nodes of a view make up an ascending sequence;
* `Grove.Rises`: the limbs from a node up to the root;
* `Rises.grow`, `Rises.branchOff`, `Rises.ascend`: how the limbs change by the
  steps of the handle they belong to;
* `Shows.walk`: a walk over the nodes of a view meets every node of it once.
-/

namespace Ramify.Fork

/-- What an owner sees from a node downwards. -/
inductive View (β κ : Type) where
  /-- A branch with its children. -/
  | branch (data : β) (children : List (View β κ))
  /-- A leaf. -/
  | leaf (data : κ)

namespace View

variable {β κ : Type}

mutual

/-- The number of nodes. -/
def size : View β κ → Nat
  | branch _ vs => sizes vs + 1
  | leaf _ => 1

/-- The number of nodes of several views. -/
def sizes : List (View β κ) → Nat
  | [] => 0
  | v :: vs => size v + sizes vs

end

end View

/-- A branch that is still growing, with the children it has so far. -/
structure Limb (β κ : Type) where
  /-- What the branch carries. -/
  data : β
  /-- The children. -/
  children : List (View β κ)

/-- A limb with one more child. -/
def Limb.add {β κ : Type} (l : Limb β κ) (v : View β κ) : Limb β κ := ⟨l.data, l.children ++ [v]⟩

/-- A limb that does not grow any more. -/
def Limb.close {β κ : Type} (l : Limb β κ) : View β κ := .branch l.data l.children

namespace Grove

variable {β κ : Type} {g g' : Grove β κ} {h h' n m lo lo' b b' : Nat} {p : Place} {d : β} {k : κ}
  {cs ds : List Nat} {vs us : List (View β κ)} {l : Limb β κ} {ls : List (Limb β κ)}

/-- Nodes show views to an owner: all nodes that are seen from them lie in the
    range from `lo` to `b`, in ascending order. -/
inductive Shows (g : Grove β κ) (h : Nat) : Nat → List Nat → List (View β κ) → Nat → Prop
  | nil {lo b : Nat} : lo ≤ b → Shows g h lo [] [] b
  | leaf {lo b n : Nat} {k : κ} {cs : List Nat} {vs : List (View β κ)} :
    lo ≤ n → g.label? n = some (.leaf k) → g.visible h n = [] →
    Shows g h (n + 1) cs vs b → Shows g h lo (n :: cs) (.leaf k :: vs) b
  | branch {lo m b n : Nat} {d : β} {cs : List Nat} {us vs : List (View β κ)} :
    lo ≤ n → g.label? n = some (.branch d) → Shows g h (n + 1) (g.visible h n) us m →
    Shows g h m cs vs b → Shows g h lo (n :: cs) (.branch d us :: vs) b

/-- A node and what is seen right below it are the same to an owner of one
    grove as to an owner of another. -/
structure Same (g : Grove β κ) (h : Nat) (g' : Grove β κ) (h' n : Nat) : Prop where
  label : g'.label? n = g.label? n
  link : g'.link? n = g.link? n
  visible : g'.visible h' n = g.visible h n

namespace Shows

theorem le (hs : Shows g h lo cs vs b) : lo ≤ b := by
  induction hs with
  | nil h => exact h
  | leaf h _ _ _ ih => omega
  | branch h _ _ _ ih₁ ih₂ => omega

theorem length_eq (hs : Shows g h lo cs vs b) : cs.length = vs.length := by
  induction hs with
  | nil => rfl
  | leaf _ _ _ _ ih => rw [List.length_cons, List.length_cons, ih]
  | branch _ _ _ _ _ ih => rw [List.length_cons, List.length_cons, ih]

/-- As the nodes of views ascend, there are not more of them than numbers. -/
theorem sizes_le (hs : Shows g h lo cs vs b) : View.sizes vs + lo ≤ b := by
  induction hs with
  | nil h => rw [View.sizes]; omega
  | leaf h _ _ _ ih => rw [View.sizes, View.size]; omega
  | branch h _ _ _ ih₁ ih₂ => rw [View.sizes, View.size]; omega

theorem mono (hs : Shows g h lo cs vs b) (hb : b ≤ b') : Shows g h lo cs vs b' := by
  induction hs with
  | nil h => exact .nil (Nat.le_trans h hb)
  | leaf h hl hv _ ih => exact .leaf h hl hv (ih hb)
  | branch h hl hu _ _ ih => exact .branch h hl hu (ih hb)

/-- Views depend on nothing but the nodes they are made of. -/
theorem congr (hs : Shows g h lo cs vs b) (hsame : ∀ n, lo ≤ n → n < b → Same g h g' h' n) :
    Shows g' h' lo cs vs b := by
  induction hs with
  | nil h => exact .nil h
  | leaf hle hl hv hs ih =>
    have hn := hsame _ hle (Nat.lt_of_lt_of_le (Nat.lt_succ_self _) hs.le)
    exact .leaf hle (hn.label.trans hl) (hn.visible.trans hv)
      (ih fun n h₁ h₂ => hsame n (by omega) h₂)
  | branch hle hl hu hs ih₁ ih₂ =>
    have hle' := hu.le
    have hn := hsame _ hle (Nat.lt_of_lt_of_le hle' hs.le)
    refine .branch hle (hn.label.trans hl) ?_ (ih₂ fun n h₁ h₂ => hsame n (by omega) h₂)
    rw [hn.visible]
    exact ih₁ fun n h₁ h₂ => hsame n (by omega) (Nat.lt_of_lt_of_le h₂ hs.le)

theorem append (hs : Shows g h lo cs vs m) (hs' : Shows g h m ds us b) :
    Shows g h lo (cs ++ ds) (vs ++ us) b := by
  induction hs with
  | nil hle =>
    cases hs' with
    | nil h => exact .nil (Nat.le_trans hle h)
    | leaf h hl hv hs => exact .leaf (Nat.le_trans hle h) hl hv hs
    | branch h hl hu hs => exact .branch (Nat.le_trans hle h) hl hu hs
  | leaf h hl hv _ ih => exact .leaf h hl hv (ih hs')
  | branch h hl hu _ _ ih => exact .branch h hl hu (ih hs')

/-! ### Walking a view -/

/-- The nodes of views at a depth, each behind all that lies to its right and
    below. -/
inductive Listed (g : Grove β κ) : Nat → List Visit → List (View β κ) → Prop
  | nil {d : Nat} : Listed g d [] []
  | leaf {d n : Nat} {k : κ} {vis : List Visit} {vs : List (View β κ)} :
    g.label? n = some (.leaf k) → Listed g d vis vs →
    Listed g d (vis ++ [⟨d, n, 0⟩]) (.leaf k :: vs)
  | branch {d n : Nat} {data : β} {vis below : List Visit} {us vs : List (View β κ)} :
    g.label? n = some (.branch data) → Listed g (d + 1) below us → Listed g d vis vs →
    Listed g d (vis ++ (below ++ [⟨d, n, us.length⟩])) (.branch data us :: vs)

/-- A walk with steps enough meets exactly the nodes of the views. -/
theorem walk (hs : Shows g h lo cs vs b) (d : Nat) :
    ∃ vis, Listed g d vis vs ∧ ∀ steps rest met,
      g.walk h (View.sizes vs + steps) (cs.map (fun c => (d, c)) ++ rest) met =
        g.walk h steps rest (vis ++ met) := by
  induction hs generalizing d with
  | nil => exact ⟨[], .nil, fun steps rest met => by simp [View.sizes]⟩
  | @leaf lo b n k cs vs _ hl hv _ ih =>
    obtain ⟨vis, hvis, hwalk⟩ := ih d
    refine ⟨vis ++ [⟨d, n, 0⟩], .leaf hl hvis, fun steps rest met => ?_⟩
    rw [View.sizes, View.size,
      show 1 + View.sizes vs + steps = (View.sizes vs + steps) + 1 by omega,
      List.map_cons, List.cons_append, Grove.walk]
    simp only [hv, List.map_nil, List.nil_append, List.length_nil]
    rw [hwalk, List.append_assoc]
    rfl
  | @branch lo m b n data cs us vs _ hl hu _ ih₁ ih₂ =>
    -- The children are met behind the branch, so they come before it in the list.
    obtain ⟨below, hbelow, hwalk₁⟩ := ih₁ (d + 1)
    obtain ⟨vis, hvis, hwalk₂⟩ := ih₂ d
    refine ⟨vis ++ (below ++ [⟨d, n, us.length⟩]), .branch hl hbelow hvis,
      fun steps rest met => ?_⟩
    rw [View.sizes, View.size,
      show View.sizes us + 1 + View.sizes vs + steps =
        (View.sizes us + (View.sizes vs + steps)) + 1 by omega,
      List.map_cons, List.cons_append, Grove.walk]
    rw [hwalk₁, hwalk₂, hu.length_eq, List.append_assoc, List.append_assoc]
    rfl

/-- The walk over all that is seen from one node. -/
theorem reversePreorder {v : View β κ} (hs : Shows g h lo [n] [v] b) (hb : b ≤ g.nodes.size) :
    Listed g 0 (g.reversePreorder h n) [v] := by
  obtain ⟨vis, hvis, hwalk⟩ := hs.walk 0
  have hle := hs.sizes_le
  have hend := hwalk (g.nodes.size + 1 - View.sizes [v]) [] []
  have hnil : ∀ steps met, g.walk h steps [] met = met := by
    intro steps met
    cases steps <;> rfl
  rw [show View.sizes [v] + (g.nodes.size + 1 - View.sizes [v]) = g.nodes.size + 1 by omega,
    List.map_singleton, List.append_nil, List.append_nil, hnil] at hend
  rw [Grove.reversePreorder, hend]
  exact hvis

end Shows

/-! ### Growing branches -/

/-- The limbs from a node up to the root `r`, innermost first. Below the node,
    the branch `child` is still growing, if there is one; the children before
    it are complete. -/
inductive Rises (g : Grove β κ) (h r : Nat) : Option Nat → Nat → List (Limb β κ) → Prop
  | root {child : Option Nat} {cs : List Nat} {d : β} {vs : List (View β κ)} :
    g.label? r = some (.branch d) → g.link? r = none → g.visible h r = cs ++ child.toList →
    Shows g h (r + 1) cs vs (child.getD g.nodes.size) → Rises g h r child r [⟨d, vs⟩]
  | limb {child : Option Nat} {n m : Nat} {cs : List Nat} {d : β} {vs : List (View β κ)}
      {ls : List (Limb β κ)} :
    g.label? n = some (.branch d) → g.link? n = some m → g.visible h n = cs ++ child.toList →
    Shows g h (n + 1) cs vs (child.getD g.nodes.size) → Rises g h r (some n) m ls →
    Rises g h r child n (⟨d, vs⟩ :: ls)

namespace Rises

variable {r : Nat} {child : Option Nat}

/-- The innermost limb, and what it is attached to. -/
theorem cases_cons (hr : Rises g h r child n (l :: ls)) :
    g.label? n = some (.branch l.data) ∧
      (∃ cs, g.visible h n = cs ++ child.toList ∧
        Shows g h (n + 1) cs l.children (child.getD g.nodes.size)) ∧
      ((ls = [] ∧ n = r ∧ g.link? n = none) ∨
        ∃ m, g.link? n = some m ∧ Rises g h r (some n) m ls) := by
  cases hr with
  | root hl hlink hv hs => exact ⟨hl, ⟨_, hv, hs⟩, .inl ⟨rfl, rfl, hlink⟩⟩
  | limb hl hlink hv hs hr => exact ⟨hl, ⟨_, hv, hs⟩, .inr ⟨_, hlink, hr⟩⟩

theorem of_cons (cs : List Nat) (hl : g.label? n = some (.branch l.data))
    (hv : g.visible h n = cs ++ child.toList)
    (hs : Shows g h (n + 1) cs l.children (child.getD g.nodes.size))
    (hls : (ls = [] ∧ n = r ∧ g.link? n = none) ∨
      ∃ m, g.link? n = some m ∧ Rises g h r (some n) m ls) :
    Rises g h r child n (l :: ls) := by
  rcases hls with ⟨rfl, rfl, hlink⟩ | ⟨m, hlink, hr⟩
  · exact .root hl hlink hv hs
  · exact .limb hl hlink hv hs hr

theorem lt (hr : Rises g h r child n ls) : n < child.getD g.nodes.size := by
  cases hr with
  | root _ _ _ hs => exact hs.le
  | limb _ _ _ hs => exact hs.le

/-- Limbs depend on nothing but the nodes before the growing branch. -/
theorem congr (hr : Rises g h r child n ls) (hchild : g'.nodes.size = g.nodes.size ∨ child.isSome)
    (hsame : ∀ k < child.getD g.nodes.size, Same g h g' h' k) : Rises g' h' r child n ls := by
  have hbound : child.getD g'.nodes.size = child.getD g.nodes.size := by
    rcases hchild with h | h
    · rw [h]
    · obtain ⟨c, rfl⟩ := Option.isSome_iff_exists.1 h
      rfl
  induction hr with
  | root hl hlink hv hs =>
    have hn := hsame _ hs.le
    refine .root (hn.label.trans hl) (hn.link.trans hlink) (hn.visible.trans hv) ?_
    rw [hbound]
    exact hs.congr fun k _ hk => hsame k hk
  | limb hl hlink hv hs _ ih =>
    have hn := hsame _ hs.le
    refine .limb (hn.label.trans hl) (hn.link.trans hlink) (hn.visible.trans hv) ?_
      (ih (.inr rfl) (fun k hk => hsame k (Nat.lt_trans hk hs.le)) rfl)
    rw [hbound]
    exact hs.congr fun k _ hk => hsame k hk

/-- Limbs stay as they are when nodes come into being that are not seen. -/
theorem of_size_le (hr : Rises g h r none n ls) (hsize : g.nodes.size ≤ g'.nodes.size)
    (hsame : ∀ k < g.nodes.size, Same g h g' h' k) : Rises g' h' r none n ls := by
  have hn := hsame n hr.lt
  cases hr with
  | root hl hlink hv hs =>
    exact .root (hn.label.trans hl) (hn.link.trans hlink) (hn.visible.trans hv)
      ((hs.congr fun k _ hk => hsame k hk).mono hsize)
  | limb hl hlink hv hs hr =>
    exact .limb (hn.label.trans hl) (hn.link.trans hlink) (hn.visible.trans hv)
      ((hs.congr fun k _ hk => hsame k hk).mono hsize)
      (hr.congr (.inr rfl) fun k hk => hsame k (Nat.lt_trans hk hs.le))

/-- A limb whose branch is complete becomes a child of the limb above. -/
theorem ascend {l' : Limb β κ} (hr : Rises g h r none n (l :: l' :: ls)) :
    ∃ m, g.link? n = some m ∧ Rises g h r none m (l'.add l.close :: ls) := by
  obtain ⟨hl, ⟨cs, hv, hs⟩, hls⟩ := hr.cases_cons
  rcases hls with ⟨hnil, -⟩ | ⟨m, hlink, hr'⟩
  · cases hnil
  · obtain ⟨hl', ⟨ds, hv', hs'⟩, hls'⟩ := hr'.cases_cons
    refine ⟨m, hlink, of_cons (ds ++ [n]) hl' (by simpa using hv') ?_ hls'⟩
    refine hs'.append (.branch (Nat.le_refl n) hl ?_ (.nil (Nat.le_refl _)))
    rw [hv, Option.toList_none, List.append_nil]
    exact hs

section Attach

variable {label : Label β κ}

/-- All nodes but the one that gets a child stay as they are. -/
theorem same_attach {i : Nat} (hi : i < g.nodes.size) (hne : i ≠ n) :
    Same g h (g.attach h n label) h i where
  label := by rw [label?_attach, if_neg (Nat.ne_of_lt hi)]
  link := by rw [link?_attach, if_neg (Nat.ne_of_lt hi)]
  visible := visible_attach_of_ne hne hi

variable (hg : g.Sound) (hu : g.roster.use h = .ok p)

include hg hu

/-- A new node below the marker: what it shows is one more child of the limb
    there, whether it is complete or goes on growing. -/
theorem attach (hr : Rises g h r none n (l :: ls)) {child : Option Nat}
    (hnew : Shows (g.attach h n label) h g.nodes.size
      (if child = none then [g.nodes.size] else []) vs (child.getD (g.nodes.size + 1)))
    (hchild : child = none ∨ child = some g.nodes.size) :
    Rises (g.attach h n label) h r child n (⟨l.data, l.children ++ vs⟩ :: ls) := by
  obtain ⟨hl, ⟨cs, hv, hs⟩, hls⟩ := hr.cases_cons
  have hn : n < g.nodes.size := hr.lt
  refine of_cons (cs ++ if child = none then [g.nodes.size] else []) ?_ ?_ ?_ ?_
  · rw [label?_attach, if_neg (Nat.ne_of_lt hn), hl]
  · rw [visible_attach_self hg hu hn, hv, Option.toList_none, List.append_nil]
    rcases hchild with rfl | rfl
    · simp
    · simp
  · rw [size_attach]
    refine Shows.append (m := g.nodes.size) (hs.congr fun i h₁ h₂ => ?_) hnew
    exact same_attach h₂ (by omega)
  · rw [link?_attach, if_neg (Nat.ne_of_lt hn)]
    rcases hls with hnil | ⟨m, hlink, hr'⟩
    · exact .inl hnil
    · refine .inr ⟨m, hlink, hr'.congr (.inr rfl) fun i hi => ?_⟩
      exact same_attach (Nat.lt_trans hi hn) (Nat.ne_of_lt hi)

/-- The limb at the marker gets a leaf. -/
theorem grow (hr : Rises g h r none n (l :: ls)) :
    Rises (g.attach h n (.leaf k)) h r none n (l.add (.leaf k) :: ls) := by
  refine attach hg hu hr ?_ (.inl rfl)
  rw [if_pos rfl]
  refine .leaf (Nat.le_refl _) ?_ visible_attach_size (.nil (Nat.le_refl _))
  rw [label?_attach, if_pos rfl]

/-- A new limb branches off at the marker. -/
theorem branchOff (hr : Rises g h r none n (l :: ls)) :
    Rises (g.attach h n (.branch d)) h r none g.nodes.size (⟨d, []⟩ :: l :: ls) := by
  have hup : Rises (g.attach h n (.branch d)) h r (some g.nodes.size) n
      (⟨l.data, l.children ++ []⟩ :: ls) :=
    attach hg hu hr (.nil (Nat.le_refl _)) (.inr rfl)
  rw [List.append_nil] at hup
  refine of_cons [] ?_ ?_ (.nil ?_) (.inr ⟨n, ?_, hup⟩)
  · rw [label?_attach, if_pos rfl]
  · rw [visible_attach_size]; rfl
  · rw [size_attach]; exact Nat.le_refl _
  · rw [link?_attach, if_pos rfl]

end Attach

end Rises

end Grove

end Ramify.Fork
