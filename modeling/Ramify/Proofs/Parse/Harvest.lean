import Ramify.Parse.Harvest
import Ramify.Proofs.Fork.Finite
import Ramify.Proofs.Fork.Outlook
import Ramify.Proofs.Parse.Hosting

/-!
# What is harvested

The syntax tree of a completed attempt is a picture of what the attempt sees
below its root (`picture`), made by recursion over the view. The conversion, which
keeps the branches it is in on a stack, comes to the same:

* `Conversion.run_enter`, `Conversion.run_leave`: it comes out of a node with
  the picture of what is seen there, and out of the children that are left with
  the picture of their branch, after two turns for every node;
* `Token.isBare`: all that can go wrong is a class without the character that
  it matched, and the conversion is over where it meets the first one;
* `convert_eq_picture`: so it ends, whatever is seen, with the picture or with
  this fault. All it needs is that the grove has grown, as that of every search
  has (`Parser.grown_search`).

No derivation has such a class (`Machine.Grows.solid`), and so a completed attempt
can be harvested (`harvest_eq_ok`).
-/

namespace Ramify.Parse

open Fork (View Limb Grove)

mutual

/-- The syntax tree of a view. -/
def picture : Sight → Tree
  | .leaf token =>
    match token.toLeaf with
    | .ok l => .leaf l
    | .error _ => .leaf .empty
  | .branch _ [] => .leaf .empty
  | .branch site (v :: vs) => .branch site.name site.rule (pictures (v :: vs))

/-- The syntax trees of views. -/
def pictures : List Sight → List Tree
  | [] => []
  | v :: vs => picture v :: pictures vs

end

/-- All tokens in views can become leaves. -/
inductive Solid : List Sight → Prop
  | nil : Solid []
  | leaf {token : Token} {l : Leaf} {vs : List Sight} : token.toLeaf = .ok l → Solid vs →
    Solid (.leaf token :: vs)
  | branch {site : Site} {us vs : List Sight} : Solid us → Solid vs → Solid (.branch site us :: vs)

/-! ### Tokens -/

/-- A class lacks the character that it matched. -/
def Token.isBare (t : Token) : Bool :=
  match t.symbol with
  | .charClass _ => t.value.isEmpty
  | _ => false

theorem toLeaf_charClass {k : CharClass} {c : Char} :
    Token.toLeaf ⟨.charClass k, String.singleton c⟩ = .ok (.char k c) := by
  rw [Token.toLeaf]
  dsimp only
  rw [String.toList_singleton]

/-- A token becomes a leaf, unless it is a class that lacks its character. -/
theorem toLeaf_cases (t : Token) : (t.isBare = true ∧ t.toLeaf = .error .emptyClassLeaf) ∨
    (t.isBare = false ∧ ∃ l, t.toLeaf = .ok l) := by
  obtain ⟨symbol, value⟩ := t
  cases symbol with
  | terminal l => exact .inr ⟨rfl, .terminal l, rfl⟩
  | endOfInput => exact .inr ⟨rfl, .endOfInput, rfl⟩
  | nonTerminal n => exact .inr ⟨rfl, _, rfl⟩
  | charClass k =>
    rw [Token.isBare, Token.toLeaf]
    dsimp only
    cases hvalue : value.toList with
    | nil => exact .inl ⟨String.isEmpty_iff.2 (String.toList_eq_nil_iff.1 hvalue), rfl⟩
    | cons c cs =>
      refine .inr ⟨?_, .char k c, rfl⟩
      rw [Bool.eq_false_iff, ne_eq, String.isEmpty_iff, ← String.toList_eq_nil_iff, hvalue]
      exact List.cons_ne_nil c cs

theorem Solid.any_isBare {vs : List Sight} (h : Solid vs) :
    (View.leavesOf vs).any Token.isBare = false := by
  induction h with
  | nil => rfl
  | @leaf token l vs htoken _ ih =>
    rw [View.leavesOf, View.leaves, List.singleton_append, List.any_cons, ih, Bool.or_false]
    rcases toLeaf_cases token with ⟨-, herror⟩ | ⟨hbare, -⟩
    · exact nomatch htoken.symm.trans herror
    · exact hbare
  | branch _ _ ihu ihv => rw [View.leavesOf, View.leaves, List.any_append, ihu, ihv, Bool.or_self]

/-! ### Conversions -/

namespace Conversion

variable {g : Grove Site Token} {h : Nat}

-- The two go down the view together: the way through a branch is the way through its
-- first child and then through those that are left.
mutual

/-- A conversion that enters a node leaves it with the picture of what is seen there. -/
theorem run_enter (v : Sight) {n : Nat} (hv : g.Beholds h [n] [v]) (turns : Nat)
    (frames : List Frame) :
    run g h (2 * v.size + turns) (.enter n) frames =
      if v.leaves.any Token.isBare then some (.error .emptyClassLeaf)
      else run g h (turns + 1) (.leave (picture v)) frames := by
  cases v with
  | leaf token =>
    cases hv with
    | leaf hl =>
      rw [View.size, show 2 * 1 + turns = turns + 1 + 1 by omega, run, hl]
      dsimp only
      rw [View.leaves, List.any_cons, List.any_nil, Bool.or_false, picture]
      rcases toLeaf_cases token with ⟨hbare, htoken⟩ | ⟨hbare, l, htoken⟩
      · rw [htoken, if_pos hbare]
      · rw [htoken, hbare]
        rfl
  | branch site us =>
    cases hv with
    | branch hl hc hu =>
      rw [View.size, show 2 * (View.sizes us + 1) + turns = 2 * View.sizes us + (turns + 1) + 1 by
        omega, run, hl]
      dsimp only
      rw [hc, View.leaves]
      cases us with
      | nil =>
        cases hu
        rw [View.sizes, Nat.mul_zero, Nat.zero_add]
        rfl
      | cons u us =>
        obtain ⟨c, cs, rfl, hu, hus⟩ := hu.of_cons
        dsimp only
        rw [View.sizes, Nat.mul_add, Nat.add_assoc, run_enter u hu, run_leave us hus, View.leavesOf,
          List.any_append, picture, pictures]
        cases u.leaves.any Token.isBare <;> rfl

/-- A conversion that leaves a child goes on with the children that are left, and closes the
    branch over the pictures of all. -/
theorem run_leave (vs : List Sight) {ns : List Nat} (hvs : g.Beholds h ns vs) (turns : Nat)
    (t : Tree) (site : Site) (done : List Tree) (frames : List Frame) :
    run g h (2 * View.sizes vs + turns + 1) (.leave t) (⟨site, ns, done⟩ :: frames) =
      if (View.leavesOf vs).any Token.isBare then some (.error .emptyClassLeaf)
      else run g h turns
        (.leave (.branch site.name site.rule (done.reverse ++ t :: pictures vs))) frames := by
  cases vs with
  | nil =>
    cases hvs
    rw [run, View.sizes, View.leavesOf, List.reverse_cons, pictures, Nat.mul_zero, Nat.zero_add]
    rfl
  | cons v vs =>
    obtain ⟨n, ns, rfl, hv, hvs⟩ := hvs.of_cons
    rw [run, View.sizes, Nat.mul_add, Nat.add_assoc, run_enter v hv, run_leave vs hvs,
      View.leavesOf, List.any_append, pictures, List.reverse_cons, List.append_assoc,
      List.singleton_append]
    cases v.leaves.any Token.isBare <;> rfl

end

/-- Two turns for every node of a view are enough, whatever the result is. -/
theorem run_eq {v : Sight} {n turns : Nat} (hv : g.Beholds h [n] [v])
    (hturns : 2 * v.size ≤ turns) : run g h turns (.enter n) [] = some
      (if v.leaves.any Token.isBare then .error .emptyClassLeaf else .ok (picture v)) := by
  obtain ⟨more, rfl⟩ := Nat.exists_eq_add_of_le hturns
  rw [run_enter v hv, run]
  cases v.leaves.any Token.isBare <;> rfl

end Conversion

section Harvest

variable {σ : Type} {s : Shared σ} {vs : List Sight} {m : Machine} {α : List Symbol}
  {i r : List Char} {w : List Char} {a : Attempt} {b : Solo} {guests : List Guest} {site : Site}
  {v : Sight} {n : Nat}

/-- The conversion of what an attempt sees at a node, which is a finite tree, ends after two
    turns for each node of that tree, if not before. The result is the picture of the tree if
    all its classes have the characters they matched. If some class lacks its character, it is
    a fault. -/
theorem convert_eq_picture (hg : s.grove.Grown) (hv : s.grove.Beholds a.tree [n] [v]) :
    (∀ turns, 2 * v.size ≤ turns →
      Conversion.run s.grove a.tree turns (.enter n) [] = some (convert s a n)) ∧
    convert s a n =
      if v.leaves.any Token.isBare then .error .emptyClassLeaf else .ok (picture v) := by
  have hconvert : convert s a n =
      if v.leaves.any Token.isBare then .error .emptyClassLeaf else .ok (picture v) := by
    have henough := Nat.mul_le_mul_left 2 (hg.size_le hv)
    rw [convert, Conversion.run_eq hv henough, Option.getD_some]
  refine ⟨fun turns hturns => ?_, hconvert⟩
  rw [Conversion.run_eq hv hturns, hconvert]

/-- What the branches of a small tree stand for. -/
def treeSite : Site := ⟨"Tree", ⟨[.nonTerminal "Bough", .charClass .digit]⟩⟩
def boughSite : Site := ⟨"Bough", ⟨[.charClass .digit, .nonTerminal "Twig"]⟩⟩

/-- Two handles on a tree add a digit each. That of the second one lacks its character. -/
def orchard : Shared (List Char) where
  grove := Fork.done Fork.Deed.run
    [.plant (.branch treeSite), .add 0 0 (.branch boughSite),
      .add 0 1 (.leaf ⟨.charClass .digit, "7"⟩), .add 0 1 (.branch ⟨"Twig", .epsilon⟩), .fork 0 2,
      .add 2 0 (.leaf ⟨.charClass .digit, ""⟩), .add 1 0 (.leaf ⟨.charClass .digit, "3"⟩)] .empty
  tape := .ofList []
  transitions := 0
  forks := 1

/-- What a handle sees that has added a digit. -/
def treeSight (digit : String) : Sight :=
  .branch treeSite
    [.branch boughSite [.leaf ⟨.charClass .digit, "7"⟩, .branch ⟨"Twig", .epsilon⟩ []],
      .leaf ⟨.charClass .digit, digit⟩]

theorem grown_orchard : orchard.grove.Grown := ⟨_, by decide +kernel, rfl⟩

theorem beholds_orchard : orchard.grove.Beholds 1 [0] [treeSight "3"] ∧
    orchard.grove.Beholds 2 [0] [treeSight ""] := by
  have hchildren : ∀ h ∈ [1, 2], orchard.grove.children h 1 = .ok [2, 3] ∧
      orchard.grove.children h 3 = .ok [] := by decide +kernel
  -- Both see the same bough, and another digit behind it.
  have htree : ∀ h ∈ [1, 2], ∀ n digit, orchard.grove.children h 0 = .ok [1, n] →
      orchard.grove.label? n = some (.leaf ⟨.charClass .digit, digit⟩) →
      orchard.grove.Beholds h [0] [treeSight digit] := by
    intro h hh n digit hroot hn
    obtain ⟨hbough, htwig⟩ := hchildren h hh
    exact .branch rfl hroot
      (.branch rfl hbough (.leaf rfl (.branch rfl htwig .nil .nil)) (.leaf hn .nil)) .nil
  exact ⟨htree 1 (by decide) 5 "3" (by decide +kernel) rfl,
    htree 2 (by decide) 4 "" (by decide +kernel) rfl⟩

theorem convert_eq_picture_orchard : orchard.grove.Grown ∧
    (orchard.grove.Beholds 1 [0] [treeSight "3"] ∧
      Conversion.run orchard.grove 1 10 (.enter 0) [] = some (convert orchard ⟨1, 0, none⟩ 0) ∧
      convert orchard ⟨1, 0, none⟩ 0 = .ok
        (.branch "Tree" treeSite.rule
          [.branch "Bough" boughSite.rule [.leaf (.char .digit '7'), .leaf .empty],
            .leaf (.char .digit '3')])) ∧
    orchard.grove.Beholds 2 [0] [treeSight ""] ∧
      convert orchard ⟨2, 0, none⟩ 0 = .error .emptyClassLeaf := by
  obtain ⟨hfirst, hsecond⟩ := beholds_orchard
  obtain ⟨hends, hpicture⟩ := convert_eq_picture (a := ⟨1, 0, none⟩) grown_orchard hfirst
  obtain ⟨-, hfault⟩ := convert_eq_picture (a := ⟨2, 0, none⟩) grown_orchard hsecond
  exact ⟨grown_orchard, ⟨hfirst, hends 10 (by decide), hpicture.trans rfl⟩, hsecond,
    hfault.trans rfl⟩

/-- Derivations have leaves that can be harvested. -/
theorem Machine.Grows.solid (h : m.Grows α vs i r) : Solid vs := by
  induction h with
  | nil => exact .nil
  | endOfInput _ ih => exact .leaf rfl ih
  | charClass _ _ ih => exact .leaf toLeaf_charClass ih
  | terminal _ ih => exact .leaf rfl ih
  | nonTerminal _ _ _ ihu ihv => exact .branch ihu ihv

/-- What is harvested from an attempt that completed the start symbol. -/
theorem harvest_eq_ok (h : Hosts w s ((.accepted a, .accepted b) :: guests))
    (hb : b = ⟨⟨site, [v]⟩, [], b.rest⟩) (hv : Solid [v]) : harvest s a = .ok (picture v) := by
  obtain ⟨p, hu, hr⟩ := (Hosts.accepted_iff.1 h).2.grove.head
  rw [hb] at hr
  obtain ⟨hlabel, ⟨cs, hcs, hshows⟩, hup⟩ := hr.cases_cons
  -- There is nothing above the limb, so the marker stands on the root.
  have hroot : p.marker = p.root := by
    rcases hup with ⟨-, hroot, -⟩ | ⟨n, -, hr'⟩
    · exact hroot
    · cases hr'
  rw [hroot, Option.toList_none, List.append_nil] at hcs
  obtain ⟨n, rfl⟩ := List.length_eq_one_iff.1 hshows.length_eq
  have hbare : v.leaves.any Token.isBare = false := by
    have hleaves := hv.any_isBare
    rwa [View.leavesOf, View.leavesOf, List.append_nil] at hleaves
  have hbranch : s.grove.isBranch p.root := by
    rw [Grove.isBranch, ← hroot, hlabel]
    rfl
  have huse : s.grove.root a.tree = .ok p.root := by
    rw [Grove.root, hu]
    rfl
  rw [harvest, huse]
  dsimp only
  rw [if_pos hbranch, hcs]
  dsimp only
  have henough : 2 * v.size ≤ 2 * s.grove.nodes.size := by
    have hle : View.sizes [v] + (p.marker + 1) ≤ s.grove.nodes.size := hshows.sizes_le
    rw [View.sizes, View.sizes] at hle
    omega
  rw [convert, Conversion.run_eq (hshows.beholds hu) henough, hbare]
  rfl

end Harvest

end Ramify.Parse
