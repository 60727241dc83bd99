import Ramify.Symbol

/-!
# Sets of lookaheads

The sets of characters, with or without the end of input, that may come next
at some point of a grammar. Such a set is given by a *listing*, finitely many
lookaheads together with an optional predicate, and by its polarity: it either
admits exactly what the listing covers (`only`) or everything else (`allBut`).

Sets are joined by `+` (`LookaheadSet.add`), which keeps the result in the same
form. It admits what either side admits:

* two white lists join their listings;
* two black lists keep out what both keep out, and keep a predicate only when
  both have one;
* a black list joined with a white one keeps out what it kept out before,
  except for what the white list admits.

The listed lookaheads are in ascending order, the end of input first, and
without repetition, so that equal listings look the same.
-/

namespace Ramify

namespace Lookahead

/-- The order of lookaheads: the end of input, then characters by code point. -/
def lt : Lookahead → Lookahead → Bool
  | none, some _ => true
  | some a, some b => a.toNat < b.toNat
  | _, none => false

/-- Puts a lookahead into an ascending list, unless it is there already. -/
def insert (c : Lookahead) : List Lookahead → List Lookahead
  | [] => [c]
  | d :: ds => if c = d then d :: ds else if lt c d then c :: d :: ds else d :: insert c ds

/-- Puts every element of a list into an ascending one. -/
def insertAll (cs ds : List Lookahead) : List Lookahead := cs.foldr insert ds

@[simp] theorem mem_insert {c d : Lookahead} {ds : List Lookahead} :
    d ∈ insert c ds ↔ d = c ∨ d ∈ ds := by
  induction ds with
  | nil => simp [insert]
  | cons e es ih =>
    simp only [insert]
    split
    · rename_i h
      subst h
      simp
    · split
      · simp
      · simp only [List.mem_cons, ih]
        exact or_left_comm

@[simp] theorem mem_insertAll {d : Lookahead} {cs ds : List Lookahead} :
    d ∈ insertAll cs ds ↔ d ∈ cs ∨ d ∈ ds := by
  induction cs with
  | nil => simp [insertAll]
  | cons c cs ih =>
    simp only [insertAll, List.foldr_cons, mem_insert, List.mem_cons] at ih ⊢
    rw [ih, or_assoc]

end Lookahead

/-- Finitely many lookaheads and, possibly, a predicate. -/
structure Listing where
  /-- The listed lookaheads, in ascending order. -/
  listed : List Lookahead
  /-- The predicate, where there is one. -/
  filter : Option (Lookahead → Bool)

namespace Listing

/-- Whether the predicate holds; it does not when there is none. -/
def passes (l : Listing) (c : Lookahead) : Bool := l.filter.any (· c)

/-- Whether a listing covers a lookahead, by its list or by its predicate. -/
def covers (l : Listing) (c : Lookahead) : Bool := l.listed.contains c || l.passes c

/-- A listing without a predicate. -/
def ofList (cs : List Lookahead) : Listing := ⟨Lookahead.insertAll cs [], none⟩

/-- Covers what either listing covers. -/
def union (a b : Listing) : Listing where
  listed := Lookahead.insertAll b.listed a.listed
  filter :=
    match a.filter, b.filter with
    | none, f | f, none => f
    | some f, some g => some fun c => f c || g c

/-- Covers what both listings cover. A predicate remains only when both have
    one; otherwise what a predicate covers is picked from the other list. -/
def inter (a b : Listing) : Listing where
  listed :=
    Lookahead.insertAll (b.listed.filter a.passes)
      (a.listed.filter fun c => b.listed.contains c || b.passes c)
  filter :=
    match a.filter, b.filter with
    | some f, some g => some fun c => f c && g c
    | _, _ => none

/-- Covers what `a` covers and `b` does not. -/
def diff (a b : Listing) : Listing where
  listed := a.listed.filter fun c => !b.listed.contains c && !b.passes c
  filter := a.filter.map fun f c => f c && !b.listed.contains c && !b.passes c

end Listing

/-- A set of lookaheads. -/
inductive LookaheadSet where
  /-- The white list: what the listing covers. -/
  | only (l : Listing)
  /-- The black list: all but what the listing covers. -/
  | allBut (l : Listing)

namespace LookaheadSet

/-- The listing, whatever the polarity. -/
def listing : LookaheadSet → Listing
  | only l | allBut l => l

/-- Whether the set is given by a white list. -/
def isOnly : LookaheadSet → Bool
  | only _ => true
  | allBut _ => false

/-- Whether the set holds a lookahead. -/
def admits : LookaheadSet → Lookahead → Bool
  | only l, c => l.covers c
  | allBut l, c => !l.covers c

/-- The set without elements. -/
def empty : LookaheadSet := only ⟨[], none⟩

/-- The set of all lookaheads. -/
def anything : LookaheadSet := allBut ⟨[], none⟩

/-- The end of input alone. -/
def endOfInput : LookaheadSet := only ⟨[none], none⟩

/-- A single character. -/
def ofChar (c : Char) : LookaheadSet := only ⟨[some c], none⟩

/-- What a predicate holds of. -/
def ofPredicate (p : Lookahead → Bool) : LookaheadSet := only ⟨[], some p⟩

/-- The first character of a terminal. -/
def ofTerminal (t : Terminal) : LookaheadSet := ofChar t.first

/-- What a character class matches. -/
def ofClass (k : CharClass) : LookaheadSet := ofPredicate k.admits

/-- Whether the set is seen to be empty from its form: a white list without
    elements and without a predicate. -/
def isEmpty : LookaheadSet → Bool
  | only ⟨[], none⟩ => true
  | _ => false

/-- The union of two sets. -/
def add : LookaheadSet → LookaheadSet → LookaheadSet
  | only a, only b => only (a.union b)
  | allBut a, allBut b => allBut (a.inter b)
  | only w, allBut b | allBut b, only w => allBut (b.diff w)

instance : Add LookaheadSet := ⟨add⟩

/-- The union of all sets of a list. -/
def sum (sets : List LookaheadSet) : LookaheadSet := sets.foldl (· + ·) empty

/-- A set with its polarity, its list and whether it has a predicate. -/
def describe (s : LookaheadSet) : String :=
  (if s.isOnly then "WhiteList" else "BlackList") ++ " \x7b chars: [" ++
    String.intercalate ", " (s.listing.listed.map Text.Quoted.char?) ++
    "], filter: " ++ toString s.listing.filter.isSome ++ " \x7d"

end LookaheadSet

end Ramify
