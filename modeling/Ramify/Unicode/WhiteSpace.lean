import Ramify.Unicode.Ranges

/-!
# White space

The twenty-five characters with the property `White_Space` of Unicode. Zero
width characters and the byte order mark are not among them.
-/

namespace Ramify.Unicode

/-- The runs of white space, in ascending order. -/
def whiteSpace : List (Nat × Nat) := [
  (0x9, 0xD), (0x20, 0x20), (0x85, 0x85), (0xA0, 0xA0), (0x1680, 0x1680), (0x2000, 0x200A),
  (0x2028, 0x2029), (0x202F, 0x202F), (0x205F, 0x205F), (0x3000, 0x3000)]

/-- Whether a character is white space. -/
def isWhiteSpace (c : Char) : Bool := within whiteSpace c.toNat

theorem isWhiteSpace_iff (c : Char) :
    isWhiteSpace c = true ↔ ∃ run ∈ whiteSpace, run.1 ≤ c.toNat ∧ c.toNat ≤ run.2 :=
  within_iff (by decide +kernel) _

end Ramify.Unicode
