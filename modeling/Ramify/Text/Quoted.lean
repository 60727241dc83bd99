/-!
# Quoted text

How names and characters are shown in descriptions of values: a text between
double quotes, a character between single ones. A quote of the surrounding
kind and the backslash are escaped, the usual control characters have short
escapes, and every other control character is shown by its code point.
-/

namespace Ramify.Text.Quoted

/-- A character as it stands between quotes of the kind `quote`. -/
def escape (quote c : Char) : List Char :=
  if c = quote ∨ c = '\\' then ['\\', c]
  else if c = '\n' then ['\\', 'n']
  else if c = '\r' then ['\\', 'r']
  else if c = '\t' then ['\\', 't']
  else if c.toNat = 0 then ['\\', '0']
  else if c.toNat < 0x20 ∨ c.toNat = 0x7f then
    ['\\', 'u', '\x7b'] ++ Nat.toDigits 16 c.toNat ++ ['\x7d']
  else [c]

/-- A text between double quotes. -/
def text (s : String) : String :=
  String.ofList ('"' :: s.toList.flatMap (escape '"') ++ ['"'])

/-- A character between single quotes. -/
def char (c : Char) : String :=
  String.ofList ('\'' :: escape '\'' c ++ ['\''])

/-- A character that may be missing. -/
def char? : Option Char → String
  | none => "None"
  | some c => "Some(" ++ char c ++ ")"

end Ramify.Text.Quoted
