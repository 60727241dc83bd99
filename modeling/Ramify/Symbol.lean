import Ramify.Text.Quoted
import Ramify.Unicode.Alphabetic
import Ramify.Unicode.Numeric
import Ramify.Unicode.WhiteSpace

/-!
# Symbols

The atoms of a grammar. A *terminal* is literal text and never empty, a
*character class* stands for one character out of a set given by a predicate,
a *non-terminal* names a rule, and the *end of input* consumes nothing but
only matches where no character is left.

What decides between rules is the next unread character, or the fact that
there is none: the `Lookahead`. The predicate of a character class is asked
about either, yet a class never matches the end of input, since it always
consumes a character (`CharClass.admits`).

Character classes are told apart by their names alone, and so are all values
built from them: equality of symbols (`==`), rules and trees looks at the name
of a class and never at its predicate.
-/

namespace Ramify

/-- The next unread character, or `none` at the end of the input. -/
abbrev Lookahead := Option Char

/-! ### Terminals -/

/-- Literal text, given by its first character and the rest, so that it is
    never empty. -/
structure Terminal where
  /-- The first character. -/
  first : Char
  /-- The characters after the first one. -/
  rest : List Char
  deriving DecidableEq

namespace Terminal

/-- The terminal of a text, unless the text is empty. -/
def ofString? (s : String) : Option Terminal :=
  match s.toList with
  | [] => none
  | c :: cs => some ⟨c, cs⟩

/-- The characters of a terminal. -/
def chars (t : Terminal) : List Char := t.first :: t.rest

/-- The text of a terminal. -/
def literal (t : Terminal) : String := String.ofList t.chars

/-- A terminal as written in a grammar: between single quotes, with a
    backslash before each single quote inside. -/
def render (t : Terminal) : String :=
  "'" ++ String.ofList (t.chars.flatMap fun c => if c = '\'' then ['\\', c] else [c]) ++ "'"

end Terminal

/-! ### Character classes -/

/-- A named set of characters. -/
structure CharClass where
  /-- The name, by which classes are told apart. -/
  name : String
  /-- The predicate, which is asked about the end of input as well. -/
  accepts : Lookahead → Bool

namespace CharClass

instance : BEq CharClass := ⟨fun a b => a.name == b.name⟩

/-- A class given by a predicate on characters, which rejects the end of input. -/
def ofChars (name : String) (p : Char → Bool) : CharClass := ⟨name, fun c => c.any p⟩

/-- The decimal digits of ASCII. -/
def digit : CharClass := ofChars "digit" Char.isDigit

/-- The alphabetic characters. -/
def letter : CharClass := ofChars "letter" Unicode.isAlphabetic

/-- White space. -/
def whitespace : CharClass := ofChars "whitespace" Unicode.isWhiteSpace

/-- The alphabetic and the numeric characters. -/
def alphanumeric : CharClass :=
  ofChars "alphanumeric" fun c => Unicode.isAlphabetic c || Unicode.isNumeric c

/-- All characters. -/
def any : CharClass := ⟨"any", Option.isSome⟩

/-- The class that goes by a name of its own accord. -/
def builtin? : String → Option CharClass
  | "digit" => some digit
  | "letter" => some letter
  | "whitespace" => some whitespace
  | "alphanumeric" => some alphanumeric
  | "any" => some any
  | _ => none

/-- The characters a class leaves out; its name gets an exclamation mark. -/
def complement (k : CharClass) : CharClass := ⟨"!" ++ k.name, fun c => !k.accepts c⟩

/-- Whether a class matches the lookahead. The end of input is never matched,
    whatever the predicate says about it. -/
def admits (k : CharClass) (c : Lookahead) : Bool := c.isSome && k.accepts c

@[simp] theorem admits_none (k : CharClass) : k.admits none = false := rfl

@[simp] theorem admits_some (k : CharClass) (c : Char) : k.admits (some c) = k.accepts (some c) :=
  rfl

end CharClass

/-! ### Symbols -/

/-- An atom of a grammar. -/
inductive Symbol where
  /-- A reference to a rule. -/
  | nonTerminal (name : String)
  /-- Literal text. -/
  | terminal (t : Terminal)
  /-- One character of a class. -/
  | charClass (k : CharClass)
  /-- The end of the input. -/
  | endOfInput

namespace Symbol

/-- Equality of symbols, where character classes are compared by name. -/
def beq : Symbol → Symbol → Bool
  | nonTerminal a, nonTerminal b => a == b
  | terminal a, terminal b => a == b
  | charClass a, charClass b => a == b
  | endOfInput, endOfInput => true
  | _, _ => false

instance : BEq Symbol := ⟨beq⟩

/-- The name a symbol refers to, if it is a non-terminal. -/
def name? : Symbol → Option String
  | nonTerminal n => some n
  | _ => none

/-- A symbol as written in a grammar. -/
def render : Symbol → String
  | nonTerminal n => n
  | terminal t => t.render
  | charClass k => k.name
  | endOfInput => "EOF"

/-- A symbol with its kind and all its parts. -/
def describe : Symbol → String
  | nonTerminal n => "NonTerminal(NonTerminal(" ++ Text.Quoted.text n ++ "))"
  | terminal t =>
    "Terminal(Terminal \x7b literal: " ++ Text.Quoted.text t.literal ++
      ", first: " ++ Text.Quoted.char t.first ++ " \x7d)"
  | charClass k => "Special(SpecialSymbol(" ++ Text.Quoted.text k.name ++ "))"
  | endOfInput => "EndOfFile"

end Symbol

end Ramify
