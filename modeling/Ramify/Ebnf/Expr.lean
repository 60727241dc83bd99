import Ramify.Symbol

/-!
# Expressions

The right-hand sides of an extended grammar: symbols, sequences, choices,
repetitions (any number of times, none included) and options (once or not at
all).

An expression is shown (`Expr.render`) with its parts separated by blanks,
choices by bars, repetitions in braces and options in brackets. Inside a
sequence, another sequence is put in parentheses unless it has exactly one
part, and a choice always is; braces and brackets already delimit what they
hold, as do the bars of a choice.
-/

namespace Ramify.Ebnf

/-- The right-hand side of an extended rule. -/
inductive Expr where
  /-- A single symbol. -/
  | symbol (s : Symbol)
  /-- All parts, in order. -/
  | seq (parts : List Expr)
  /-- One of the variants. -/
  | choice (variants : List Expr)
  /-- Any number of repetitions. -/
  | many (body : Expr)
  /-- At most one occurrence. -/
  | optional (body : Expr)

namespace Expr

/-- The symbol of an expression that is nothing but a symbol. -/
def symbol? : Expr → Option Symbol
  | symbol s => some s
  | _ => none

/-- Whether an expression is a repetition or an option, which may match
    nothing all by itself. -/
def isOpenEnded : Expr → Bool
  | many _ | optional _ => true
  | _ => false

/-! ### Equality -/

mutual

/-- Equality of expressions, where character classes are compared by name. -/
def beq : Expr → Expr → Bool
  | symbol a, symbol b => a == b
  | seq as, seq bs => beqAll as bs
  | choice as, choice bs => beqAll as bs
  | many a, many b => beq a b
  | optional a, optional b => beq a b
  | _, _ => false

/-- Equality of lists of expressions. -/
def beqAll : List Expr → List Expr → Bool
  | [], [] => true
  | a :: as, b :: bs => beq a b && beqAll as bs
  | _, _ => false

end

instance : BEq Expr := ⟨beq⟩

/-! ### Rendering -/

/-- A text in parentheses. -/
def parenthesize (s : String) : String := "( " ++ s ++ " )"

mutual

/-- An expression as text; `nested` when it is a part of a sequence. -/
def renderIn (nested : Bool) : Expr → String
  | symbol s => s.render
  | seq parts =>
    let s := String.intercalate " " (renderAll true parts)
    if nested && parts.length != 1 then parenthesize s else s
  | choice variants =>
    let s := String.intercalate " | " (renderAll false variants)
    if nested then parenthesize s else s
  | many body => "\x7b " ++ renderIn false body ++ " \x7d"
  | optional body => "[ " ++ renderIn false body ++ " ]"

/-- The texts of several expressions. -/
def renderAll (nested : Bool) : List Expr → List String
  | [] => []
  | e :: es => renderIn nested e :: renderAll nested es

end

/-- An expression as text. -/
def render (e : Expr) : String := renderIn false e

end Expr

end Ramify.Ebnf
