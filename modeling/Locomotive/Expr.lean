import Locomotive.Expr.Builtin
import Locomotive.Text.Quoted

/-!
# Expressions

The tree of an expression, its type, and its text in messages. Parentheses are kept
as nodes. `missing` marks a place where an expression has to stand and none was given;
reading a program never makes one.
-/

namespace Locomotive

/-- The base a number is written in. -/
inductive Radix where
  | decimal
  | hex
  | binary
  deriving DecidableEq, Repr

/-- The operators between two operands. -/
inductive BinaryOp where
  | xor
  | or
  | and
  | eq
  | ne
  | lt
  | gt
  | le
  | ge
  | add
  | sub
  | mod
  | intDiv
  | mul
  | div
  | pow
  /-- An operator the language does not have. -/
  | other (text : String)
  deriving DecidableEq, Repr

namespace BinaryOp

/-- The operators of the language. -/
def all : List BinaryOp :=
  [xor, or, and, eq, ne, lt, gt, le, ge, add, sub, mod, intDiv, mul, div, pow]

/-- How an operator is written. -/
def text : BinaryOp → String
  | xor => "XOR"
  | or => "OR"
  | and => "AND"
  | eq => "="
  | ne => "<>"
  | lt => "<"
  | gt => ">"
  | le => "<="
  | ge => ">="
  | add => "+"
  | sub => "-"
  | mod => "MOD"
  | intDiv => "\\"
  | mul => "*"
  | div => "/"
  | pow => "^"
  | other text => text

/-- The operator written in the given way, of the language or not. -/
def ofText (s : String) : BinaryOp := (all.find? fun o => o.text == s).getD (other s)

/-- The operator compares, so its value is a truth value. -/
def isComparison : BinaryOp → Bool
  | eq | ne | lt | gt | le | ge => true
  | _ => false

end BinaryOp

/-- The operators before one operand. -/
inductive UnaryOp where
  | neg
  | plus
  | not
  /-- An operator the language does not have. -/
  | other (text : String)
  deriving DecidableEq, Repr

namespace UnaryOp

/-- How an operator is written. -/
def text : UnaryOp → String
  | neg => "-"
  | plus => "+"
  | not => "NOT"
  | other text => text

/-- The operator written in the given way, of the language or not. -/
def ofText (s : String) : UnaryOp :=
  ([neg, plus, not].find? fun o => o.text == s).getD (other s)

end UnaryOp

/-- An expression. -/
inductive Expr where
  /-- A number as written, and the line it stands on. -/
  | number (radix : Radix) (text : String) (line : Int)
  | string (value : String)
  | var (name : String)
  /-- An array element. -/
  | index (name : String) (indices : List Expr)
  | binary (op : BinaryOp) (left right : Expr)
  | unary (op : UnaryOp) (operand : Expr)
  /-- Parentheses of the source. -/
  | paren (inner : Expr)
  | call (f : Builtin) (args : List Expr)
  /-- A call of a function that the program defines. -/
  | fn (name : String) (args : List Expr)
  /-- No expression. -/
  | missing
  deriving Repr

namespace Expr

/-- The static type of an expression. -/
def type : Expr → Ty
  | number _ _ _ => .number
  | string _ => .string
  | var name => .ofName name
  | index name _ => .ofName name
  | binary op left _ => if op = .add then left.type else .number
  | unary _ _ => .number
  | paren inner => inner.type
  | call f _ => f.result
  | fn name _ => .ofName name
  | missing => .number

/-- How a message shows an operand whose text is `t`: an absent one and one without a
text have a notation of their own. -/
def shownAs (verb : String) (absent : String) (e : Expr) (t : Option String) : String :=
  match e with
  | missing => absent
  | _ =>
    t.getD ("%!" ++ verb ++ "(PANIC=String method: runtime error: " ++
      "invalid memory address or nil pointer dereference)")

mutual

/-- The text of an expression in messages: operations fully parenthesised, arguments
between brackets. Parentheses around nothing have no text. -/
def text? : Expr → Option String
  | number _ text _ => some text
  | string value => some (Text.quoted value)
  | var name => some name
  | index name indices => some (name ++ "[" ++ " ".intercalate (texts indices) ++ "]")
  | binary op left right =>
    some ("(" ++ shownAs "s" "%!s(<nil>)" left (text? left) ++ " " ++ op.text ++ " " ++
      shownAs "s" "%!s(<nil>)" right (text? right) ++ ")")
  | unary op operand =>
    some ("(" ++ op.text ++ " " ++ shownAs "s" "%!s(<nil>)" operand (text? operand) ++ ")")
  | paren inner => (text? inner).map fun t => "(" ++ t ++ ")"
  | call f args => some (f.name ++ "[" ++ " ".intercalate (texts args) ++ "]")
  | fn name args => some (name ++ "[" ++ " ".intercalate (texts args) ++ "]")
  | missing => none

/-- The texts of the members of a list. -/
def texts : List Expr → List String
  | [] => []
  | e :: es => shownAs "v" "<nil>" e (text? e) :: texts es

end

/-- The text of an expression in messages. -/
def text (e : Expr) : String := shownAs "s" "%!s(<nil>)" e e.text?

end Expr

end Locomotive
