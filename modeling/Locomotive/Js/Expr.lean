/-!
# Expressions of the generated program

The trees of the JavaScript expressions that a program is made of, and their text.
Parentheses are nodes: they are put where an operand binds looser than its place needs
(`atLeast`), and printing adds none.

A reference to a subroutine is a numbered mark (`site`, `selected`), which is replaced when
all subroutines are known.
-/

namespace Locomotive.Js

/-- Binding strengths, from the loosest. -/
inductive Strength where
  | or
  | xor
  | and
  | add
  | mul
  | unary
  | atom
  deriving DecidableEq, Repr

/-- The place of a strength in their order, from one. -/
def Strength.rank : Strength → Nat
  | or => 1
  | xor => 2
  | and => 3
  | add => 4
  | mul => 5
  | unary => 6
  | atom => 7

/-- The operators before an operand. -/
inductive UnaryOp where
  | neg
  | bitNot
  | await
  deriving DecidableEq, Repr

/-- The text of an operator, up to its operand. -/
def UnaryOp.text : UnaryOp → String
  | neg => "-"
  | bitNot => "~"
  | await => "await "

/-- The operators between two operands, comparisons apart. -/
inductive BinaryOp where
  | bitOr
  | bitXor
  | bitAnd
  | add
  | sub
  | mul
  | div
  | rem
  deriving DecidableEq, Repr

namespace BinaryOp

/-- The text of an operator. -/
def text : BinaryOp → String
  | bitOr => "|"
  | bitXor => "^"
  | bitAnd => "&"
  | add => "+"
  | sub => "-"
  | mul => "*"
  | div => "/"
  | rem => "%"

/-- The binding strength of an operator. -/
def strength : BinaryOp → Strength
  | bitOr => .or
  | bitXor => .xor
  | bitAnd => .and
  | add => .add
  | sub => .add
  | mul => .mul
  | div => .mul
  | rem => .mul

end BinaryOp

/-- The comparisons. -/
inductive Comparison where
  | eq
  | ne
  | lt
  | gt
  | le
  | ge
  deriving DecidableEq, Repr

/-- The text of a comparison. -/
def Comparison.text : Comparison → String
  | eq => "==="
  | ne => "!=="
  | lt => "<"
  | gt => ">"
  | le => "<="
  | ge => ">="

/-- An expression. -/
inductive Expr where
  /-- A literal or a name. -/
  | atom (text : String)
  /-- A mark for the subroutine reference with the given number. -/
  | site (index : Nat)
  /-- The same for one of several subroutines; the text that replaces the mark holds that
  of the selector. -/
  | selected (index : Nat) (selector : Expr)
  /-- An array element, or the array itself if there are no indices. -/
  | element (array : String) (indices : List Expr)
  | call (f : String) (args : List Expr)
  | method (receiver : Expr) (name : String) (args : List Expr)
  | property (receiver : Expr) (name : String)
  | unary (op : UnaryOp) (operand : Expr)
  | binary (op : BinaryOp) (left right : Expr)
  | compare (op : Comparison) (left right : Expr)
  /-- A comparison as the number -1 or 0. -/
  | truth (op : Comparison) (left right : Expr)
  | paren (inner : Expr)
  | array (items : List Expr)
  /-- An object that tells a printing function what to do. -/
  | directive (kind : String) (args : List Expr)
  deriving Repr

/-- The mark that opens the number of a subroutine reference. -/
def markOpen : Char := Char.ofNat 0xE000

/-- The mark that closes the number of a subroutine reference. -/
def markClose : Char := Char.ofNat 0xE001

/-- The text that stands for a subroutine reference until it is resolved. -/
def siteMark (index : Nat) : String :=
  String.singleton markOpen ++ toString index ++ String.singleton markClose

namespace Expr

/-- The binding strength of an expression. A bare comparison is never an operand. -/
def strength : Expr → Strength
  | unary _ _ => .unary
  | binary op _ _ => op.strength
  | _ => .atom

/-- The expression in a place that needs at least the strength `rank`: in parentheses if
it binds looser. -/
def atLeast (rank : Nat) (e : Expr) : Expr := if e.strength.rank < rank then paren e else e

mutual

/-- The text of an expression. -/
def text : Expr → String
  | atom t => t
  | site i => siteMark i
  | selected i _ => siteMark i
  | element a is => a ++ String.join (bracketed is)
  | call f args => f ++ "(" ++ ", ".intercalate (texts args) ++ ")"
  | method r name args =>
    r.text ++ "." ++ name ++ "(" ++ ", ".intercalate (texts args) ++ ")"
  | property r name => r.text ++ "." ++ name
  | unary op x => op.text ++ x.text
  | binary op l r => l.text ++ " " ++ op.text ++ " " ++ r.text
  | compare op l r => l.text ++ " " ++ op.text ++ " " ++ r.text
  | truth op l r => "(" ++ l.text ++ " " ++ op.text ++ " " ++ r.text ++ " ? -1 : 0)"
  | paren x => "(" ++ x.text ++ ")"
  | array xs => "[" ++ ", ".intercalate (texts xs) ++ "]"
  | directive kind args =>
    "\x7btype: \"" ++ kind ++ "\", args: [" ++ ", ".intercalate (texts args) ++ "]\x7d"

/-- The texts of a list of expressions. -/
def texts : List Expr → List String
  | [] => []
  | e :: es => e.text :: texts es

/-- The texts of a list of indices, each between brackets. -/
def bracketed : List Expr → List String
  | [] => []
  | e :: es => ("[" ++ e.text ++ "]") :: bracketed es

end

end Expr

/-- A text that binds with one strength, in a place that needs another: what `Expr.atLeast` is to trees. -/
def wrap (text : String) (rank least : Int) : String :=
  if rank < least then "(" ++ text ++ ")" else text

end Locomotive.Js
