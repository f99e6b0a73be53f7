import Locomotive.Emit.Expr
import Locomotive.Proofs.Js.Grammar

/-!
# What the code of an expression means

The tree of the target that an expression stands for, node by node. Parentheses and the plus
sign leave no trace, a comparison is the number -1 or 0, and each built-in function has a
call or a method of its own. Binding strengths play no part in it: where the text of the
code needs parentheses is not said here.

* `Expr.tree?`: the tree of an expression.
* `Expr.conditionTree?`: the tree of a condition, which keeps a comparison at its top.
-/

namespace Locomotive

/-- What the code of an expression depends on: whether angles are in degrees, and which
functions of the program have to be awaited. -/
structure Mode where
  deg : Bool
  asyncFns : List String

/-- The mode of a compilation. -/
def Tables.mode (t : Tables) : Mode := ⟨t.deg, t.asyncFns⟩

namespace Js.Tree

/-- A call of a function of `Math`. -/
def math (name : String) (args : List Tree) : Tree := .call (.member (.word "Math") name) args

/-- A call of a function by its name. -/
def named (f : String) (args : List Tree) : Tree := .call (.word f) args

/-- A call of a method. -/
def method (receiver : Tree) (name : String) (args : List Tree) : Tree := .call (.member receiver name) args

/-- A comparison as the number -1 or 0. -/
def truth (op : Comparison) (l r : Tree) : Tree :=
  .choice (.binary (.compare op) l r) (.unary .neg (.word "1")) (.word "0")

/-- The test of a conditional. -/
def test : Tree → Tree
  | choice test _ _ => test
  | t => t

/-- One less than a position, which counts from one. -/
def before (position : Tree) : Tree := .binary (.arith .sub) position (.word "1")

end Js.Tree

open Js (Tree)

/-- The tree of an operation from those of its operands. -/
def BinaryOp.tree? (op : BinaryOp) (l r : Tree) : Option Tree :=
  match op with
  | xor => some (.binary (.arith .bitXor) l r)
  | or => some (.binary (.arith .bitOr) l r)
  | and => some (.binary (.arith .bitAnd) l r)
  | eq => some (.truth .eq l r)
  | ne => some (.truth .ne l r)
  | lt => some (.truth .lt l r)
  | gt => some (.truth .gt l r)
  | le => some (.truth .le l r)
  | ge => some (.truth .ge l r)
  | add => some (.binary (.arith .add) l r)
  | sub => some (.binary (.arith .sub) l r)
  | mod => some (.binary (.arith .rem) l r)
  | intDiv => some (.math "trunc" [.binary (.arith .div) l r])
  | mul => some (.binary (.arith .mul) l r)
  | div => some (.binary (.arith .div) l r)
  | pow => some (.math "pow" [l, r])
  | other _ => none

/-- The tree of an operation with one operand; a plus sign leaves no trace. -/
def UnaryOp.tree? (op : UnaryOp) (operand : Tree) : Option Tree :=
  match op with
  | neg => some (.unary .neg operand)
  | plus => some operand
  | not => some (.unary .bitNot operand)
  | other _ => none

/-- The tree of a call of a built-in function from those of its arguments. -/
def Builtin.tree? (deg : Bool) (f : Builtin) (args : List Tree) : Option Tree :=
  match f, args with
  | abs, [x] => some (.math "abs" [x])
  | asc, [s] => some (.method s "charCodeAt" [.word "0"])
  | atn, [x] => some (if deg then .named "toDeg" [.math "atan" [x]] else .math "atan" [x])
  | bin, args => some (.named "bin$" args)
  | chr, [x] => some (.method (.word "String") "fromCharCode" [x])
  | cint, [x] => some (.math "round" [x])
  | cos, [x] => some (.math "cos" [if deg then .named "toRad" [x] else x])
  | dec, args => some (.named "dec$" args)
  | exp, [x] => some (.math "exp" [x])
  | fix, [x] => some (.math "trunc" [x])
  | hex, args => some (.named "hex$" args)
  | inkey, [] => some (.unary .await (.named "inkey$" []))
  | instr, args => some (.named "instr" args)
  | int, [x] => some (.math "floor" [x])
  | left, [s, n] => some (.method s "substring" [.word "0", n])
  | len, [s] => some (.member s "length")
  | log, [x] => some (.math "log" [x])
  | log10, [x] => some (.math "log10" [x])
  | lower, [s] => some (.method s "toLowerCase" [])
  | max, args => some (.math "max" args)
  | mid, [s, start] => some (.method s "substring" [.before start])
  | mid, [s, start, n] => some (.method s "substr" [.before start, n])
  | min, args => some (.math "min" args)
  | pi, [] => some (.member (.word "Math") "PI")
  | remain, args => some (.named "remain" args)
  | right, args => some (.named "right$" args)
  | rnd, _ => some (.math "random" [])
  | round, args => some (.named "round" args)
  | sgn, [x] => some (.math "sign" [x])
  | sin, [x] => some (.math "sin" [if deg then .named "toRad" [x] else x])
  | space, [n] => some (.method (.word "\" \"") "repeat" [n])
  | sqr, [x] => some (.math "sqrt" [x])
  | str, args => some (.named "str$" args)
  | string, args => some (.named "string$" args)
  | tan, [x] => some (.math "tan" [if deg then .named "toRad" [x] else x])
  | time, [] => some (.named "time" [])
  | upper, [s] => some (.method s "toUpperCase" [])
  | val, args => some (.named "val" args)
  | xpos, [] => some (.named "xpos" [])
  | ypos, [] => some (.named "ypos" [])
  | _, _ => none

namespace Expr

mutual

/-- **The tree of an expression.** -/
def tree? (m : Mode) : Expr → Option Tree
  | number radix text _ => some (.word (Js.numberLiteral radix text))
  | string value => some (.word (Js.quote value))
  | var name => some (.word (Js.identifier name))
  | index name is => (trees? m is).map fun ts => ts.foldl .index (.word (Js.identifier name))
  | binary op l r => do op.tree? (← l.tree? m) (← r.tree? m)
  | unary op e => do op.tree? (← e.tree? m)
  | paren e => e.tree? m
  | call f args => do f.tree? m.deg (← trees? m args)
  | fn name args => (trees? m args).map fun ts =>
    if m.asyncFns.contains (Js.identifier name) then .unary .await (.named (Js.identifier name) ts)
    else .named (Js.identifier name) ts
  | missing => none

/-- The trees of the members of a list. -/
def trees? (m : Mode) : List Expr → Option (List Tree)
  | [] => some []
  | e :: es => do
    let t ← e.tree? m
    let ts ← trees? m es
    pure (t :: ts)

end

/-- The expression is a comparison under any number of parentheses. -/
def isComparison : Expr → Bool
  | paren e => e.isComparison
  | binary op _ _ => op.isComparison
  | _ => false

/-- **The tree of a condition** is that of the expression, but of a comparison at the top only
the test is kept. -/
def conditionTree? (m : Mode) (e : Expr) : Option Tree :=
  (e.tree? m).map fun t => if e.isComparison then t.test else t

end Expr

/-! ## The code of calls -/

namespace Emit

/-- The helper of a function is noted before the code of its arguments. -/
theorem expr_call {f : Builtin} (hf : ∀ name, f ≠ .other name) (args : List Expr) :
    expr (.call f args) = (do
      match f.helper? with
      | some name => helper name
      | none => pure ()
      builtin f (← firsts (f.taken args.length) args)) := by
  cases hh : f.helper? <;> simp only [expr, hh]

end Emit

end Locomotive
