import Locomotive.Emit.Builtin
import Locomotive.Expr
import Locomotive.Js.Literal

/-!
# Code of expressions

An expression becomes an expression of the target with the same structure. Operands are
put in parentheses only where the target's binding strengths need it, and parentheses of
the source are kept only there. A comparison is the number -1 or 0, except as a
condition, where it stays a comparison.

* `Emit.expr`: the code of an expression.
* `Emit.condition`: the code of a condition.
* `Emit.target`: the code of something a value can be stored in.
-/

namespace Locomotive

/-- The storage of a variable that is no array, from its name. -/
def Storage.ofName (name : String) : Storage :=
  match Ty.ofName name with
  | .number => .number
  | .string => .string

/-- The comparison of the target. -/
def BinaryOp.comparison? : BinaryOp → Option Js.Comparison
  | eq => some .eq
  | ne => some .ne
  | lt => some .lt
  | gt => some .gt
  | le => some .le
  | ge => some .ge
  | _ => none

/-- The operator of the target with the same operands. -/
def BinaryOp.direct? : BinaryOp → Option Js.BinaryOp
  | add => some .add
  | sub => some .sub
  | mul => some .mul
  | div => some .div
  | mod => some .rem
  | and => some .bitAnd
  | or => some .bitOr
  | xor => some .bitXor
  | _ => none

/-- The expression is an operator before an operand. -/
def Expr.isUnary : Expr → Bool
  | unary _ _ => true
  | _ => false

/-- The expression without parentheses around the whole. -/
def Expr.bare : Expr → Expr
  | paren e => e.bare
  | e => e

namespace Emit

open Js (Strength)

/-- The operation with operands in parentheses where it needs them. -/
def operation (op : Js.BinaryOp) (l r : Js.Expr) : Js.Expr :=
  .binary op (l.atLeast op.strength.rank) (r.atLeast (op.strength.rank + 1))

/-- An operand of a comparison. -/
def compared (e : Js.Expr) : Js.Expr := e.atLeast Strength.add.rank

/-- The code of a number. -/
def number (radix : Radix) (text : String) : Emit String := do
  match Js.octal? radix text with
  | some (written, used) => warn (.octalNumber written used)
  | none => pure ()
  pure (Js.numberLiteral radix text)

mutual

/-- The code of an expression. -/
def expr : Expr → Emit Js.Expr
  | .number radix text _ => do pure (.atom (← number radix text))
  | .string value => pure (.atom (Js.quote value))
  | .var name => do pure (.atom (← mention name (.ofName name)))
  | .index name indices => do
    let array ← mention name .array
    pure (.element array (← exprs indices))
  | .paren inner => do pure ((← expr inner).atLeast Strength.atom.rank)
  | .unary op operand =>
    match op with
    | .plus => expr operand
    | .neg => do
      let x ← expr operand
      let least := if operand.isUnary then Strength.atom else Strength.unary
      pure (.unary .neg (x.atLeast least.rank))
    | .not => do pure (.unary .bitNot ((← expr operand).atLeast Strength.unary.rank))
    | .other text => refuse (.unknownUnary text)
  | .binary op left right =>
    match op with
    | .intDiv => do
      let l ← expr left
      let r ← expr right
      pure (math "trunc" [operation .div l r])
    | .pow => do
      let l ← expr left
      let r ← expr right
      pure (math "pow" [l, r])
    | op =>
      match op.comparison?, op.direct? with
      | some c, _ => do
        let l ← expr left
        let r ← expr right
        pure (.truth c (compared l) (compared r))
      | none, some o => do
        let l ← expr left
        let r ← expr right
        pure (operation o l r)
      | none, none => refuse (.unknownOperator op.text)
  | .call f args =>
    match f with
    | .other name => refuse (.unsupportedFunction name)
    | f => do
      match f.helper? with
      | some name => helper name
      | none => pure ()
      builtin f (← firsts (f.taken args.length) args)
  | .fn name args => do
    let call := Js.Expr.call (Js.identifier name) (← exprs args)
    if (← get).asyncFns.contains (Js.identifier name) then
      wait
      pure (.unary .await call)
    else pure call
  | .missing => refuse .noExpression

/-- The code of all members of a list. -/
def exprs : List Expr → Emit (List Js.Expr)
  | [] => pure []
  | e :: es => do
    let x ← expr e
    let xs ← exprs es
    pure (x :: xs)

/-- The code of the first members of a list, which has to have so many. -/
def firsts : Nat → List Expr → Emit (List Js.Expr)
  | 0, _ => pure []
  | _ + 1, [] => broken .outOfRange
  | n + 1, e :: es => do
    let x ← expr e
    let xs ← firsts n es
    pure (x :: xs)

end

/-- The code of a condition. -/
def condition (e : Expr) : Emit Js.Expr :=
  match e.bare with
  | .binary op left right =>
    match op.comparison? with
    | some c => do
      let l ← expr left
      let r ← expr right
      pure (.compare c (compared l) (compared r))
    | none => expr (.binary op left right)
  | e => expr e

/-- The code of something a value can be stored in. -/
def target (e : Expr) : Emit Js.Expr :=
  match e with
  | .var _ => expr e
  | .index _ _ => expr e
  | _ => refuse (.notAssignable e.text)

end Emit

end Locomotive
