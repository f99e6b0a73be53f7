import Locomotive.Emit
import Locomotive.Expr.Builtin
import Locomotive.Js.Expr

/-!
# Calls of built-in functions

Most functions are a method of `Math` or a helper with the same arguments; some become
methods of their first argument. Functions of angles depend on whether angles are in
degrees.

* `Builtin.taken`: how many of its arguments a function looks at.
* `Emit.builtin`: the code of a call, from the code of the arguments it looks at.
-/

namespace Locomotive

namespace Builtin

/-- The function of the target that takes the same arguments: the object it belongs to and
its name. -/
def direct? : Builtin → Option (String × String)
  | abs => some ("Math", "abs")
  | exp => some ("Math", "exp")
  | int => some ("Math", "floor")
  | fix => some ("Math", "trunc")
  | log => some ("Math", "log")
  | log10 => some ("Math", "log10")
  | sgn => some ("Math", "sign")
  | sqr => some ("Math", "sqrt")
  | cint => some ("Math", "round")
  | max => some ("Math", "max")
  | min => some ("Math", "min")
  | chr => some ("String", "fromCharCode")
  | _ => none

/-- The helper that does the work of a function. -/
def helper? : Builtin → Option String
  | bin => some "bin$"
  | dec => some "dec$"
  | hex => some "hex$"
  | inkey => some "inkey$"
  | instr => some "instr"
  | remain => some "remain"
  | right => some "right$"
  | round => some "round"
  | str => some "str$"
  | string => some "string$"
  | time => some "time"
  | val => some "val"
  | xpos => some "xpos"
  | ypos => some "ypos"
  | _ => none

/-- How many of `given` arguments a function looks at. -/
def taken (given : Nat) : Builtin → Nat
  | pi | rnd | inkey => 0
  | sin | cos | tan | atn | asc | len | lower | upper | space => 1
  | left => 2
  | mid => if given = 2 then 2 else 3
  | _ => given

end Builtin

namespace Emit

open Js (Strength)

/-- A call of a function of `Math`. -/
def math (name : String) (args : List Js.Expr) : Js.Expr := .method (.atom "Math") name args

/-- The code of an argument that becomes a receiver. -/
def receiver (e : Js.Expr) : Js.Expr := e.atLeast Strength.atom.rank

/-- The code of an angle as its function wants it. -/
def angle (x : Js.Expr) : Emit Js.Expr := do
  if (← get).deg then
    helper "toRad"
    pure (.call "toRad" [x])
  else pure x

/-- The code of an angle that a function gives. -/
def fromAngle (x : Js.Expr) : Emit Js.Expr := do
  if (← get).deg then
    helper "toDeg"
    pure (.call "toDeg" [x])
  else pure x

/-- One less than a position, which counts from one. -/
def before (x : Js.Expr) : Js.Expr := .binary .sub (x.atLeast Strength.mul.rank) (.atom "1")

/-- The code of a call from the code of the arguments it looks at. -/
def builtin (f : Builtin) (args : List Js.Expr) : Emit Js.Expr :=
  match f, args with
  | .inkey, _ => do
    wait
    pure (.unary .await (.call "inkey$" []))
  | .pi, _ => pure (.property (.atom "Math") "PI")
  | .rnd, _ => pure (math "random" [])
  | .sin, [x] => do pure (math "sin" [← angle x])
  | .cos, [x] => do pure (math "cos" [← angle x])
  | .tan, [x] => do pure (math "tan" [← angle x])
  | .atn, [x] => fromAngle (math "atan" [x])
  | .asc, [s] => pure (.method (receiver s) "charCodeAt" [.atom "0"])
  | .len, [s] => pure (.property (receiver s) "length")
  | .lower, [s] => pure (.method (receiver s) "toLowerCase" [])
  | .upper, [s] => pure (.method (receiver s) "toUpperCase" [])
  | .space, [n] => pure (.method (.atom "\" \"") "repeat" [n])
  | .left, [s, n] => pure (.method (receiver s) "substring" [.atom "0", n])
  | .mid, [s, start] => pure (.method (receiver s) "substring" [before start])
  | .mid, [s, start, n] => pure (.method (receiver s) "substr" [before start, n])
  | f, args =>
    match f.direct?, f.helper? with
    | some (object, name), _ => pure (.method (.atom object) name args)
    | none, some name => pure (.call name args)
    | none, none => broken .outOfRange

end Emit

end Locomotive
