import Locomotive.Text

/-!
# Types and built-in functions

Every expression is a number or a string. A name's type mark tells which: names that
end in `$` are strings. Each built-in function takes certain numbers of arguments of
certain types and gives a value of one type.
-/

namespace Locomotive

/-- The static type of an expression. -/
inductive Ty where
  | number
  | string
  deriving DecidableEq, Repr

namespace Ty

/-- The name of a type in messages. -/
def name : Ty → String
  | number => "number"
  | string => "string"

/-- The type of a variable or function with the given name. -/
def ofName (s : String) : Ty := if Text.endsWith s '$' then string else number

end Ty

/-- The built-in functions. -/
inductive Builtin where
  | abs
  | asc
  | atn
  | bin
  | chr
  | cint
  | cos
  | dec
  | exp
  | fix
  | hex
  | inkey
  | instr
  | int
  | left
  | len
  | log
  | log10
  | lower
  | max
  | mid
  | min
  | pi
  | remain
  | right
  | rnd
  | round
  | sgn
  | sin
  | space
  | sqr
  | str
  | string
  | tan
  | time
  | upper
  | val
  | xpos
  | ypos
  /-- A function the language does not have. -/
  | other (name : String)
  deriving DecidableEq, Repr

namespace Builtin

/-- The functions of the language. -/
def all : List Builtin :=
  [abs, asc, atn, bin, chr, cint, cos, dec, exp, fix, hex, inkey, instr, int, left, len, log,
    log10, lower, max, mid, min, pi, remain, right, rnd, round, sgn, sin, space, sqr, str,
    string, tan, time, upper, val, xpos, ypos]

/-- The reserved word of a function. -/
def name : Builtin → String
  | abs => "ABS"
  | asc => "ASC"
  | atn => "ATN"
  | bin => "BIN$"
  | chr => "CHR$"
  | cint => "CINT"
  | cos => "COS"
  | dec => "DEC$"
  | exp => "EXP"
  | fix => "FIX"
  | hex => "HEX$"
  | inkey => "INKEY$"
  | instr => "INSTR"
  | int => "INT"
  | left => "LEFT$"
  | len => "LEN"
  | log => "LOG"
  | log10 => "LOG10"
  | lower => "LOWER$"
  | max => "MAX"
  | mid => "MID$"
  | min => "MIN"
  | pi => "PI"
  | remain => "REMAIN"
  | right => "RIGHT$"
  | rnd => "RND"
  | round => "ROUND"
  | sgn => "SGN"
  | sin => "SIN"
  | space => "SPACE$"
  | sqr => "SQR"
  | str => "STR$"
  | string => "STRING$"
  | tan => "TAN"
  | time => "TIME"
  | upper => "UPPER$"
  | val => "VAL"
  | xpos => "XPOS"
  | ypos => "YPOS"
  | other name => name

/-- The function of the language with the given name. -/
def find? (s : String) : Option Builtin := all.find? fun f => f.name == s

/-- The function with the given name, of the language or not. -/
def ofName (s : String) : Builtin := (find? s).getD (other s)

/-- The type of a function's value. -/
def result : Builtin → Ty
  | bin | chr | dec | hex | inkey | left | lower | mid | right | space | str | string | upper =>
    .string
  | _ => .number

/-- What a call may look like: the types of the arguments in order (`none` where either
type will do), how many of them are needed, and whether the last may be repeated. -/
structure Signature where
  params : List (Option Ty)
  required : Nat
  repeated : Bool := false

/-- The call shape of every function but `INSTR`, whose optional argument comes first. -/
def signature : Builtin → Signature
  | inkey | pi | time | xpos | ypos => ⟨[], 0, false⟩
  | rnd => ⟨[some .number], 0, false⟩
  | max | min => ⟨[some .number], 1, true⟩
  | asc | len | lower | upper | val => ⟨[some .string], 1, false⟩
  | bin | hex | round => ⟨[some .number, some .number], 1, false⟩
  | dec => ⟨[some .number, some .string], 2, false⟩
  | left | right => ⟨[some .string, some .number], 2, false⟩
  | mid => ⟨[some .string, some .number, some .number], 2, false⟩
  | string => ⟨[some .number, none], 2, false⟩
  | _ => ⟨[some .number], 1, false⟩

/-- The types that `n` arguments of a shape must have, if it admits `n` arguments. -/
def Signature.params? (s : Signature) (n : Nat) : Option (List (Option Ty)) :=
  if n < s.required then none
  else if n ≤ s.params.length then some (s.params.take n)
  else if s.repeated then
    some (s.params ++ List.replicate (n - s.params.length) (s.params.getLast?.getD none))
  else none

/-- The types that `n` arguments of a function must have (`none` where either will do),
if the function admits `n` arguments. -/
def params? (f : Builtin) (n : Nat) : Option (List (Option Ty)) :=
  match f with
  | instr =>
    match n with
    | 2 => some [some .string, some .string]
    | 3 => some [some .number, some .string, some .string]
    | _ => none
  | f => f.signature.params? n

/-- The first argument of the wrong type: its place, counted from `i`, and the type it
should have. -/
def mismatch? : (i : Nat) → List (Option Ty) → List Ty → Option (Nat × Ty)
  | i, some want :: params, got :: args =>
    if got = want then mismatch? (i + 1) params args else some (i, want)
  | i, none :: params, _ :: args => mismatch? (i + 1) params args
  | _, _, _ => none

end Builtin

end Locomotive
