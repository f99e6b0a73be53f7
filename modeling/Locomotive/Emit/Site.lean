import Locomotive.Emit
import Locomotive.Js.Expr
import Locomotive.Text

/-!
# Resolving references to subroutines

When all subroutines of a program are known, the numbered marks of the references to
them are replaced by calls. A reference to something that is no subroutine leaves a
remark in the program and gives a warning.

* `Piece`, `pieces`: a text as plain stretches and marks.
* `Emit.resolve`: a text with its marks replaced.
-/

namespace Locomotive

/-- A part of a text. -/
inductive Piece where
  | plain (text : List Char)
  /-- What stands between the two characters of a mark. -/
  | mark (inside : List Char)
  /-- A mark that does not end. -/
  | unclosed
  deriving DecidableEq, Repr

/-- A text as plain stretches and marks. -/
def pieces (cs : List Char) : List Piece :=
  let plain := cs.takeWhile (· != Js.markOpen)
  match _hopen : cs.dropWhile (· != Js.markOpen) with
  | [] => [.plain plain]
  | _ :: r =>
    let inside := r.takeWhile (· != Js.markClose)
    match _hclose : r.dropWhile (· != Js.markClose) with
    | [] => [.plain plain, .unclosed]
    | _ :: rest => .plain plain :: .mark inside :: pieces rest
termination_by cs.length
decreasing_by
  have h1 := (List.dropWhile_suffix (l := cs) (· != Js.markOpen)).length_le
  have h2 := (List.dropWhile_suffix (l := r) (· != Js.markClose)).length_le
  rw [_hopen] at h1
  rw [_hclose] at h2
  simp only [List.length_cons] at h1 h2
  omega

/-- The functions of a program: their labels, and those of the asynchronous ones. -/
structure Functions where
  all : List String
  async : List String

namespace Functions

/-- The label is that of a function. -/
def has (f : Functions) (label : String) : Bool := f.all.contains label

/-- A call of the function has to be awaited. -/
def isAsync (f : Functions) (label : String) : Bool := f.async.contains label

end Functions

namespace Emit

/-- A warning that the label is no subroutine, about the line with the given number. -/
def warnNoSubroutine (label : String) (line : Int) : Emit Unit :=
  update fun t => ({ t with lineNumber := line }).warn (.notSubroutine label)

/-- The name of the function with the given label. -/
def functionName (f : Functions) (line : Int) (label : String) : Emit String :=
  if f.has label then pure ("_" ++ label)
  else do
    warnNoSubroutine label line
    pure "undefined"

/-- The names of the functions with the given labels. -/
def functionNames (f : Functions) (line : Int) : List String → Emit (List String)
  | [] => pure []
  | l :: ls => do
    let n ← functionName f line l
    let ns ← functionNames f line ls
    pure (n :: ns)

/-- The code of a reference to subroutines. -/
def reference (f : Functions) (s : CallSite) : Emit String :=
  match s.kind, s.labels with
  | .direct, label :: _ =>
    if f.has label then
      pure ((if f.isAsync label then "await _" else "_") ++ label ++ "()")
    else do
      warnNoSubroutine label s.lineNumber
      pure ("/* GOSUB " ++ label ++ " */")
  | .indexed, labels => do
    let names ← functionNames f s.lineNumber labels
    let awaited := if labels.any f.isAsync then "await " else ""
    pure (awaited ++ "[" ++ ", ".intercalate names ++ "][" ++ s.selector ++ " - 1]?.()")
  | .reference, label :: _ => functionName f s.lineNumber label
  | .direct, [] => broken .outOfRange
  | .reference, [] => broken .outOfRange
  | .other _, _ => pure ""

/-- The code that replaces a mark. -/
def mark (f : Functions) (inside : List Char) : Emit String := do
  let sites := (← get).callSites
  match Text.signed? inside with
  | some n =>
    if n ≥ sites.length ∨ n < Text.leastWord then broken (.corruptMark (String.ofList inside))
    else if n < 0 then broken .outOfRange
    else
      match sites[n.toNat]? with
      | some s => reference f s
      | none => broken .outOfRange
  | none => broken (.corruptMark (String.ofList inside))

/-- The code of a part of a text. -/
def piece (f : Functions) : Piece → Emit String
  | .plain text => pure (String.ofList text)
  | .mark inside => mark f inside
  | .unclosed => broken .outOfRange

/-- The codes of the parts of a text. -/
def piecesOf (f : Functions) : List Piece → Emit (List String)
  | [] => pure []
  | p :: ps => do
    let x ← piece f p
    let xs ← piecesOf f ps
    pure (x :: xs)

/-- A text with its marks replaced. -/
def resolve (f : Functions) (text : String) : Emit String := do
  pure (String.join (← piecesOf f (pieces text.toList)))

end Emit

end Locomotive
