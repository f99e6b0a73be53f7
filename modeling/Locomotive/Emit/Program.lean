import Locomotive.Emit.Stmt
import Locomotive.Layout

/-!
# Code of programs

The references to labels are collected first, so that a label is known to start a
subroutine when it is met. Then the lines are compiled in order, and the fragments are
put together.

* `Stmt.uses`: the labels that a statement refers to.
* `Emit.line`: the code of a line.
* `Program.generate`: the generated program, and the tables.
-/

namespace Locomotive

namespace Stmt

mutual

/-- The labels that a statement refers to, in order. -/
def uses : Stmt → List (String × LabelUse)
  | gosub label => [(label, .gosub)]
  | onGosub _ labels => labels.map fun l => (l, .gosub)
  | timer _ _ _ label => [(label, .gosub)]
  | restore (some label) => [(label, .restore)]
  | branch _ yes no => usesOf yes ++ usesOfElse no
  | _ => []

/-- The labels that the statements of a list refer to. -/
def usesOf : List Stmt → List (String × LabelUse)
  | [] => []
  | s :: ss => s.uses ++ usesOf ss

/-- The labels that the statements of an `ELSE` refer to. -/
def usesOfElse : Option (List Stmt) → List (String × LabelUse)
  | none => []
  | some ss => usesOf ss

end

end Stmt

/-- The labels that a program refers to. -/
def Program.uses (p : Program) : List (String × LabelUse) :=
  p.lines.flatMap fun l => Stmt.usesOf l.stmts

/-- The statement is a `RETURN` for good. -/
def Js.Stmt.isRet : Js.Stmt → Bool
  | ret => true
  | _ => false

/-- What a line becomes before it is text. -/
structure LineCode where
  /-- How many loops are open around the whole line. -/
  indent : Int
  code : List Js.Stmt
  waits : Bool

/-- The fragment of a line's code. -/
def LineCode.fragment (l : LineCode) : Fragment := ⟨l.indent, Js.lineText l.code, l.waits⟩

namespace Emit

/-- The code of the line with the given index. A `RETURN` outside of any `IF` ends the open
subroutine. -/
def line (index : Nat) (l : Line) : Emit LineCode := do
  update fun t => t.beginLine index l.number
  match l.label with
  | some label => define label index
  | none => pure ()
  let before := (← get).indent
  let code ← atLine l.number (stmts l.stmts)
  let t ← get
  if code.any Js.Stmt.isRet then update fun t => t.close index
  pure ⟨min before t.indent, code, t.waits⟩

/-- The codes of the lines from the given index on. -/
def lines : (index : Nat) → List Line → Emit (List LineCode)
  | _, [] => pure []
  | i, l :: ls => do
    let c ← line i l
    let cs ← lines (i + 1) ls
    pure (c :: cs)

/-- The text of the program. -/
def program (p : Program) : Emit String := do
  update fun t => p.uses.foldl (fun t u => t.use u.1 u.2) t
  let codes ← lines 0 p.lines
  update fun t => { t with lineNumber := 0 }
  let depth := (← get).indent
  if depth ≠ 0 then refuse (.unclosed depth)
  update Tables.resolveRestores
  assemble (codes.map LineCode.fragment)

end Emit

/-- The generated program, or why there is none, and the tables. -/
def Program.generate (p : Program) : Except Failure String × Tables :=
  (Emit.program p).apply {}

end Locomotive
