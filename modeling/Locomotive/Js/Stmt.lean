import Locomotive.Js.Expr

/-!
# Statements of the generated program

The statements that one line of a program becomes. Loops are opened and closed by
statements of their own, since a line may hold only a part of one. A line's statements
are joined into one line of text, and its comments follow at the end.

* `Stmt.parts`: the texts of a list of statements, comments left out.
* `joinParts`: one line from such texts.
* `lineText`: the text of a whole line.
-/

namespace Locomotive.Js

/-- How the variable of a counting loop moves. -/
inductive Step where
  /-- Up by one. -/
  | one
  /-- Up by a literal. -/
  | up (amount : Expr)
  /-- Down by a literal. -/
  | down (amount : Expr)
  /-- By a value whose sign is not known yet. -/
  | signed (amount : Expr)
  deriving Repr

/-- A statement. -/
inductive Stmt where
  /-- An expression for its effect. -/
  | expr (e : Expr)
  | assign (target value : Expr)
  | ret
  /-- Return with a call. -/
  | retCall (e : Expr)
  | forLoop (var : String) (start stop : Expr) (step : Step)
  | whileLoop (cond : Expr)
  /-- The end of a loop. -/
  | close
  | branch (cond : Expr) (yes : List Stmt) (no : Option (List Stmt))
  /-- A function as an arrow. -/
  | arrow (name : String) (isAsync : Bool) (params : List String) (body : Expr)
  /-- A remark in the place of a statement. -/
  | note (text : String)
  /-- A comment, shown at the end of the line. -/
  | comment (text : String)
  deriving Repr

/-- The test of a counting loop. -/
def Step.test (var : String) (stop : Expr) : Step → String
  | one => var ++ " <= " ++ stop.text
  | up _ => var ++ " <= " ++ stop.text
  | down _ => var ++ " >= " ++ stop.text
  | signed amount =>
    "(" ++ (amount.atLeast Strength.add.rank).text ++ " >= 0 ? " ++ var ++ " <= " ++ stop.text ++
      " : " ++ var ++ " >= " ++ stop.text ++ ")"

/-- How a counting loop moves on. -/
def Step.advance (var : String) : Step → String
  | one => var ++ "++"
  | up amount => var ++ " += " ++ amount.text
  | down amount => var ++ " -= " ++ amount.text
  | signed amount => var ++ " += " ++ amount.text

/-- The text opens or closes a block. -/
def isBlockEdge (s : String) : Bool :=
  match s.toList.getLast? with
  | some c => c == '\x7b' || c == '\x7d'
  | none => false

/-- One line from the texts of its statements: a semicolon follows each that is no edge
of a block. -/
def joinParts (parts : List String) : String :=
  " ".intercalate (parts.map fun p => if isBlockEdge p then p else p ++ ";")

/-- A block of statements from their texts. -/
def block (parts : List String) : String :=
  if parts.isEmpty then "\x7b \x7d" else "\x7b " ++ joinParts parts ++ " \x7d"

namespace Stmt

mutual

/-- The text of a statement. -/
def text : Stmt → String
  | expr e => e.text
  | assign t v => t.text ++ " = " ++ v.text
  | ret => "return"
  | retCall e => "return " ++ e.text
  | forLoop v start stop step =>
    "for (" ++ v ++ " = " ++ start.text ++ "; " ++ step.test v stop ++ "; " ++ step.advance v ++
      ") \x7b"
  | whileLoop c => "while (" ++ c.text ++ ") \x7b"
  | close => "\x7d"
  | branch c yes no => "if (" ++ c.text ++ ") " ++ block (parts yes) ++ elsePart no
  | arrow name isAsync params body =>
    "const " ++ name ++ " = " ++ (if isAsync then "async " else "") ++ "(" ++
      ", ".intercalate params ++ ") => " ++ body.text
  | note t => "/* " ++ t ++ " */"
  | comment _ => ""

/-- The texts of a list of statements, comments left out. -/
def parts : List Stmt → List String
  | [] => []
  | s :: ss => if s matches .comment _ then parts ss else s.text :: parts ss

/-- The text of an `else` and its block, if there is one. -/
def elsePart : Option (List Stmt) → String
  | none => ""
  | some ss => " else " ++ block (parts ss)

end

mutual

/-- The comments of a statement, in order. -/
def comments : Stmt → List String
  | comment t => [t]
  | branch _ yes no => commentsOf yes ++ commentsOfElse no
  | _ => []

/-- The comments of a list of statements, in order. -/
def commentsOf : List Stmt → List String
  | [] => []
  | s :: ss => s.comments ++ commentsOf ss

/-- The comments of an `else`, in order. -/
def commentsOfElse : Option (List Stmt) → List String
  | none => []
  | some ss => commentsOf ss

end

end Stmt

/-- The text of a line: its statements, then its comments. -/
def lineText (ss : List Stmt) : String :=
  let code := joinParts (Stmt.parts ss)
  let comments := Stmt.commentsOf ss
  if comments.isEmpty then code
  else
    (if code = "" then "" else code ++ " ") ++ "// " ++ " // ".intercalate comments

end Locomotive.Js
