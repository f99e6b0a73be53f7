import Locomotive.Expr

/-!
# Statements and programs

A program is a list of lines, a line an optional label and its statements. An `IF`
holds the statements of its branches. `missing` marks a place where a statement has to
stand and none was given; reading a program never makes one.
-/

namespace Locomotive

/-- One literal of a `DATA` statement. -/
inductive DataItem where
  | text (value : String)
  /-- A number as written, with its sign. -/
  | number (radix : Radix) (text : String)
  deriving DecidableEq, Repr

/-- One element of a `PRINT` list. -/
inductive PrintItem where
  | value (e : Expr)
  | comma
  | semicolon
  | tab (e : Expr)
  | spc (e : Expr)
  /-- A value with the format of a `USING`. -/
  | formatted (format value : Expr)
  /-- An element that prints nothing. -/
  | nothing
  deriving Repr

/-- The statements that are one call, or a change of mode. -/
inductive Command where
  | cls
  | stopEnd
  | stop
  | frame
  | tag
  | tagOff
  | deg
  | rad
  | mode
  | zone
  | paper
  | pen
  | locate
  | origin
  | ink
  | graphicsPen
  /-- A command the language does not have. -/
  | other (name : String)
  deriving DecidableEq, Repr

namespace Command

/-- The commands of the language. -/
def all : List Command :=
  [cls, stopEnd, stop, frame, tag, tagOff, deg, rad, mode, zone, paper, pen, locate, origin,
    ink, graphicsPen]

/-- The words of a command. -/
def name : Command → String
  | cls => "CLS"
  | stopEnd => "END"
  | stop => "STOP"
  | frame => "FRAME"
  | tag => "TAG"
  | tagOff => "TAGOFF"
  | deg => "DEG"
  | rad => "RAD"
  | mode => "MODE"
  | zone => "ZONE"
  | paper => "PAPER"
  | pen => "PEN"
  | locate => "LOCATE"
  | origin => "ORIGIN"
  | ink => "INK"
  | graphicsPen => "GRAPHICS PEN"
  | other name => name

/-- The command with the given words, of the language or not. -/
def ofName (s : String) : Command := (all.find? fun c => c.name == s).getD (other s)

end Command

/-- One argument of an external command; `out` marks a variable to be written. -/
structure RsxArg where
  expr : Expr
  out : Bool
  deriving Repr

/-- A statement. -/
inductive Stmt where
  | assign (target value : Expr)
  | print (stream : Option Expr) (items : List PrintItem)
  | write (stream : Option Expr) (args : List Expr)
  | command (c : Command) (args : List Expr)
  /-- `DRAW`, `MOVE`, `PLOT` and their relative forms. -/
  | graphics (name : String) (x y : Expr) (pen : Option Expr)
  | forLoop (var : String) (start stop : Expr) (step : Option Expr)
  /-- Closes a loop for each variable, and one if there is none. -/
  | next (vars : List String)
  | whileLoop (cond : Expr)
  | wend
  | branch (cond : Expr) (yes : List Stmt) (no : Option (List Stmt))
  | gosub (label : String)
  | ret
  | onGosub (selector : Expr) (labels : List String)
  | data (items : List DataItem)
  | read (targets : List Expr)
  | restore (label : Option String)
  /-- Makes arrays; each is written like an element. -/
  | dim (arrays : List Expr)
  | erase (names : List String)
  | defFn (name : String) (params : List String) (body : Expr)
  /-- `question`: a question mark follows the prompt. -/
  | input (prompt : String) (question : Bool) (targets : List Expr)
  /-- `AFTER` and `EVERY`. -/
  | timer (name : String) (interval : Expr) (timer : Option Expr) (label : String)
  | rsx (name : String) (args : List RsxArg)
  | comment (text : String)
  /-- A statement without a counterpart in the generated program, as written. -/
  | unsupported (keyword text : String) (line : Int)
  /-- No statement. -/
  | missing
  deriving Repr

/-- The statement is an `IF`. -/
def Stmt.isBranch : Stmt → Bool
  | .branch _ _ _ => true
  | _ => false

/-- A line of a program. -/
structure Line where
  /-- Where it stands in the source, counted from one. -/
  number : Int
  label : Option String
  stmts : List Stmt
  deriving Repr

/-- A program. -/
structure Program where
  lines : List Line
  deriving Repr

end Locomotive
