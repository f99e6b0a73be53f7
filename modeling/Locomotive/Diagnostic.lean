import Locomotive.Text.Quoted

/-!
# Diagnostics of code generation

A program that can be compiled may still give warnings: a remark each, with the line it
is about. One that cannot be compiled is refused for a reason, or breaks a rule of the
tables that are kept while its lines are compiled.

* `Remark`, `Warning`: what a warning says, and about which line.
* `Refusal`: what no code can be generated for.
* `Fault`: a use of the tables that they do not admit.
-/

namespace Locomotive

/-- What a variable holds in the generated program. -/
inductive Storage where
  | number
  | string
  | array
  deriving DecidableEq, Repr

/-- The name of a kind of storage. -/
def Storage.name : Storage → String
  | number => "number"
  | string => "string"
  | array => "array"

/-- What a warning says. -/
inductive Remark where
  /-- A decimal number has leading zeros. -/
  | octalNumber (text used : String)
  /-- A subroutine starts before the last one has ended. -/
  | unfinishedSubroutine (label next : String)
  /-- A `RETURN` stands in a loop that was opened after the label. -/
  | returnInBlock (label : String)
  /-- A variable is used with two kinds of storage. -/
  | mixedStorage (name : String) (before now : Storage)
  | noRestoreTarget (label : String)
  | notSubroutine (label : String)
  /-- A `PRINT` names a stream other than the screen. -/
  | ignoredStream (stream : String)
  | strayReturn
  | unsupported (text : String)
  | other (text : String)
  deriving DecidableEq, Repr

/-- The wording of a remark. -/
def Remark.text : Remark → String
  | octalNumber text used => "number " ++ text ++ " looks like octal; using " ++ used
  | unfinishedSubroutine label next =>
    "subroutine " ++ label ++ " has no RETURN before subroutine " ++ next
  | returnInBlock label =>
    "RETURN inside an open FOR/WHILE block does not end subroutine " ++ label
  | mixedStorage name before now =>
    "variable " ++ name ++ " used as " ++ before.name ++ " and " ++ now.name ++ "; using " ++
      now.name
  | noRestoreTarget label => "RESTORE target " ++ label ++ " does not exist"
  | notSubroutine label => "GOSUB target " ++ label ++ " is not a subroutine ending with RETURN"
  | ignoredStream stream => "PRINT stream " ++ stream ++ " ignored; printing to screen"
  | strayReturn => "RETURN outside of a subroutine"
  | unsupported text => "unsupported statement " ++ text
  | other text => text

/-- A remark about a line; no line has a number below one. -/
structure Warning where
  line : Int
  remark : Remark
  deriving DecidableEq, Repr

/-- The text of a warning. -/
def Warning.text (w : Warning) : String :=
  if 0 < w.line then "line " ++ toString w.line ++ ": " ++ w.remark.text else w.remark.text

/-- What no code can be generated for. -/
inductive Refusal where
  | unknownUnary (op : String)
  | unknownOperator (op : String)
  | unsupportedFunction (name : String)
  /-- No expression stands where one has to. -/
  | noExpression
  /-- No statement stands where one has to. -/
  | noStatement
  | unsupportedCommand (name : String)
  | notAssignable (text : String)
  /-- A loop crosses the end of an `IF`. -/
  | openInBranch
  /-- Loops are still open after the last line. -/
  | unclosed (count : Int)
  deriving DecidableEq, Repr

/-- The wording of a refusal. -/
def Refusal.text : Refusal → String
  | unknownUnary op => "unknown unary operator " ++ op
  | unknownOperator op => "unknown operator " ++ op
  | unsupportedFunction name => "function " ++ name ++ " is not supported"
  | noExpression => "unsupported expression <nil>"
  | noStatement => "unsupported statement <nil>"
  | unsupportedCommand name => "unsupported command " ++ name
  | notAssignable text => "cannot assign to " ++ text
  | openInBranch => "FOR/WHILE block inside IF must be closed on the same line"
  | unclosed count => toString count ++ " FOR/WHILE block(s) not closed at end of program"

/-- A use of the tables that they do not admit. -/
inductive Fault where
  /-- More blocks are closed than open. -/
  | nesting (line indent : Int)
  /-- A label stands before one that was defined earlier. -/
  | labelOrder (label : String)
  /-- The mark of a subroutine reference has no number of one. -/
  | corruptMark (text : String)
  /-- Something is looked up where there is nothing. -/
  | outOfRange
  deriving DecidableEq, Repr

/-- The wording of a fault. -/
def Fault.text : Fault → String
  | nesting line indent =>
    "line " ++ toString line ++ ": block nesting mismatch (indent " ++ toString indent ++ ")"
  | labelOrder label => "label " ++ label ++ " defined out of line order"
  | corruptMark text => "corrupt call marker " ++ Text.quoted text
  | outOfRange => "index out of range"

/-- Why code generation stopped. -/
inductive Failure where
  /-- A refusal, at a line or after the last. -/
  | refused (line : Option Int) (why : Refusal)
  | broken (fault : Fault)
  deriving DecidableEq, Repr

/-- The text of a failure. -/
def Failure.text : Failure → String
  | refused none why => why.text
  | refused (some line) why => "line " ++ toString line ++ ": " ++ why.text
  | broken fault => fault.text

/-- The failure, as one of the given line if it has none yet. -/
def Failure.atLine (line : Int) : Failure → Failure
  | refused _ why => refused (some line) why
  | f => f

end Locomotive
