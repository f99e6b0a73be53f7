import Locomotive.Emit.Expr
import Locomotive.Js.Stmt
import Locomotive.Stmt
import Locomotive.Text

/-!
# Code of statements

A statement becomes any number of statements of the target: none if it only changes a
mode or adds data, one for each variable of a list that is read or dimensioned.

* `Emit.stmt`: the code of a statement.
* `Emit.stmts`: the code of a list of statements.
-/

namespace Locomotive

/-- The helper that a command calls with its own arguments. -/
def Command.helper? : Command → Option String
  | cls => some "cls"
  | mode => some "mode"
  | zone => some "zone"
  | paper => some "paper"
  | pen => some "pen"
  | locate => some "locate"
  | origin => some "origin"
  | ink => some "ink"
  | graphicsPen => some "graphicsPen"
  | _ => none

/-- The expression is a number. -/
def Expr.isNumber : Expr → Bool
  | number _ _ _ => true
  | _ => false

/-- The variable or array element takes whole numbers only. -/
def Expr.isInteger : Expr → Bool
  | var name => Text.endsWith name '%'
  | index name _ => Text.endsWith name '%'
  | _ => false

/-- The expression is the number of the screen. -/
def Expr.isScreen : Expr → Bool
  | number _ text _ => text == "0"
  | _ => false

/-- Something follows on the same line of the screen. -/
def PrintItem.continues : PrintItem → Bool
  | comma => true
  | semicolon => true
  | _ => false

namespace Js

/-- The marks of subroutine references are taken out of a text. -/
def stripMarks (s : String) : String :=
  String.ofList (s.toList.filter fun c => c != markOpen && c != markClose)

/-- The characters of a text in which no remark ends. -/
def keepOpen : List Char → List Char
  | '*' :: '/' :: cs => '*' :: ' ' :: '/' :: keepOpen cs
  | c :: cs => c :: keepOpen cs
  | [] => []

/-- The remark in the place of an unsupported statement. -/
def unsupportedNote (text : String) : String :=
  "UNSUPPORTED: " ++ String.ofList (keepOpen (stripMarks text).toList)

end Js

namespace Emit

open Js (Strength)

/-- A call of a helper with the code of the given arguments. -/
def helperCall (name : String) (args : List Expr) : Emit (List Js.Stmt) := do
  helper name
  pure [.expr (.call name (← exprs args))]

/-- The code of a command. -/
def command (c : Command) (args : List Expr) : Emit (List Js.Stmt) :=
  match c with
  | .stopEnd => do
    helper "end"
    pure [.retCall (.call "end" [])]
  | .stop => do
    helper "stop"
    pure [.retCall (.call "stop" [])]
  | .frame => do
    helper "frame"
    wait
    pure [.expr (.unary .await (.call "frame" []))]
  | .deg => do
    update fun t => { t with deg := true }
    pure []
  | .rad => do
    update fun t => { t with deg := false }
    pure []
  | .tag => do
    update fun t => { t with tag := true }
    helper "tag"
    pure [.expr (.call "tag" [.atom "true"])]
  | .tagOff => do
    update fun t => { t with tag := false }
    helper "tag"
    pure [.expr (.call "tag" [.atom "false"])]
  | c =>
    match c.helper? with
    | some name => helperCall name args
    | none => refuse (.unsupportedCommand c.name)

/-- The code of one element of a `PRINT` list. -/
def printItem : PrintItem → Emit (List Js.Expr)
  | .value e => do pure [← expr e]
  | .comma => pure [.directive "commaTab" []]
  | .tab e => do pure [.directive "tab" [← expr e]]
  | .spc e => do pure [.directive "spc" [← expr e]]
  | .formatted format value => do
    helper "dec$"
    let v ← expr value
    let f ← expr format
    pure [.call "dec$" [v, f]]
  | .semicolon => pure []
  | .nothing => pure []

/-- The code of a `PRINT` list. -/
def printItems : List PrintItem → Emit (List Js.Expr)
  | [] => pure []
  | i :: is => do
    let x ← printItem i
    let xs ← printItems is
    pure (x ++ xs)

/-- The code of a `PRINT`. -/
def print (stream : Option Expr) (items : List PrintItem) : Emit (List Js.Stmt) := do
  let name := if (← get).tag then "printTag" else "print"
  helper name
  match stream with
  | some e => if e.isScreen then pure () else warn (.ignoredStream e.text)
  | none => pure ()
  let args ← printItems items
  let newline := if items.getLast?.any PrintItem.continues then [] else [.atom "\"\\n\""]
  pure [.expr (.call name (args ++ newline))]

/-- How the variable of a `FOR` moves. -/
def step : Option Expr → Emit Js.Step
  | none => pure .one
  | some (.unary .neg (.number radix text _)) => do pure (.down (.atom (← number radix text)))
  | some e => do
    let x ← expr e
    pure (if e.isNumber then .up x else .signed x)

/-- The code of a `FOR`. -/
def forLoop (var : String) (start stop : Expr) (stride : Option Expr) : Emit (List Js.Stmt) := do
  let v ← mention var .number
  let first ← expr start
  let last := compared (← expr stop)
  let stride ← step stride
  let _ ← indentBy 1
  pure [.forLoop v first last stride]

/-- Mentions the variables of a list. -/
def mentionAll (storage : Storage) : List String → Emit (List String)
  | [] => pure []
  | v :: vs => do
    let x ← mention v storage
    let xs ← mentionAll storage vs
    pure (x :: xs)

/-- Ends so many loops. -/
def closeLoops : Nat → Emit (List Js.Stmt)
  | 0 => pure []
  | n + 1 => do
    let _ ← indentBy (-1)
    let rest ← closeLoops n
    pure (.close :: rest)

/-- The literal of a data item. -/
def dataItem : DataItem → Emit String
  | .text value => pure (Js.quote value)
  | .number radix text => number radix text

/-- The literals of data items. -/
def dataItems : List DataItem → Emit (List String)
  | [] => pure []
  | i :: is => do
    let x ← dataItem i
    let xs ← dataItems is
    pure (x :: xs)

/-- The code that reads a data item into each target. -/
def reads : List Expr → Emit (List Js.Stmt)
  | [] => pure []
  | e :: es => do
    let x ← target e
    let xs ← reads es
    pure (.assign x (.call "read" []) :: xs)

/-- The code that makes each array. -/
def dims : List Expr → Emit (List Js.Stmt)
  | [] => pure []
  | .index name sizes :: es => do
    let ns ← exprs sizes
    let array ← mention name .array
    let fill := if Ty.ofName name = .string then [Js.Expr.atom "\"\""] else []
    let rest ← dims es
    pure (.assign (.atom array) (.call "dim" (.array ns :: fill)) :: rest)
  | _ :: _ => broken .outOfRange

/-- The code that asks for a value of each target; the first has a prompt of its own. -/
def inputs (prompt : String) : List Expr → Emit (List Js.Stmt)
  | [] => pure []
  | e :: es => do
    let x ← target e
    let isNumber := if e.type = .string then "false" else "true"
    let call := Js.Expr.call "input" [.atom (Js.quote prompt), .atom isNumber]
    let rest ← inputs "? " es
    pure (.assign x (.unary .await call) :: rest)

/-- The code of the arguments of an external command: values, and places to write to. -/
def rsxArgs : List RsxArg → Emit (List Js.Expr × List Js.Expr)
  | [] => pure ([], [])
  | a :: as =>
    if a.out then do
      let x ← target a.expr
      let r ← rsxArgs as
      pure (r.1, x :: r.2)
    else do
      let x ← expr a.expr
      let r ← rsxArgs as
      pure (x :: r.1, r.2)

/-- The code of an external command. -/
def rsx (name : String) (args : List RsxArg) : Emit (List Js.Stmt) := do
  helper "rsx"
  wait
  let (ins, outs) ← rsxArgs args
  let call := Js.Expr.unary .await (.call "rsx" [.atom (Js.quote name), .array ins])
  pure [if outs.isEmpty then .expr call else .assign (.array outs) call]

/-- The code of a function's body, and whether it waits. The line that holds the
definition does not wait for it. -/
def fnBody (body : Expr) : Emit (Js.Expr × Bool) := fun t =>
  let (r, after) := (expr body).run { t.beginBody with waits := false }
  (r.map fun x => (x, after.waits), { after.endDefinition with waits := t.waits })

/-- The code of a function definition. -/
def defFn (name : String) (params : List String) (body : Expr) : Emit (List Js.Stmt) := do
  let id := Js.identifier name
  update Tables.beginParams
  let ps ← mentionAll .number params
  let (code, waits) ← fnBody body
  if waits then update fun t => { t with asyncFns := t.asyncFns ++ [id] }
  pure [.arrow id waits ps code]

/-- The code of `AFTER` and `EVERY`. -/
def timer (name : String) (interval : Expr) (which : Option Expr) (label : String) :
    Emit (List Js.Stmt) := do
  let f := Text.lower name
  helper f
  wait
  let i ← expr interval
  let w ←
    match which with
    | some e => expr e
    | none => pure (.atom "0")
  let s ← site .reference [label] ""
  pure [.expr (.unary .await (.call f [i, w, .site s]))]

/-- The code of a branch of an `IF`, after which as many loops have to be open as
before. -/
def inBranch {α : Type} (m : Emit α) : Emit α := do
  let depth ← indentBy 1
  let code ← m
  if (← get).indent ≠ depth then refuse .openInBranch
  let _ ← indentBy (-1)
  pure code

mutual

/-- The code of a statement. -/
def stmt : Stmt → Emit (List Js.Stmt)
  | .assign place value => do
    let x ← target place
    let v ← expr value
    pure [.assign x (if place.isInteger then math "round" [v] else v)]
  | .print stream items => print stream items
  | .write _ args => helperCall "write" args
  | .command c args => command c args
  | .graphics name x y pen => helperCall (Text.lower name) (x :: y :: pen.toList)
  | .forLoop var start stop stride => forLoop var start stop stride
  | .next vars => do
    let _ ← mentionAll .number vars
    closeLoops (max 1 vars.length)
  | .whileLoop cond => do
    let c ← condition cond
    let _ ← indentBy 1
    pure [.whileLoop c]
  | .wend => closeLoops 1
  | .branch cond yes no => do
    let c ← condition cond
    let y ← inBranch (stmts yes)
    let n ← alternative no
    pure [.branch c y n]
  | .gosub label => do pure [.expr (.site (← site .direct [label] ""))]
  | .ret => do
    let t ← get
    if t.openSub.isNone ∧ t.indent = 0 then warn .strayReturn
    pure [.ret]
  | .onGosub selector labels => do
    let s := compared (← expr selector)
    pure [.expr (.selected (← site .indexed labels s.text) s)]
  | .data items => do
    let literals ← dataItems items
    update fun t => t.addData literals
    pure []
  | .read targets => do
    helper "read"
    reads targets
  | .restore label => do
    helper "restore"
    pure [.expr (.call "restore" (label.toList.map .atom))]
  | .dim arrays => do
    helper "dim"
    dims arrays
  | .erase names => do
    let arrays ← mentionAll .array names
    pure (arrays.map fun a => .assign (.atom a) (.array []))
  | .defFn name params body => defFn name params body
  | .input prompt question targets => do
    helper "input"
    wait
    inputs (if question then prompt ++ "? " else prompt) targets
  | .timer name interval which label => timer name interval which label
  | .rsx name args => rsx name args
  | .comment text => pure [.comment (Js.stripMarks (Text.trim text))]
  | .unsupported _ text _ => do
    warn (.unsupported text)
    pure [.note (Js.unsupportedNote text)]
  | .missing => refuse .noStatement

/-- The code of a list of statements. -/
def stmts : List Stmt → Emit (List Js.Stmt)
  | [] => pure []
  | s :: ss => do
    let x ← stmt s
    let xs ← stmts ss
    pure (x ++ xs)

/-- The code of an `ELSE`, if there is one. -/
def alternative : Option (List Stmt) → Emit (Option (List Js.Stmt))
  | none => pure none
  | some ss => do pure (some (← inBranch (stmts ss)))

end

end Emit

end Locomotive
