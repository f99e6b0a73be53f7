import Locomotive.Diagnostic
import Locomotive.Js.Name
import Locomotive.Tally
import Locomotive.Text

/-!
# The tables of a compilation

What is known about a program while its lines are compiled: its variables and where they
are used, its labels and which of them are subroutines, its data, the references to
subroutines, and the helpers it calls. The lines have to be visited in order; the label
references of the whole program come first.

* `Tables.reference`: a variable is used.
* `Tables.define`, `Tables.close`: a label, and the end of the open subroutine.
* `Tables.indentBy`: loops are opened or closed.
* `Tables.resolveRestores`: the data index of each `RESTORE` target.
-/

namespace Locomotive

/-- A variable of the generated program. -/
structure Variable where
  name : String
  storage : Storage
  /-- How often it is referred to. -/
  count : Nat
  /-- How often it is referred to in each subroutine; the empty label stands for the
  program outside of them. -/
  scopes : Tally
  deriving DecidableEq, Repr

/-- A variable with one more reference, in the given scope. -/
def Variable.mention (v : Variable) (storage : Storage) (scope : String) : Variable :=
  { v with storage := storage, count := v.count + 1, scopes := v.scopes.add scope }

/-- A label of the program. -/
structure Label where
  name : String
  /-- The index of its line. -/
  first : Int
  /-- The index of the line with the `RETURN` that ends it as a subroutine. -/
  last : Option Int := none
  /-- The number of data items before the first `DATA` that follows it. -/
  dataIndex : Option Nat := none
  deriving DecidableEq, Repr

/-- The subroutine that has been entered and not ended. -/
structure OpenSub where
  /-- The index of its label. -/
  index : Nat
  label : String
  /-- How many loops were open at its label. -/
  indent : Int
  deriving DecidableEq, Repr

/-- How names are bound in a function definition. -/
inductive Binding where
  /-- Outside of a definition. -/
  | outside
  /-- Parameters are being collected. -/
  | collecting (params : List String)
  /-- The body sees the parameters. -/
  | body (params : List String)
  deriving DecidableEq, Repr

/-- The parameters of a binding. -/
def Binding.params : Binding → List String
  | outside => []
  | collecting ps => ps
  | body ps => ps

/-- How a reference to subroutines is used. -/
inductive CallKind where
  /-- One subroutine is called. -/
  | direct
  /-- One of several is called, by number. -/
  | indexed
  /-- One is named and called later. -/
  | reference
  | other (code : Int)
  deriving DecidableEq, Repr

/-- The number of a kind in listings. -/
def CallKind.code : CallKind → Int
  | direct => 0
  | indexed => 1
  | reference => 2
  | other code => code

/-- The kind with the given number. -/
def CallKind.ofCode : Int → CallKind
  | 0 => direct
  | 1 => indexed
  | 2 => reference
  | code => other code

/-- A reference to one or more subroutines. -/
structure CallSite where
  kind : CallKind
  labels : List String
  /-- The code of the number that selects a label. -/
  selector : String
  /-- The index of its line. -/
  line : Int
  /-- The line number for warnings. -/
  lineNumber : Int
  deriving DecidableEq, Repr

/-- How a label is referred to. -/
inductive LabelUse where
  | gosub
  | restore
  deriving DecidableEq, Repr

/-- What is known about a program. -/
structure Tables where
  /-- How many loops are open. -/
  indent : Int := 0
  /-- In the order of their first reference. -/
  vars : List Variable := []
  labels : List Label := []
  gosubs : Tally := {}
  restores : Tally := {}
  openSub : Option OpenSub := none
  /-- The literals of all data items. -/
  data : List String := []
  /-- The data index of each `RESTORE` target. -/
  restoreMap : List (String × Nat) := []
  helpers : Tally := {}
  /-- Angles are in degrees. -/
  deg : Bool := false
  /-- Text is printed at the graphics position. -/
  tag : Bool := false
  binding : Binding := .outside
  /-- The functions of the program that have to be awaited. -/
  asyncFns : List String := []
  callSites : List CallSite := []
  /-- The index of the line being compiled. -/
  lineIndex : Int := 0
  /-- Its number for warnings. -/
  lineNumber : Int := 0
  /-- The line waits for something. -/
  waits : Bool := false
  warnings : List Warning := []
  deriving DecidableEq, Repr

namespace Tables

/-- A warning about the line being compiled. -/
def warn (t : Tables) (r : Remark) : Tables :=
  { t with warnings := t.warnings ++ [⟨t.lineNumber, r⟩] }

/-- The texts of the warnings. -/
def warningTexts (t : Tables) : List String := t.warnings.map Warning.text

/-- The next line, at an index and with a number for warnings. -/
def beginLine (t : Tables) (index number : Int) : Tables :=
  { t with lineIndex := index, lineNumber := number, waits := false }

/-- The line waits for something. -/
def wait (t : Tables) : Tables := { t with waits := true }

/-- Opens or closes loops; the new depth is kept even if it is negative. -/
def indentBy (t : Tables) (delta : Int) : Except Fault Int × Tables :=
  let depth := t.indent + delta
  (if depth < 0 then .error (.nesting t.lineNumber depth) else .ok depth, { t with indent := depth })

/-- The indentation at the present depth. -/
def indentText? (t : Tables) : Option String :=
  if t.indent < 0 then none else some (String.ofList (List.replicate t.indent.toNat '\t'))

/-- A label is referred to. -/
def use (t : Tables) (label : String) : LabelUse → Tables
  | .gosub => { t with gosubs := t.gosubs.add label }
  | .restore => { t with restores := t.restores.add label }

/-- The label is the target of a `GOSUB` or of another subroutine reference. -/
def isTarget (t : Tables) (label : String) : Bool := t.gosubs.has label

/-- The label of the open subroutine, or the empty one. -/
def scope (t : Tables) : String := (t.openSub.map OpenSub.label).getD ""

/-- The place of a label in the list of labels; of equal ones the last. -/
def labelIndex? (t : Tables) (label : String) : Option Nat :=
  (t.labels.reverse.findIdx? fun l => l.name == label).map fun i => t.labels.length - 1 - i

/-- A label stands at the line with the given index. A target of a `GOSUB` opens a
subroutine. Labels have to come in the order of their lines. -/
def define (t : Tables) (label : String) (line : Int) : Except Fault Tables :=
  if t.labels.getLast?.any fun l => l.first ≥ line then .error (.labelOrder label)
  else
    let next := { t with labels := t.labels ++ [⟨label, line, none, none⟩] }
    if t.isTarget label then
      let next :=
        match t.openSub with
        | some s => next.warn (.unfinishedSubroutine s.label label)
        | none => next
      .ok { next with openSub := some ⟨t.labels.length, label, t.indent⟩ }
    else .ok next

/-- A `RETURN` on the line with the given index ends the open subroutine, unless it
stands in a loop that was opened after the label. -/
def close (t : Tables) (line : Int) : Tables :=
  match t.openSub with
  | none => t
  | some s =>
    if t.indent ≠ s.indent then t.warn (.returnInBlock s.label)
    else
      { t with
        labels := t.labels.modify s.index fun l => { l with last := some line },
        openSub := none }

/-- The variable is used with another kind of storage than before. -/
def storageBefore? (t : Tables) (name : String) (storage : Storage) : Option Storage :=
  ((t.vars.find? fun v => v.name == name).map Variable.storage).filter (· ≠ storage)

/-- A variable of the generated program is used. -/
def mention (t : Tables) (name : String) (storage : Storage) : Tables :=
  let warned :=
    match t.storageBefore? name storage with
    | some before => t.warn (.mixedStorage name before storage)
    | none => t
  if t.vars.any fun v => v.name == name then
    { warned with
      vars := t.vars.map fun v => if v.name = name then v.mention storage t.scope else v }
  else
    { warned with vars := t.vars ++ [⟨name, storage, 1, Tally.add {} t.scope⟩] }

/-- A name of the source is used for a variable: its identifier, and the tables with the
reference counted. Parameters of a function definition are not counted. -/
def reference (t : Tables) (name : String) (storage : Storage) : String × Tables :=
  let id := Js.identifier name
  match t.binding with
  | .collecting ps => (id, { t with binding := .collecting (ps ++ [id]) })
  | .body ps => (id, if ps.contains id then t else t.mention id storage)
  | .outside => (id, t.mention id storage)

/-- The variable is used only in the subroutine with the given label. -/
def isLocal (t : Tables) (name label : String) : Bool :=
  label != "" && (t.vars.find? fun v => v.name == name).any fun v => v.scopes.names == [label]

/-- The parameters of a function definition follow. -/
def beginParams (t : Tables) : Tables := { t with binding := .collecting [] }

/-- The body of a function definition follows. -/
def beginBody (t : Tables) : Tables := { t with binding := .body t.binding.params }

/-- The function definition has ended. -/
def endDefinition (t : Tables) : Tables := { t with binding := .outside }

/-- A helper is called. -/
def call (t : Tables) (helper : String) : Tables := { t with helpers := t.helpers.add helper }

/-- The helpers that are called, in order. -/
def helperNames (t : Tables) : List String := Text.sorted t.helpers.names

/-- Data items follow. The last label gets its data index if it has none. -/
def addData (t : Tables) (literals : List String) : Tables :=
  { t with
    labels := t.labels.modify (t.labels.length - 1) fun l =>
      { l with dataIndex := l.dataIndex.or (some t.data.length) },
    data := t.data ++ literals }

/-- The first data index at or after the label with the given place, else zero. -/
def dataFrom (t : Tables) (place : Nat) : Nat :=
  ((t.labels.drop place).findSome? Label.dataIndex).getD 0

/-- An entry of the data indices, in the place of an earlier one for the label. -/
def setRestore (t : Tables) (label : String) (index : Nat) : Tables :=
  { t with restoreMap := t.restoreMap.filter (fun e => e.1 != label) ++ [(label, index)] }

/-- The data index of a `RESTORE` target is noted. -/
def resolveRestore (t : Tables) (label : String) : Tables :=
  match t.labelIndex? label with
  | some place => t.setRestore label (t.dataFrom place)
  | none => (({ t with lineNumber := 0 }).warn (.noRestoreTarget label)).setRestore label 0

/-- The data indices of all `RESTORE` targets are noted. -/
def resolveRestores (t : Tables) : Tables :=
  (Text.sorted t.restores.names).foldl resolveRestore t

/-- A reference to subroutines on the line being compiled: its number and the tables. -/
def addSite (t : Tables) (kind : CallKind) (labels : List String) (selector : String) :
    Nat × Tables :=
  (t.callSites.length,
    { t with callSites := t.callSites ++ [⟨kind, labels, selector, t.lineIndex, t.lineNumber⟩] })

end Tables

end Locomotive
