import Locomotive.Emit
import Locomotive.Js.Expr

/-!
# The tables, kept side by side

The tables of a compilation as separate books: one map holds what a variable is and how often it is used, another
one where it is used, and a list holds the order of all variables. The open subroutine is a place in the list of
labels, the label that variables are counted for stands elsewhere, and so do the place of the last label and the
place of each label by its name. Nothing but the order of the single entries keeps these books in step.

An entry may be refused halfway. What has been entered by then stays.

* `Books`: the books.
* `Books.Keep`: making entries, one after the other.
* `Action.keep`, `Action.emit`: what can be done, to the books and to the tables.
* `Books.tables`: the tables that the books show.
-/

namespace Locomotive

/-- What is known of a variable, besides where it is used. -/
structure Books.Entry where
  storage : Storage
  count : Nat
  deriving DecidableEq, Repr

/-- Where names stand with respect to a function definition. -/
inductive Books.Status where
  | outside
  | collecting
  | body
  deriving DecidableEq, Repr

/-- **The tables as separate books.** -/
structure Books where
  indent : Int := 0
  /-- The entries of the variables. -/
  entries : String → Option Books.Entry := fun _ => none
  /-- The variables in the order of their first reference. -/
  order : List String := []
  /-- How often each variable is used in each subroutine. -/
  scopes : String → Option Tally := fun _ => none
  labels : List Label := []
  /-- The place of each label in the list of labels; of equal ones the last. -/
  places : String → Option Nat := fun _ => none
  gosubs : Tally := {}
  restores : Tally := {}
  /-- The label that variables are counted for, empty outside of subroutines. -/
  scope : String := ""
  /-- The place of the label of the open subroutine. -/
  openPlace : Option Nat := none
  /-- How many loops were open at its label. -/
  openIndent : Int := 0
  /-- The place of the label that was defined last. -/
  lastPlace : Option Nat := none
  data : List String := []
  restoreMap : List (String × Nat) := []
  helpers : Tally := {}
  deg : Bool := false
  tag : Bool := false
  status : Books.Status := .outside
  /-- The parameters of the function definition. -/
  params : List String := []
  asyncFns : List String := []
  callSites : List CallSite := []
  lineIndex : Int := 0
  lineNumber : Int := 0
  waits : Bool := false
  warnings : List Warning := []

namespace Books

/-- A map with another value for one key. -/
def set {α : Type} (m : String → Option α) (key : String) (value : α) : String → Option α :=
  fun k => if k = key then some value else m k

/-- **Entries one after the other.** The entries before a refusal stay. -/
abbrev Keep := ExceptT Fault (StateM Books)

/-- What becomes of the entries, and the books after them. -/
def Keep.apply {α : Type} (m : Keep α) (b : Books) : Except Fault α × Books := m.run b

/-- Something that has to be in the books. -/
def look {α : Type} (f : Books → Option α) : Keep α := do
  match f (← get) with
  | some a => pure a
  | none => throw .outOfRange

/-- A warning about the line being compiled. -/
def warn (r : Remark) : Keep Unit := modify fun b => { b with warnings := b.warnings ++ [⟨b.lineNumber, r⟩] }

/-- Opens or closes loops, and gives the new depth. -/
def indentBy (delta : Int) : Keep Int := do
  modify fun b => { b with indent := b.indent + delta }
  let b ← get
  if b.indent < 0 then throw (.nesting b.lineNumber b.indent)
  pure b.indent

/-- A label stands at the line with the given index. A target of a `GOSUB` opens a subroutine. -/
def define (label : String) (line : Int) : Keep Unit := do
  let b ← get
  if b.labels.getLast?.any fun l => l.first ≥ line then throw (.labelOrder label)
  modify fun b => { b with labels := b.labels ++ [⟨label, line, none, none⟩] }
  modify fun b => { b with places := set b.places label (b.labels.length - 1) }
  modify fun b => { b with lastPlace := some (b.labels.length - 1) }
  if b.gosubs.has label then
    if let some place := b.openPlace then
      let l ← look fun b => b.labels[place]?
      warn (.unfinishedSubroutine l.name label)
    modify fun b => { b with openPlace := some (b.labels.length - 1) }
    modify fun b => { b with openIndent := b.indent }
    modify fun b => { b with scope := label }

/-- A `RETURN` ends the open subroutine, unless it stands in a loop that was opened after the label. -/
def close (line : Int) : Keep Unit := do
  let b ← get
  if let some place := b.openPlace then
    let l ← look fun b => b.labels[place]?
    if b.indent ≠ b.openIndent then warn (.returnInBlock l.name)
    else
      modify fun b => { b with labels := b.labels.modify place fun l => { l with last := some line } }
      modify fun b => { b with openPlace := none }
      modify fun b => { b with scope := "" }

/-- A variable of the generated program is used. -/
def count (name : String) (storage : Storage) : Keep Unit := do
  match (← get).entries name with
  | none =>
    modify fun b => { b with entries := set b.entries name ⟨storage, 0⟩ }
    modify fun b => { b with order := b.order ++ [name] }
    modify fun b => { b with scopes := set b.scopes name {} }
  | some e =>
    if e.storage ≠ storage then
      warn (.mixedStorage name e.storage storage)
      modify fun b => { b with entries := set b.entries name { e with storage := storage } }
  let e ← look fun b => b.entries name
  modify fun b => { b with entries := set b.entries name { e with count := e.count + 1 } }
  let uses ← look fun b => b.scopes name
  modify fun b => { b with scopes := set b.scopes name (uses.add b.scope) }

/-- A name of the source is used for a variable. Parameters of a function definition are not counted. -/
def mention (name : String) (storage : Storage) : Keep String := do
  let id := Js.identifier name
  let b ← get
  match b.status with
  | .collecting => modify fun b => { b with params := b.params ++ [id] }
  | .body => if !b.params.contains id then count id storage
  | .outside => count id storage
  pure id

/-- Data items follow. The last label gets its data index if it has none. -/
def addData (literals : List String) : Keep Unit := do
  if let some place := (← get).lastPlace then
    let l ← look fun b => b.labels[place]?
    if l.dataIndex.isNone then
      modify fun b => { b with labels := b.labels.modify place fun l => { l with dataIndex := some b.data.length } }
  modify fun b => { b with data := b.data ++ literals }

/-- The data index of a label is noted, in the place of an earlier one. -/
def setRestore (label : String) (index : Nat) : Keep Unit :=
  modify fun b => { b with restoreMap := b.restoreMap.filter (fun e => e.1 != label) ++ [(label, index)] }

/-- The data index of a `RESTORE` target is noted. -/
def resolveRestore (label : String) : Keep Unit := do
  match (← get).places label with
  | some place =>
    let b ← get
    setRestore label (((b.labels.drop place).findSome? Label.dataIndex).getD 0)
  | none =>
    modify fun b => { b with lineNumber := 0 }
    warn (.noRestoreTarget label)
    setRestore label 0

/-- The data indices of all `RESTORE` targets are noted. -/
def resolveRestores : Keep Unit := do
  (Text.sorted (← get).restores.names).forM resolveRestore

/-- A variable of the generated program, put together. -/
def variableOf (b : Books) (name : String) : Variable where
  name := name
  storage := ((b.entries name).map Entry.storage).getD .number
  count := ((b.entries name).map Entry.count).getD 0
  scopes := (b.scopes name).getD {}

/-- **The tables that the books show.** -/
def tables (b : Books) : Tables where
  indent := b.indent
  vars := b.order.map b.variableOf
  labels := b.labels
  gosubs := b.gosubs
  restores := b.restores
  openSub := b.openPlace.map fun place => ⟨place, b.scope, b.openIndent⟩
  data := b.data
  restoreMap := b.restoreMap
  helpers := b.helpers
  deg := b.deg
  tag := b.tag
  binding :=
    match b.status with
    | .outside => .outside
    | .collecting => .collecting b.params
    | .body => .body b.params
  asyncFns := b.asyncFns
  callSites := b.callSites
  lineIndex := b.lineIndex
  lineNumber := b.lineNumber
  waits := b.waits
  warnings := b.warnings

end Books

/-- Something that is done to the tables. -/
inductive Action where
  | reset
  | beginLine (index number : Int)
  | wait
  | indentBy (delta : Int)
  | define (label : String) (line : Int)
  | use (label : String) (how : LabelUse)
  | close (line : Int)
  | mention (name : String) (storage : Storage)
  | beginParams
  | beginBody
  | endDefinition
  | call (helper : String)
  | addData (literals : List String)
  | resolveRestores
  | addSite (kind : CallKind) (labels : List String) (selector : String)
  | setDeg (on : Bool)
  | setTag (on : Bool)
  | warn (text : String)
  deriving DecidableEq, Repr

/-- What an action answers. -/
inductive Answer where
  | nothing
  | number (n : Int)
  | text (s : String)
  deriving DecidableEq, Repr

namespace Action

/-- **The action, done to the books.** -/
def keep : Action → Books.Keep Answer
  | reset => do set ({} : Books); pure .nothing
  | beginLine index number => do
    modify fun b => { b with lineIndex := index, lineNumber := number, waits := false }
    pure .nothing
  | wait => do modify fun b => { b with waits := true }; pure .nothing
  | indentBy delta => do pure (.number (← Books.indentBy delta))
  | define label line => do Books.define label line; pure .nothing
  | use label .gosub => do modify fun b => { b with gosubs := b.gosubs.add label }; pure .nothing
  | use label .restore => do modify fun b => { b with restores := b.restores.add label }; pure .nothing
  | close line => do Books.close line; pure .nothing
  | mention name storage => do pure (.text (← Books.mention name storage))
  | beginParams => do modify fun b => { b with status := .collecting, params := [] }; pure .nothing
  | beginBody => do modify fun b => { b with status := .body }; pure .nothing
  | endDefinition => do modify fun b => { b with status := .outside, params := [] }; pure .nothing
  | call helper => do
    modify fun b => { b with helpers := b.helpers.add helper }
    pure (.number ((← get).helpers.count helper))
  | addData literals => do Books.addData literals; pure .nothing
  | resolveRestores => do Books.resolveRestores; pure .nothing
  | addSite kind labels selector => do
    modify fun b => { b with callSites := b.callSites ++ [⟨kind, labels, selector, b.lineIndex, b.lineNumber⟩] }
    pure (.text (Js.siteMark ((← get).callSites.length - 1)))
  | setDeg on => do modify fun b => { b with deg := on }; pure .nothing
  | setTag on => do modify fun b => { b with tag := on }; pure .nothing
  | warn text => do Books.warn (.other text); pure .nothing

/-- **The action, done to the tables.** -/
def emit : Action → Emit Answer
  | reset => do set ({} : Tables); pure .nothing
  | beginLine index number => do Emit.update fun t => t.beginLine index number; pure .nothing
  | wait => do Emit.wait; pure .nothing
  | indentBy delta => do pure (.number (← Emit.indentBy delta))
  | define label line => do Emit.define label line; pure .nothing
  | use label how => do Emit.update fun t => t.use label how; pure .nothing
  | close line => do Emit.update fun t => t.close line; pure .nothing
  | mention name storage => do pure (.text (← Emit.mention name storage))
  | beginParams => do Emit.update Tables.beginParams; pure .nothing
  | beginBody => do Emit.update Tables.beginBody; pure .nothing
  | endDefinition => do Emit.update Tables.endDefinition; pure .nothing
  | call helper => do Emit.helper helper; pure (.number ((← get).helpers.count helper))
  | addData literals => do Emit.update fun t => t.addData literals; pure .nothing
  | resolveRestores => do Emit.update Tables.resolveRestores; pure .nothing
  | addSite kind labels selector => do pure (.text (Js.siteMark (← Emit.site kind labels selector)))
  | setDeg on => do Emit.update fun t => { t with deg := on }; pure .nothing
  | setTag on => do Emit.update fun t => { t with tag := on }; pure .nothing
  | warn text => do Emit.warn (.other text); pure .nothing

end Action

end Locomotive
