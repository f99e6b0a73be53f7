import Locomotive.Emit.Site
import Locomotive.Subroutine

/-!
# The layout of the generated program

The program starts with the declarations of its variables and its data. The fragments of
the lines follow in order, those of a subroutine inside a function with the variables
that only it uses. The definitions of the helpers stand at the end.

* `bodyRows`: the rows of the fragments and of the functions around them.
* `Emit.assemble`: the text of the whole program.
-/

namespace Locomotive

/-- The code of one line of the source. -/
structure Fragment where
  /-- How many loops are open around the whole line. -/
  indent : Int
  /-- Its code; empty if the line has none. -/
  text : String
  waits : Bool
  deriving DecidableEq, Repr

/-- The declaration of a variable. -/
def Variable.declaration (v : Variable) : String :=
  match v.storage with
  | .number => v.name ++ " = 0"
  | .string => v.name ++ " = \"\""
  | .array => v.name ++ " = []"

/-- The label of the subroutine in which alone a variable is used. -/
def Variable.home? (v : Variable) (subs : List Subroutine) : Option String :=
  match v.scopes.names with
  | [label] => if label != "" && subs.any (fun s => s.label == label) then some label else none
  | _ => none

/-- The line that declares variables, if there are any. -/
def letText (vs : List Variable) : Option String :=
  if vs.isEmpty then none
  else some ("let " ++ ", ".intercalate (vs.map Variable.declaration) ++ ";")

/-- A row of the program. -/
structure Row where
  indent : Int
  text : String
  deriving DecidableEq, Repr

/-- The text of a row; it cannot be indented by less than nothing. -/
def Row.text? (r : Row) : Option String :=
  if r.indent < 0 then none
  else some (String.ofList (List.replicate r.indent.toNat '\t') ++ r.text ++ "\n")

/-- The row of a fragment, if it has code. -/
def Fragment.row? (extra : Int) (f : Fragment) : Option Row :=
  if f.text = "" then none else some ⟨f.indent + extra, f.text⟩

/-- The fragments at the indices from `start` up to but not with `stop`. -/
def stretch (frags : List Fragment) (start stop : Nat) : List Fragment :=
  (frags.drop start).take (stop - start)

/-- The row that opens the function of a subroutine. -/
def Subroutine.header (s : Subroutine) (isAsync : Bool) : String :=
  (if isAsync then "async " else "") ++ "function _" ++ s.label ++ "() \x7b"

/-- The rows of the fragments from index `next` on, and of the functions of the
subroutines, which are given in order. There is none if a subroutine starts or ends
outside of the program. -/
def bodyRows (vars : List Variable) (async : List String) (all : List Subroutine)
    (frags : List Fragment) : (next : Nat) → List Subroutine → Option (List Row)
  | next, [] => some ((frags.drop next).filterMap (Fragment.row? 0))
  | next, s :: subs => do
    let first := max next s.first.toNat
    let stop := max first (s.last + 1).toNat
    let indent := (← if s.first < 0 then none else frags[s.first.toNat]?).indent
    if frags.length < stop then none
    let locals := vars.filter fun v => v.home? all == some s.label
    let rest ← bodyRows vars async all frags stop subs
    pure ((stretch frags next first).filterMap (Fragment.row? 0) ++
      ⟨indent, s.header (async.contains s.label)⟩ ::
      (letText locals).toList.map (fun t => ⟨indent + 1, t⟩) ++
      (stretch frags first stop).filterMap (Fragment.row? 1) ++
      ⟨indent, "\x7d"⟩ :: rest)

namespace Tables

/-- The labels with a data index: those of the program in order, then the others. -/
def restoreLabels (t : Tables) : List String :=
  ((t.labels.map Label.name ++ Text.sorted (t.restoreMap.map Prod.fst)).filter fun l =>
    t.restoreMap.any fun e => e.1 == l).eraseDups

/-- The entries of the table of data indices. -/
def restoreEntries (t : Tables) : String :=
  ", ".intercalate (t.restoreLabels.map fun l =>
    Text.quoted l ++ ": " ++ toString ((t.restoreMap.lookup l).getD 0))

/-- The program reads data or has some. -/
def hasData (t : Tables) : Bool :=
  !t.data.isEmpty || t.helpers.has "read" || t.helpers.has "restore"

/-- The rows that hold the data. -/
def dataText (t : Tables) : String :=
  if t.hasData then
    "const _data = [" ++ ", ".intercalate t.data ++ "];\nconst _restoreMap = \x7b" ++
      t.restoreEntries ++ "\x7d;\nlet _dataPtr = 0;\n"
  else ""

/-- The definitions of the helpers that are called. -/
def helperText (t : Tables) : String :=
  if t.helpers.entries.isEmpty then ""
  else "\n" ++ String.join (t.helperNames.map fun n => Js.helperDefinition n ++ "\n")

/-- The declaration of the variables that no subroutine has for itself. -/
def globalText (t : Tables) : String :=
  match letText (t.vars.filter fun v => (v.home? t.subroutines).isNone) with
  | some text => text ++ "\n"
  | none => ""

/-- The labels of the asynchronous functions. -/
def async? (t : Tables) (frags : List Fragment) : Option (List String) :=
  asyncLabels? t.subroutines (frags.map Fragment.waits) t.callSites

/-- The text of the program, with marks for the references to subroutines. -/
def markedText? (t : Tables) (frags : List Fragment) (async : List String) : Option String := do
  let rows ← bodyRows t.vars async t.subroutines frags 0 t.subroutines
  let body ← rows.mapM Row.text?
  let text := t.globalText ++ t.dataText ++ String.join body ++ t.helperText
  pure (if text = "" then "\n" else text)

end Tables

namespace Emit

/-- The text of the program from the fragments of its lines. -/
def assemble (frags : List Fragment) : Emit String := do
  let t ← get
  match t.async? frags with
  | none => broken .outOfRange
  | some async =>
    match t.markedText? frags async with
    | none => broken .outOfRange
    | some text => resolve ⟨t.subroutines.map Subroutine.label, async⟩ text

end Emit

end Locomotive
