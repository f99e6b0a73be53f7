import Locomotive.Tables
import Locomotive.Text

/-!
# The report on the tables

A listing of the variables, labels, data and helpers of a program for the reader.
-/

namespace Locomotive

/-- The line of a variable. -/
def Variable.report (v : Variable) : String :=
  let scopes := Text.sorted (v.scopes.names.map fun s => if s = "" then "<top>" else s)
  "  " ++ Text.padRight 20 v.name ++ "  Type: " ++ v.storage.name ++ " (Count: " ++
    toString v.count ++ ", Scopes: " ++ ",".intercalate scopes ++ ")\n"

namespace Label

/-- The index of the last line of a label's subroutine, or -1. -/
def lastIndex (l : Label) : Int := l.last.getD (-1)

/-- The data index of a label, or -1. -/
def dataPlace (l : Label) : Int := (l.dataIndex.map Int.ofNat).getD (-1)

/-- The line of a label that is referred to so many times. -/
def report (l : Label) (gosubs restores : Nat) : String :=
  "  " ++ Text.padRight 8 l.name ++ "  Lines: " ++ toString l.first ++ "-" ++
    toString l.lastIndex ++ " (Data: " ++ toString l.dataPlace ++ ", Gosub: " ++
    toString gosubs ++ ", Restore: " ++ toString restores ++ ")\n"

end Label

namespace Tables

/-- The report on the tables. -/
def report (t : Tables) : String :=
  let vars :=
    if t.vars.isEmpty then "Variables: (empty)\n"
    else "Variables:\n" ++ String.join (t.vars.map Variable.report)
  let labels :=
    if t.labels.isEmpty then ""
    else
      "Labels:\n" ++ String.join (t.labels.map fun l =>
        l.report (t.gosubs.count l.name) (t.restores.count l.name))
  let data := if t.data.isEmpty then "" else "Data: [" ++ ", ".intercalate t.data ++ "]\n"
  let helpers :=
    if t.helpers.entries.isEmpty then ""
    else "Helpers: " ++ ", ".intercalate t.helperNames ++ "\n"
  vars ++ labels ++ data ++ helpers

end Tables

end Locomotive
