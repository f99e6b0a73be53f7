import Locomotive.Js.Helper
import Locomotive.Text.Case
import Locomotive.Text

/-!
# Names in the generated program

A variable or function of the source keeps its name in lower case; the type marks `%`
and `!`, which JavaScript does not allow, become the letters `I` and `R`. A name that is
reserved, or taken by a helper, gets an underscore.
-/

namespace Locomotive.Js

/-- The names that a variable of the generated program cannot have. -/
def reservedNames : List String :=
  [
    "arguments", "async", "await", "break", "case", "catch", "class", "const", "continue",
    "debugger", "default", "delete", "do", "else", "enum", "eval", "export", "extends", "false",
    "finally", "for", "function", "if", "implements", "import", "in", "instanceof", "interface",
    "let", "new", "null", "package", "private", "protected", "public", "return", "static",
    "super", "switch", "this", "throw", "true", "try", "typeof", "undefined", "var", "void",
    "while", "with", "yield", "infinity", "nan", "math", "string", "object", "array", "number"
  ]

/-- The name cannot be given to a variable. -/
def isReserved (name : String) : Bool := reservedNames.contains name

/-- A name in lower case, with its type mark spelled as a letter. -/
def spelled (name : String) : String :=
  let n := Text.lower name
  match Text.last? n with
  | some '%' => Text.dropLast n ++ "I"
  | some '!' => Text.dropLast n ++ "R"
  | _ => n

/-- The identifier that stands for a name of the source. -/
def identifier (name : String) : String :=
  let n := spelled name
  if isReserved n || isHelper n then n ++ "_" else n

end Locomotive.Js
