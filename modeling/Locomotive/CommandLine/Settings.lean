import Locomotive.Text

/-!
# Settings

Defaults for the command line, read from a file with lines `name: value`.
-/

namespace Locomotive

/-- Defaults for the command line. -/
structure Settings where
  strict : Bool := false
  /-- The directory for output; empty if it goes next to the source. -/
  outDir : String := ""
  /-- The history file of the console; empty if there is none. -/
  history : String := ""
  deriving DecidableEq, Repr

namespace Settings

/-- The settings with one of them changed; other names have no effect. -/
def set (s : Settings) (name value : String) : Settings :=
  match name with
  | "strict" => { s with strict := value == "true" }
  | "out_dir" => { s with outDir := value }
  | "history" => { s with history := value }
  | _ => s

/-- The settings with those of a line. -/
def readLine (s : Settings) (line : List Char) : Settings :=
  match line.dropWhile (· != ':') with
  | _ :: value =>
    let text (cs : List Char) := String.ofList (Text.trimChars cs)
    s.set (text (line.takeWhile (· != ':'))) (text value)
  | [] => s

/-- The settings of a file with the given text. -/
def ofText (text : String) : Settings := (Text.splitAt '\n' text.toList).foldl readLine {}

end Settings

end Locomotive
