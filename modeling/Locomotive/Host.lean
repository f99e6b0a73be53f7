import Locomotive.Compiler

/-!
# Files and terminals

What the tools around the compiler need from the system they run on: files by name, and
two streams for text. Everything above is written for any system that has them.

* `Host`: the operations of a system.
* `Host.deliver`: compiles a source and puts the program where it belongs.
-/

namespace Locomotive

/-- Why a file cannot be used. -/
inductive FileError where
  | missing
  | notDirectory
  | isDirectory
  | denied
  | other (text : String)
  deriving DecidableEq, Repr

/-- The reason in words. -/
def FileError.reason : FileError → String
  | missing => "no such file or directory"
  | notDirectory => "not a directory"
  | isDirectory => "is a directory"
  | denied => "permission denied"
  | other text => text

/-- The message for a file that cannot be read. A directory can be opened but not read. -/
def FileError.reading (path : String) (e : FileError) : String :=
  (if e = .isDirectory then "read " else "open ") ++ path ++ ": " ++ e.reason

/-- The message for a file that cannot be written. -/
def FileError.writing (path : String) (e : FileError) : String :=
  "open " ++ path ++ ": " ++ e.reason

/-- The operations of a system. -/
structure Host (m : Type → Type) where
  /-- The text of a file. -/
  read : String → m (Except FileError String)
  /-- Makes a file with the given text. -/
  write : String → String → m (Except FileError Unit)
  /-- Shows a result. -/
  out : String → m Unit
  /-- Shows a message. -/
  err : String → m Unit

namespace Host

variable {m : Type → Type} [Monad m]

/-- Shows a list of warnings. -/
def warn (h : Host m) : List String → m Unit
  | [] => pure ()
  | w :: ws => do
    h.err ("locobasic: warning: " ++ w ++ "\n")
    h.warn ws

/-- The number of lines of a source text. -/
def lineCount (source : String) : Nat := source.toList.count '\n' + 1

/-- Compiles a source and writes the program to a file, or shows it if the path is `-`.
The result is the exit code. -/
def deliver (h : Host m) (strict : Bool) (source path : String) : m Nat := do
  let c := compile strict source.toList
  h.warn c.warnings
  match c.result with
  | .error e => do
    h.err (e.report source.toList ++ "\n")
    pure 1
  | .ok program =>
    if path = "-" then do
      h.out program
      pure 0
    else do
      match ← h.write path program with
      | .error e => do
        h.err ("failed to write output file " ++ Text.quoted path ++ ": " ++ e.writing path ++ "\n")
        pure 1
      | .ok _ => do
        h.err ("compiled " ++ toString (lineCount source) ++ " lines -> " ++ path ++ "\n")
        pure 0

end Host

end Locomotive
