import Locomotive.CommandLine.Flags
import Locomotive.CommandLine.Settings
import Locomotive.Host
import Locomotive.Path

/-!
# The command line

The compiler as a command: it compiles a file, or the standard input, and writes the
program to a file or to the standard output. A settings file gives defaults, which flags
override.

* `CommandLine.run`: the whole command, with its exit code.
-/

namespace Locomotive.CommandLine

variable {m : Type → Type} [Monad m]

/-- The settings that hold for the given flags. -/
def settings (h : Host m) (f : Flags) : m (Except String Settings) := do
  if f.config = "" then pure (.ok { strict := f.strict.getD false })
  else
    match ← h.read f.config with
    | .ok text =>
      let s := Settings.ofText text
      pure (.ok { s with strict := f.strict.getD s.strict })
    | .error e =>
      pure (.error ("failed to load config " ++ Text.quoted f.config ++ ": " ++
        e.reading f.config ++ "\n"))

/-- Compiles the file that the flags name. -/
def compileFile (h : Host m) (workingDir : String) (f : Flags) (s : Settings) : m Nat := do
  let (full, outDir) := Path.sourcePaths workingDir.toList f.input.toList s.outDir.toList
  let path := String.ofList full
  match ← h.read path with
  | .error e => do
    h.err ("failed to read input file " ++ Text.quoted path ++ ": " ++ e.reading path ++ "\n")
    pure 1
  | .ok source =>
    h.deliver s.strict source
      (if f.output = "" then String.ofList (Path.outputPath full outDir) else f.output)

/-- Runs the command with the given arguments. Without a file to compile it starts a
dialogue, if there is someone to talk to, or else compiles the standard input. -/
def run (h : Host m) (workingDir : String) (args : List String) (input : m String)
    (dialogue : Option (Settings → m Nat)) : m Nat := do
  match Flags.read {} args with
  | .error e => do
    h.err (e.text ++ "\n")
    pure 2
  | .ok f =>
    match ← settings h f with
    | .error message => do
      h.err message
      pure 1
    | .ok s =>
      if f.input = "" then
        match dialogue with
        | some talk => talk s
        | none => do
          h.deliver s.strict (← input) (if f.output = "" then "-" else f.output)
      else compileFile h workingDir f s

end Locomotive.CommandLine
