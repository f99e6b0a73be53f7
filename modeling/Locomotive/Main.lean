import Locomotive.CommandLine
import Locomotive.Console
import Locomotive.Text.Decode

/-!
# The program

The command line on the system it runs on.
-/

namespace Locomotive

/-- Why a file cannot be used, from the error of the system. -/
def FileError.ofSystem : IO.Error → FileError
  | .noFileOrDirectory _ _ _ => .missing
  | .inappropriateType _ code _ => if code = 21 then .isDirectory else .notDirectory
  | .permissionDenied _ _ _ => .denied
  | e => .other (toString e)

/-- The text of some bytes. -/
def textOfBytes (bytes : ByteArray) : String := String.ofList (Text.decode bytes.toList)

/-- The operations of the system. -/
def systemHost : Host IO where
  read path := do
    try
      pure (.ok (textOfBytes (← IO.FS.readBinFile path)))
    catch e => pure (.error (FileError.ofSystem e))
  write path text := do
    try
      IO.FS.writeFile path text
      pure (.ok ())
    catch e => pure (.error (FileError.ofSystem e))
  out := IO.print
  err := IO.eprint

/-- The dialogue with someone at the terminal. -/
partial def talk (input : IO.FS.Stream) (strict : Bool) (c : Console) : IO Console := do
  IO.print Console.prompt
  (← IO.getStdout).flush
  let line ← input.getLine
  if line.isEmpty then
    IO.println ""
    pure c
  else
    let text := ((Text.inputLines line.toList).head?.map String.ofList).getD ""
    let (c, quit) ← c.step systemHost strict text
    if quit then pure c else talk input strict c

/-- A whole dialogue. -/
def dialogue (input : IO.FS.Stream) (s : Settings) : IO Nat := do
  let c ← Console.start systemHost s.history
  let c ← talk input s.strict c
  c.finish systemHost s.history
  pure 0

end Locomotive

/-- Runs the command line. -/
def main (args : List String) : IO UInt32 := do
  let input ← IO.getStdin
  let all : IO String := do pure (Locomotive.textOfBytes (← input.readBinToEnd))
  let dialogue := if ← input.isTty then some (Locomotive.dialogue input) else none
  let here := (← IO.currentDir).toString
  let code ← Locomotive.CommandLine.run Locomotive.systemHost here args all dialogue
  pure code.toUInt32
