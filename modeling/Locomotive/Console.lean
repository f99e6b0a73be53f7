import Locomotive.Console.Buffer
import Locomotive.Host
import Locomotive.Text

/-!
# The console

A dialogue for editing and compiling a program. Numbered lines go to the buffer; a line
that starts with a colon is a command. Lines that are not blank are kept in a history,
which can be stored in a file.

* `Console.Command`: the commands.
* `Console.step`: what a line does.
* `Console.run`: the dialogue over the lines of an input.
-/

namespace Locomotive

/-- The state of a dialogue. -/
structure Console where
  buffer : Buffer := {}
  history : List String := []

namespace Console

/-- What is typed after the prompt to give an order. -/
inductive Command where
  | quit
  | list
  | new
  | compile
  /-- Compile to a file, if one is named. -/
  | save (path : Option String)
  | help
  | unknown
  deriving DecidableEq, Repr

/-- The command of a line with the given words. -/
def Command.ofWords (word : String) (args : List String) : Command :=
  match Text.lower word with
  | ":quit" => quit
  | ":q" => quit
  | ":list" => list
  | ":new" => new
  | ":compile" => compile
  | ":save" => save args.head?
  | ":help" => help
  | _ => unknown

/-- The number of entries that a history keeps. -/
def historyLimit : Nat := 1000

/-- The last entries of a history. -/
def recent (history : List String) : List String :=
  history.drop (history.length - historyLimit)

/-- The history with one more entry, unless it is the same as the last. -/
def remember (history : List String) (line : String) : List String :=
  if history.getLast? = some line then history else recent (history ++ [line])

/-- The history that a file holds. -/
def historyOf (text : String) : List String :=
  recent ((Text.inputLines text.toList).map String.ofList)

/-- The text of a history file. -/
def historyText (history : List String) : String :=
  String.join (history.map fun l => l ++ "\n")

variable {m : Type → Type} [Monad m]

/-- What is shown first. -/
def banner : String :=
  "locobasic: type numbered BASIC lines, then :compile. :help lists commands.\n"

/-- What is shown before each line. -/
def prompt : String := "] "

/-- Obeys a command: the buffer after it, and whether the dialogue ends. -/
def Command.run (h : Host m) (strict : Bool) (b : Buffer) : Command → m (Buffer × Bool)
  | quit => pure (b, true)
  | list => do
    h.out b.source
    pure (b, false)
  | new => pure ({}, false)
  | compile => do
    let _ ← h.deliver strict b.source "-"
    pure (b, false)
  | save none => do
    h.out "usage: :save <file.js>\n"
    pure (b, false)
  | save (some path) => do
    let _ ← h.deliver strict b.source path
    pure (b, false)
  | help => do
    h.out ":list  :new  :compile  :save <file.js>  :quit\n"
    pure (b, false)
  | unknown => do
    h.out "unknown command. Type :help for a list.\n"
    pure (b, false)

/-- What a line does to the dialogue, and whether it ends. -/
def step (h : Host m) (strict : Bool) (c : Console) (line : String) : m (Console × Bool) :=
  match Text.words line with
  | [] => pure (c, false)
  | word :: args => do
    let c := { c with history := remember c.history line }
    if word.toList.head? = some ':' then do
      let (b, quit) ← (Command.ofWords word args).run h strict c.buffer
      pure ({ c with buffer := b }, quit)
    else
      match c.buffer.enter? line with
      | some b => pure ({ c with buffer := b }, false)
      | none => do
        h.out "line number expected\n"
        pure (c, false)

/-- The dialogue over the lines of an input. -/
def lines (h : Host m) (strict : Bool) (c : Console) : List String → m Console
  | [] => do
    h.out (prompt ++ "\n")
    pure c
  | l :: ls => do
    h.out prompt
    let (c, quit) ← c.step h strict l
    if quit then pure c else lines h strict c ls

/-- The start of a dialogue with the history of a file; no file has the empty name. -/
def start (h : Host m) (historyPath : String) : m Console := do
  h.out banner
  if historyPath = "" then pure {}
  else
    match ← h.read historyPath with
    | .ok text => pure { history := historyOf text }
    | .error _ => pure {}

/-- The end of a dialogue: the history goes to its file. -/
def finish (h : Host m) (historyPath : String) (c : Console) : m Unit := do
  if historyPath = "" then pure ()
  else
    let _ ← h.write historyPath (historyText c.history)
    pure ()

/-- A dialogue with the given input. -/
def run (h : Host m) (strict : Bool) (historyPath : String) (input : String) : m Unit := do
  let c ← start h historyPath
  let c ← c.lines h strict ((Text.inputLines input.toList).map String.ofList)
  c.finish h historyPath

end Console

end Locomotive
