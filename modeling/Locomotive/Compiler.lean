import Locomotive.Emit.Program
import Locomotive.Program.Parse
import Locomotive.Token.Scan

/-!
# The compiler

A source text is scanned, read as a program, and turned into a JavaScript program. The
first stage that fails ends the compilation. Warnings and tables are kept in any case.

* `compile`: the compilation of a source text.
* `Compilation.text`: the generated program, or the message of the failure.
-/

namespace Locomotive

/-- Why a source text cannot be compiled. -/
inductive CompileError where
  /-- A character or literal that no token has, on the given line. -/
  | scan (line : Nat) (why : Token.ScanError)
  /-- The tokens are no program. -/
  | parse (why : Parse.Failure)
  /-- No code can be generated for the program. -/
  | generate (why : Failure)
  deriving DecidableEq, Repr

namespace CompileError

/-- The message of an error in the given source text. -/
def message (source : List Char) : CompileError → String
  | scan line why => why.message line
  | parse (.rejected blamed complaint _) =>
    Parse.message (Source.lines (Source.normalize source)) blamed complaint
  | parse (.outsideSource _) => Fault.outOfRange.text
  | generate why => why.text

/-- The message with the stage that failed. -/
def report (source : List Char) : CompileError → String
  | generate why => "ERROR: Parsing evaluator failed: " ++ message source (generate why)
  | e => "ERROR: Parsing failed: " ++ message source e

end CompileError

/-- The outcome of a compilation. -/
structure Compilation where
  result : Except CompileError String
  /-- The warnings of scanning. -/
  scanWarnings : List String
  /-- The tables, as filled up to a failure. -/
  tables : Tables

namespace Compilation

/-- All warnings, in order. -/
def warnings (c : Compilation) : List String := c.scanWarnings ++ c.tables.warningTexts

/-- The generated program, or the message of the failure. -/
def text (c : Compilation) (source : List Char) : String :=
  match c.result with
  | .ok program => program
  | .error e => e.report source

end Compilation

/-- Compiles a source text. Strict compilation wants ascending labels and no unsupported
statements. -/
def compile (strict : Bool) (source : List Char) : Compilation :=
  let s := Token.scan source
  match s.error with
  | some (line, why) => ⟨.error (.scan line why), s.warningTexts, {}⟩
  | none =>
    match Program.parse strict s.tokens source with
    | .error why => ⟨.error (.parse why), s.warningTexts, {}⟩
    | .ok p =>
      let (result, tables) := p.generate
      ⟨result.mapError .generate, s.warningTexts, tables⟩

end Locomotive
