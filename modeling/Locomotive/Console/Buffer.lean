import Locomotive.Text

/-!
# The program buffer

The program that is edited at the console: numbered lines in the order of their numbers.
Entering a line puts it in the place of an earlier one with its number; a number alone
takes the line out.

* `Buffer.enter?`: a line is entered.
* `Buffer.source`: the program text.
-/

namespace Locomotive

/-- Numbered lines, in ascending order. -/
structure Buffer where
  lines : List (Nat × String) := []
  deriving DecidableEq, Repr

namespace Buffer

/-- The lines with one put in its place. -/
def insert (label : Nat) (text : String) : List (Nat × String) → List (Nat × String)
  | [] => [(label, text)]
  | (l, t) :: rest =>
    if label < l then (label, text) :: (l, t) :: rest
    else if label = l then (label, text) :: rest
    else (l, t) :: insert label text rest

/-- The buffer with a line of the given number. -/
def put (b : Buffer) (label : Nat) (text : String) : Buffer := ⟨insert label text b.lines⟩

/-- The buffer without the line of the given number. -/
def erase (b : Buffer) (label : Nat) : Buffer := ⟨b.lines.filter fun l => l.1 != label⟩

/-- A line is entered. There is no result if it does not start with a number that fits
64 bits. -/
def enter? (b : Buffer) (line : String) : Option Buffer :=
  let cs := Text.trimChars line.toList
  match Text.integerOf? (cs.takeWhile Char.isDigit) with
  | none => none
  | some label =>
    if (Text.trimChars (cs.dropWhile Char.isDigit)).isEmpty then some (b.erase label.toNat)
    else some (b.put label.toNat (String.ofList cs))

/-- The program text. -/
def source (b : Buffer) : String := String.join (b.lines.map fun l => l.2 ++ "\n")

end Buffer

end Locomotive
