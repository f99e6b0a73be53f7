import Locomotive.Expr
import Locomotive.Text.Case
import Locomotive.Text.Quoted

/-!
# Literals of the generated program

A string literal escapes everything that could end it or be taken for something else:
quotes, backslashes, control characters, line separators, and the private-use area,
from which the marks of unresolved calls are taken. A number is written as in the source
except for leading zeros, which JavaScript would read as octal.
-/

namespace Locomotive.Js

/-- A character that is escaped by its code point with four digits. -/
def needsEscape (c : Char) : Bool :=
  let n := c.toNat
  n < 0x20 || n == 0x7F || (0xE000 ≤ n && n ≤ 0xF8FF) || n == 0x2028 || n == 0x2029

/-- One character of a string literal. -/
def quoteChar (c : Char) : List Char :=
  if c == '"' || c == '\\' then ['\\', c]
  else if c == '\n' then ['\\', 'n']
  else if c == '\r' then ['\\', 'r']
  else if c == '\t' then ['\\', 't']
  else if needsEscape c then '\\' :: 'u' :: Text.hexDigits 4 c.toNat
  else if 0xFFFF < c.toNat then '\\' :: 'u' :: '\x7b' :: Nat.toDigits 16 c.toNat ++ ['\x7d']
  else [c]

/-- The string literal of a text. -/
def quote (s : String) : String :=
  String.ofList ('"' :: s.toList.flatMap quoteChar ++ ['"'])

/-- A decimal number starts with a zero before another digit of its whole part. -/
def looksOctal (cs : List Char) : Bool :=
  let whole := cs.takeWhile fun c => c != '.' && c != 'e' && c != 'E'
  whole.length > 1 && whole.head? == some '0'

/-- A number without its leading zeros, of which one stays if no digit would follow. -/
def dropLeadingZeros (cs : List Char) : List Char :=
  let rest := cs.dropWhile (· == '0')
  if rest.head?.any Char.isDigit then rest else '0' :: rest

/-- The literal of an unsigned number. -/
def unsignedLiteral (radix : Radix) (cs : List Char) : String :=
  match radix with
  | .hex => "0x" ++ Text.lower (String.ofList cs)
  | .binary => "0b" ++ String.ofList cs
  | .decimal => String.ofList (if looksOctal cs then dropLeadingZeros cs else cs)

/-- The sign of a number and what follows it. -/
def splitSign (text : String) : String × List Char :=
  match text.toList with
  | '-' :: cs => ("-", cs)
  | cs => ("", cs)

/-- The literal of a number as written in the source. -/
def numberLiteral (radix : Radix) (text : String) : String :=
  (splitSign text).1 ++ unsignedLiteral radix (splitSign text).2

/-- The number as written and as it is used instead, if it looks octal. -/
def octal? (radix : Radix) (text : String) : Option (String × String) :=
  let cs := (splitSign text).2
  if radix = .decimal ∧ looksOctal cs then
    some (String.ofList cs, String.ofList (dropLeadingZeros cs))
  else none

end Locomotive.Js
