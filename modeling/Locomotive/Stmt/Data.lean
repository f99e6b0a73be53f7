import Locomotive.Stmt
import Locomotive.Text
import Locomotive.Token.Scan

/-!
# The items of a DATA statement

The raw text after `DATA` is split at the commas outside quotes, and each item, trimmed,
is a quoted string, a number, or else a string without quotes.

* `DataItem.split`: the items of a raw text.
* `DataItem.classify`: what a trimmed item is.
-/

namespace Locomotive.DataItem

/-- The pieces of a text between its commas outside quotes. -/
def pieces : (inQuotes : Bool) → List Char → List (List Char)
  | _, [] => [[]]
  | inQuotes, c :: cs =>
    if c == ',' && !inQuotes then [] :: pieces inQuotes cs
    else
      match pieces (if c == '"' then !inQuotes else inQuotes) cs with
      | [] => [[c]]
      | p :: ps => (c :: p) :: ps

/-- A text without one quote at its end. -/
def dropQuote (cs : List Char) : List Char :=
  if cs.getLast? == some '"' then cs.dropLast else cs

/-- The exponent part of a decimal literal is complete: a sign may precede its digits. -/
def isExponent : List Char → Bool
  | [] => false
  | s :: ds =>
    if s == '+' || s == '-' then !ds.isEmpty && ds.all Char.isDigit
    else (s :: ds).all Char.isDigit

/-- The text is a decimal number: digits with at most one point among them, at least one
digit, and an optional exponent; ASCII digits only. -/
def isDecimal (cs : List Char) : Bool :=
  let whole := cs.takeWhile Char.isDigit
  let after := cs.drop whole.length
  let part :=
    match after with
    | '.' :: ds => ds.takeWhile Char.isDigit
    | _ => []
  let rest :=
    match after with
    | '.' :: ds => ds.drop part.length
    | _ => after
  if whole.isEmpty && part.isEmpty then false
  else
    match rest with
    | [] => true
    | e :: ds => (e == 'e' || e == 'E') && isExponent ds

/-- The number after an ampersand, if `cs` spells one: `X` and binary digits, or
hexadecimal digits with or without an `H` before them. -/
def based? (cs : List Char) : Option (Radix × List Char) :=
  match cs with
  | [] => none
  | x :: ds =>
    if (x == 'x' || x == 'X') && !ds.isEmpty && ds.all (fun d => d == '0' || d == '1') then
      some (.binary, ds)
    else if (x == 'h' || x == 'H') && Token.isHexText ds then some (.hex, ds.map Char.toLower)
    else if Token.isHexText cs then some (.hex, cs.map Char.toLower)
    else none

/-- The number that an item spells: an optional minus sign and a literal. -/
def number? (cs : List Char) : Option DataItem :=
  let sign := if cs.head? == some '-' then ['-'] else []
  let body := cs.drop sign.length
  match body with
  | '&' :: ds => (based? ds).map fun n => .number n.1 (String.ofList (sign ++ n.2))
  | _ => if isDecimal body then some (.number .decimal (String.ofList cs)) else none

/-- What a trimmed item is. -/
def classify (cs : List Char) : DataItem :=
  match cs with
  | '"' :: r => .text (String.ofList (dropQuote r))
  | _ => (number? cs).getD (.text (String.ofList cs))

/-- The items of the raw text of a `DATA` statement. -/
def split (raw : List Char) : List DataItem :=
  (pieces false raw).map fun p => classify (Text.trimChars p)

end Locomotive.DataItem
