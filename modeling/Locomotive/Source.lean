import Locomotive.Text

/-!
# Source text

A source text is a list of code points. Before anything reads it, one leading byte
order mark is dropped and every line ending (CR LF, or a lone CR) becomes a LF, so
that LF is the only line terminator afterwards.
-/

namespace Locomotive.Source

/-- U+FEFF, which may open a text without being part of it. -/
def byteOrderMark : Char := Char.ofNat 0xFEFF

/-- A text with LF as its only line ending. -/
def unifyEndings : List Char → List Char
  | [] => []
  | '\r' :: '\n' :: cs => '\n' :: unifyEndings cs
  | c :: cs => (if c = '\r' then '\n' else c) :: unifyEndings cs

/-- A text without one leading byte order mark. -/
def dropMark : List Char → List Char
  | [] => []
  | c :: cs => if c = byteOrderMark then cs else c :: cs

/-- The text that scanning and diagnostics work on. -/
def normalize (cs : List Char) : List Char := unifyEndings (dropMark cs)

/-- The lines of a text: the pieces between its LFs, so always at least one. -/
def lines (cs : List Char) : List (List Char) := Text.splitAt '\n' cs

end Locomotive.Source
