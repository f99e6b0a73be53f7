/-!
# Texts

What is asked of texts everywhere, whatever they are about: how they start and end, which of their characters
are blank, where they are split, how they are ordered and padded, and which numbers they spell.

A blank is a character of the Unicode property White_Space; the zero-width space and the byte order mark are none.
A whole number is an optional sign and at least one ASCII digit, and its value has to fit a signed word of 64 bits.
A digit is a character of the Unicode general category Nd, in which a number of the source may be written.
-/

namespace Locomotive.Text

/-! ## Ends and columns -/

/-- The last character of a string. -/
def last? (s : String) : Option Char := s.toList.getLast?

/-- The string ends with the character. -/
def endsWith (s : String) (c : Char) : Bool := last? s == some c

/-- A string without its last character. -/
def dropLast (s : String) : String := String.ofList s.toList.dropLast

/-- The string starts with the text. -/
def startsWith (s start : String) : Bool := start.toList.isPrefixOf s.toList

/-- A string without the zeros it starts with. -/
def dropZeros (s : String) : String := String.ofList (s.toList.dropWhile (· == '0'))

/-- `s` followed by as many spaces as it lacks to `width` characters. -/
def padRight (width : Nat) (s : String) : String :=
  s ++ String.ofList (List.replicate (width - s.length) ' ')

/-! ## Blanks -/

/-- A character of the Unicode property White_Space. -/
def isBlank (c : Char) : Bool :=
  let n := c.toNat
  (9 ≤ n && n ≤ 13) || n == 0x20 || n == 0x85 || n == 0xA0 || n == 0x1680 ||
    (0x2000 ≤ n && n ≤ 0x200A) || n == 0x2028 || n == 0x2029 || n == 0x202F ||
    n == 0x205F || n == 0x3000

/-- A text without the characters of a class at its end. -/
def dropEndWhile (p : Char → Bool) (cs : List Char) : List Char :=
  (cs.reverse.dropWhile p).reverse

/-- A text without the blanks at its ends. -/
def trimChars (cs : List Char) : List Char := dropEndWhile isBlank (cs.dropWhile isBlank)

/-- A string without the blanks at its ends. -/
def trim (s : String) : String := String.ofList (trimChars s.toList)

/-- The maximal blank-free pieces of a text, in order. -/
def words (s : String) : List String :=
  ((s.toList.splitBy fun a b => isBlank a == isBlank b).filter
    fun piece => piece.any fun c => !isBlank c).map String.ofList

/-! ## Splitting -/

/-- The pieces of a text between the occurrences of a character, so one more than there are of these. -/
def splitAt (sep : Char) : List Char → List (List Char)
  | [] => [[]]
  | c :: cs =>
    if c = sep then [] :: splitAt sep cs
    else
      match splitAt sep cs with
      | [] => [[c]]
      | p :: ps => (c :: p) :: ps

/-- A line without the CR before its end. -/
def dropReturn (cs : List Char) : List Char :=
  if cs.getLast? = some '\r' then cs.dropLast else cs

/-- The lines of an input: each ends at a LF or a CR LF, and what follows the last one is
a line if it is not empty. -/
def inputLines (cs : List Char) : List (List Char) :=
  let pieces := splitAt '\n' cs
  pieces.dropLast.map dropReturn ++ (pieces.getLast?.filter fun p => !p.isEmpty).toList

/-! ## Order -/

/-- A text put before the first one of a list that does not come before it. -/
def insertSorted (s : String) : List String → List String
  | [] => [s]
  | t :: ts => if t < s then t :: insertSorted s ts else s :: t :: ts

/-- The texts in the order of their code points. -/
def sorted (ss : List String) : List String := ss.foldr insertSorted []

/-! ## Whole numbers -/

/-- The value of a run of ASCII digits, most significant first. -/
def digitsValue (cs : List Char) : Nat :=
  cs.foldl (fun n c => n * 10 + (c.toNat - 48)) 0

/-- The value of a non-empty run of ASCII digits. -/
def natural? (cs : List Char) : Option Nat :=
  if !cs.isEmpty && cs.all Char.isDigit then some (digitsValue cs) else none

/-- The value of a whole number with an optional sign, of any size. -/
def signed? (cs : List Char) : Option Int :=
  match cs with
  | '-' :: ds => (natural? ds).map fun n => -(n : Int)
  | '+' :: ds => (natural? ds).map fun n => (n : Int)
  | ds => (natural? ds).map fun n => (n : Int)

/-- The least number that fits 64 bits. -/
def leastWord : Int := -9223372036854775808

/-- The value of a whole number with an optional sign, if it fits 64 bits. -/
def integerOf? (cs : List Char) : Option Int :=
  (signed? cs).filter fun v => leastWord ≤ v && v < -leastWord

/-- The whole number a string spells, if it fits 64 bits. -/
def integer? (s : String) : Option Int := integerOf? s.toList

/-! ## Decimal digits of every script -/

/-- Whether a code point lies in one of the ranges, ends included. -/
def inRanges (ranges : List (Nat × Nat)) (n : Nat) : Bool :=
  ranges.any fun r => r.1 ≤ n && n ≤ r.2

/-- The zeros of category Nd beyond ASCII, ascending; the other nine digits of the script follow each. -/
def digitZeros : List Nat :=
  [
    0x660, 0x6F0, 0x7C0, 0x966, 0x9E6, 0xA66, 0xAE6, 0xB66, 0xBE6, 0xC66, 0xCE6, 0xD66, 0xDE6, 0xE50, 0xED0, 0xF20,
    0x1040, 0x1090, 0x17E0, 0x1810, 0x1946, 0x19D0, 0x1A80, 0x1A90, 0x1B50, 0x1BB0, 0x1C40, 0x1C50, 0xA620, 0xA8D0,
    0xA900, 0xA9D0, 0xA9F0, 0xAA50, 0xABF0, 0xFF10, 0x104A0, 0x10D30, 0x10D40, 0x11066, 0x110F0, 0x11136, 0x111D0,
    0x112F0, 0x11450, 0x114D0, 0x11650, 0x116C0, 0x116D0, 0x116DA, 0x11730, 0x118E0, 0x11950, 0x11BF0, 0x11C50, 0x11D50,
    0x11DA0, 0x11DE0, 0x11F50, 0x16130, 0x16A60, 0x16AC0, 0x16B50, 0x16D70, 0x1CCF0, 0x1D7CE, 0x1D7D8, 0x1D7E2, 0x1D7EC,
    0x1D7F6, 0x1E140, 0x1E2F0, 0x1E4F0, 0x1E5F1, 0x1E950, 0x1FBF0
  ]

/-- The ranges of the digits of a script. -/
def digitRanges : List (Nat × Nat) := digitZeros.map fun z => (z, z + 9)

/-- A character of category Nd. -/
def isDigit (c : Char) : Bool :=
  if c.toNat < 0x80 then c.isDigit else inRanges digitRanges c.toNat

end Locomotive.Text
