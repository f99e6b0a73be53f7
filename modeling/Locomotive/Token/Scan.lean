import Locomotive.Source
import Locomotive.Text
import Locomotive.Token

/-!
# Scanning

`scan` splits a source text into tokens. At each position `piece` decides what stands
there; spaces and tabs between tokens are skipped. After the word `DATA` the raw item
list up to the end of the statement is one token. Scanning stops at the first
character that starts no token; the tokens and warnings up to there remain.
-/

namespace Locomotive.Token

/-- Why the text at some place is no token. -/
inductive ScanError where
  /-- An ampersand without digits of its base. -/
  | malformedNumber (text : List Char)
  /-- A bar without a name. -/
  | missingName
  /-- A character that starts no token. -/
  | unexpected (c : Char)
  deriving DecidableEq, Repr

/-- The wording of a scan error on a line. -/
def ScanError.message (line : Nat) : ScanError → String
  | .malformedNumber text =>
    "line " ++ toString line ++ ": malformed number literal " ++ Text.quoted (String.ofList text)
  | .missingName => "line " ++ toString line ++ ": expected RSX name after '|'"
  | .unexpected c => "line " ++ toString line ++ ": unexpected character " ++ Text.quotedChar c

/-- What scanning tolerates in a string. -/
inductive ScanWarning where
  /-- The string ends with its line, not with a quote. -/
  | unterminated (contents : List Char)
  /-- The string holds bytes that are no text. -/
  | undecodable
  deriving DecidableEq, Repr

/-- The wording of a scan warning on a line. -/
def ScanWarning.message (line : Nat) : ScanWarning → String
  | .unterminated contents =>
    "line " ++ toString line ++ ": unterminated string " ++ Text.quoted (String.ofList contents)
  | .undecodable => "line " ++ toString line ++ ": invalid UTF-8 in string replaced with U+FFFD"

/-- What stands at a position: a token without its place. -/
structure Piece where
  kind : Kind
  lexeme : String
  /-- The characters of the token after its first one. -/
  tail : List Char
  warnings : List ScanWarning := []

/-- A space or a tab, which only separates tokens. -/
def isGap (c : Char) : Bool := c == ' ' || c == '\t'

/-- A character of a name: an ASCII letter or digit, or an underscore. -/
def isNamePart (c : Char) : Bool := c.isAlphanum || c == '_'

/-- A digit of a hexadecimal number: a digit of any script, or a letter up to F. -/
def isHexDigit (c : Char) : Bool :=
  Text.isDigit c || ('a' ≤ c && c ≤ 'f') || ('A' ≤ c && c ≤ 'F')

/-- A text in which every character is a hexadecimal digit, and at least one is there. -/
def isHexText (cs : List Char) : Bool := !cs.isEmpty && cs.all isHexDigit

/-- The characters up to the end of the line. -/
def restOfLine (cs : List Char) : List Char := cs.takeWhile (· != '\n')

/-- A word that starts with letter `c`: a keyword, a name with its type mark, or a
comment if the word is `REM`. -/
def word (c : Char) (cs : List Char) : Piece :=
  let more := cs.takeWhile isNamePart
  let upper := String.ofList ((c :: more).map Char.toUpper)
  let lower := String.ofList ((c :: more).map Char.toLower)
  let after := cs.drop more.length
  let plain : Piece :=
    if upper == "REM" then
      let text := restOfLine after
      ⟨.comment, String.ofList (Text.trimChars text), more ++ text, []⟩
    else if isKeyword upper then ⟨.keyword, upper, more, []⟩
    else ⟨.identifier, lower, more, []⟩
  match after with
  | '$' :: _ =>
    if isKeyword (upper ++ "$") then ⟨.keyword, upper ++ "$", more ++ ['$'], []⟩
    else ⟨.identifier, lower ++ "$", more ++ ['$'], []⟩
  | m :: _ =>
    if (m == '%' || m == '!') && !isKeyword upper then
      ⟨.identifier, lower ++ String.singleton m, more ++ [m], []⟩
    else plain
  | [] => plain

/-- The fraction at the front of a text: a point and the digits after it. -/
def fraction : List Char → List Char
  | '.' :: cs => '.' :: cs.takeWhile Text.isDigit
  | _ => []

/-- The exponent at the front of a text, if at least one digit belongs to it. -/
def exponent : List Char → List Char
  | e :: s :: d :: cs =>
    if e != 'e' && e != 'E' then []
    else if Text.isDigit s then e :: s :: (d :: cs).takeWhile Text.isDigit
    else if (s == '+' || s == '-') && Text.isDigit d then
      e :: s :: d :: cs.takeWhile Text.isDigit
    else []
  | [e, d] => if (e == 'e' || e == 'E') && Text.isDigit d then [e, d] else []
  | _ => []

/-- The decimal number at the front of a text. -/
def numeral (cs : List Char) : List Char :=
  let whole := cs.takeWhile Text.isDigit
  let part := fraction (cs.drop whole.length)
  whole ++ part ++ exponent (cs.drop (whole.length + part.length))

/-- A decimal number that starts with `c`. -/
def number (c : Char) (cs : List Char) : Piece :=
  let text := numeral (c :: cs)
  ⟨.number, String.ofList text, text.tail, []⟩

/-- A number of the given kind after an ampersand: `lead` is the letter of its base, if
one is written, and `digits` what follows it. -/
def based (kind : Kind) (lead digits : List Char) : Except ScanError Piece :=
  if digits.isEmpty then .error (.malformedNumber ('&' :: lead))
  else .ok ⟨kind, String.ofList (digits.map Char.toLower), lead ++ digits, []⟩

/-- A binary (`&X`) or hexadecimal (`&H` or just `&`) number; `cs` is what follows the
ampersand. -/
def ampersand (cs : List Char) : Except ScanError Piece :=
  match cs with
  | [] => based .hexNumber [] []
  | x :: ds =>
    if x == 'x' || x == 'X' then
      based .binNumber [x] (ds.takeWhile fun d => d == '0' || d == '1')
    else if (x == 'h' || x == 'H') && (ds.head?.any isHexDigit) then
      based .hexNumber [x] (ds.takeWhile isHexDigit)
    else based .hexNumber [] (cs.takeWhile isHexDigit)

/-- A string; `cs` is what follows the opening quote. It ends with its line at the
latest. -/
def string (cs : List Char) : Piece :=
  let contents := cs.takeWhile fun c => c != '"' && c != '\n'
  let closed := (cs.drop contents.length).head? == some '"'
  { kind := .string
    lexeme := String.ofList contents
    tail := if closed then contents ++ ['"'] else contents
    warnings :=
      (if closed then [] else [.unterminated contents]) ++
        (if contents.any (·.toNat == 0xFFFD) then [.undecodable] else []) }

/-- An external command; `cs` is what follows the bar. -/
def bar (cs : List Char) : Except ScanError Piece :=
  let name := cs.takeWhile isNamePart
  if name.isEmpty then .error .missingName
  else .ok ⟨.rsx, String.ofList (name.map Char.toLower), name, []⟩

/-- A sign of one or two characters. -/
def sign (c : Char) (cs : List Char) : Except ScanError Piece :=
  let one (kind : Kind) : Except ScanError Piece := .ok ⟨kind, String.singleton c, [], []⟩
  match c with
  | '\n' => one .eol
  | '(' => one .lparen
  | ')' => one .rparen
  | '[' => one .lbracket
  | ']' => one .rbracket
  | ',' => one .comma
  | ';' => one .semicolon
  | ':' => one .colon
  | '#' => one .hash
  | '@' => one .atSign
  | '+' => one .plus
  | '-' => one .minus
  | '*' => one .star
  | '/' => one .slash
  | '\\' => one .backslash
  | '^' => one .caret
  | '=' => one .equals
  | '<' =>
    match cs with
    | '>' :: _ => .ok ⟨.notEqual, "<>", ['>'], []⟩
    | '=' :: _ => .ok ⟨.lessEqual, "<=", ['='], []⟩
    | _ => one .less
  | '>' =>
    match cs with
    | '=' :: _ => .ok ⟨.greaterEqual, ">=", ['='], []⟩
    | _ => one .greater
  | _ => .error (.unexpected c)

/-- What stands at the front of the text `c :: cs`, which starts with no gap. -/
def piece (c : Char) (cs : List Char) : Except ScanError Piece :=
  if c.isAlpha then .ok (word c cs)
  else if Text.isDigit c || (c == '.' && cs.head?.any Text.isDigit) then .ok (number c cs)
  else if c == '&' then ampersand cs
  else if c == '"' then .ok (string cs)
  else if c == '\'' then
    let text := restOfLine cs
    .ok ⟨.comment, String.ofList (Text.trimChars text), text, []⟩
  else if c == '|' then bar cs
  else sign c cs

/-- The raw item list of a `DATA` statement: up to the end of the line or a colon
outside quotes. -/
def itemList : (inQuotes : Bool) → List Char → List Char
  | _, [] => []
  | inQuotes, c :: cs =>
    if c == '\n' || (c == ':' && !inQuotes) then []
    else c :: itemList (if c == '"' then !inQuotes else inQuotes) cs

/-- The result of scanning: tokens and warnings in order, and why it stopped early. -/
structure Scan where
  tokens : List Token
  warnings : List (Nat × ScanWarning)
  error : Option (Nat × ScanError)
  deriving DecidableEq, Repr

/-- The token of a piece that starts at `pos` on `line`. -/
def Piece.token (p : Piece) (pos line : Nat) : Token :=
  ⟨p.kind, p.lexeme, line, pos, pos + 1 + p.tail.length⟩

/-- Scan the text `cs`, which stands at position `pos` on line `line`. -/
def scanFrom (cs : List Char) (pos line : Nat) : Scan :=
  match cs with
  | [] => ⟨[⟨.eof, "", line, pos, pos⟩], [], none⟩
  | c :: r =>
    if isGap c then scanFrom r (pos + 1) line
    else
      match piece c r with
      | .error e => ⟨[], [], some (line, e)⟩
      | .ok p =>
        let t := p.token pos line
        let after := r.drop p.tail.length
        let next := pos + 1 + p.tail.length
        if t.isWord "DATA" then
          let gap := after.takeWhile isGap
          let items := itemList false (after.drop gap.length)
          let start := next + gap.length
          let s := scanFrom ((after.drop gap.length).drop items.length) (start + items.length) line
          { s with
            tokens :=
              t :: ⟨.dataItems, String.ofList items, line, start, start + items.length⟩ :: s.tokens }
        else
          let s := scanFrom after next (if p.kind = .eol then line + 1 else line)
          { s with
            tokens := t :: s.tokens
            warnings := p.warnings.map (fun w => (line, w)) ++ s.warnings }
termination_by cs.length
decreasing_by
  all_goals simp only [List.length_drop, List.length_cons]
  all_goals omega

/-- Scan a source text. -/
def scan (source : List Char) : Scan := scanFrom (Source.normalize source) 0 1

/-- The wordings of the warnings, in order. -/
def Scan.warningTexts (s : Scan) : List String := s.warnings.map fun w => w.2.message w.1

/-- The wording of the error, if scanning stopped early. -/
def Scan.errorText? (s : Scan) : Option String := s.error.map fun e => e.2.message e.1

end Locomotive.Token
