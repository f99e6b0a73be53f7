import Locomotive.Text
import Locomotive.Text.Quoted

/-!
# Tokens

A token is a lexical unit of a program: its kind, its text in normal form, and where
it stands. The normal form of a word is upper case for a keyword and lower case for
a name; a string keeps only its contents, a hexadecimal or binary number only its
digits, a comment its trimmed text; everything else is kept as written.

* `Token`: a token and where it stands.
* `Token.isKeyword`, `Token.isUnsupported`: the reserved words, and those without a counterpart.
-/

namespace Locomotive

/-- The category of a token. -/
inductive Token.Kind where
  | eof
  | eol
  | identifier
  | number
  | hexNumber
  | binNumber
  | string
  | keyword
  | comment
  | dataItems
  | rsx
  | lparen
  | rparen
  | lbracket
  | rbracket
  | comma
  | semicolon
  | colon
  | hash
  | atSign
  | plus
  | minus
  | star
  | slash
  | backslash
  | caret
  | equals
  | notEqual
  | less
  | greater
  | lessEqual
  | greaterEqual
  /-- A category that no scanner makes, known by a number only. -/
  | unknown (code : Int)
  deriving DecidableEq, Repr

namespace Token.Kind

/-- The categories a scanner can make, in the order of their numbers. -/
def all : List Kind :=
  [eof, eol, identifier, number, hexNumber, binNumber, string, keyword, comment, dataItems,
    rsx, lparen, rparen, lbracket, rbracket, comma, semicolon, colon, hash, atSign, plus,
    minus, star, slash, backslash, caret, equals, notEqual, less, greater, lessEqual,
    greaterEqual]

/-- The name of a category in messages. -/
def name : Kind → String
  | eof => "EOF"
  | eol => "EOL"
  | identifier => "IDENTIFIER"
  | number => "NUMBER"
  | hexNumber => "HEXNUM"
  | binNumber => "BINNUM"
  | string => "STRING"
  | keyword => "KEYWORD"
  | comment => "COMMENT"
  | dataItems => "DATAITEMS"
  | rsx => "RSX"
  | lparen => "LPAREN"
  | rparen => "RPAREN"
  | lbracket => "LBRACKET"
  | rbracket => "RBRACKET"
  | comma => "COMMA"
  | semicolon => "SEMICOLON"
  | colon => "COLON"
  | hash => "HASH"
  | atSign => "AT"
  | plus => "PLUS"
  | minus => "MINUS"
  | star => "STAR"
  | slash => "SLASH"
  | backslash => "BACKSLASH"
  | caret => "CARET"
  | equals => "EQUALS"
  | notEqual => "NOT_EQ"
  | less => "LESS"
  | greater => "GREATER"
  | lessEqual => "LESS_EQ"
  | greaterEqual => "GREATER_EQ"
  | unknown code => "TokenType(" ++ toString code ++ ")"

/-- The category with a given number. -/
def ofCode (code : Int) : Kind :=
  if 0 ≤ code then (all[code.toNat]?).getD (unknown code) else unknown code

/-- The category with a given name; any other name stands for the category numbered -1. -/
def ofName (s : String) : Kind := (all.find? fun k => k.name == s).getD (unknown (-1))

end Token.Kind

/-- A lexical unit. Positions count code points of the normalized source. -/
structure Token where
  kind : Token.Kind
  /-- The text in normal form. -/
  lexeme : String
  /-- The line it starts on, counted from one. -/
  line : Int
  /-- Where it starts. -/
  pos : Int
  /-- Where it ends: the position just past its last character. -/
  stop : Int
  deriving DecidableEq, Repr

namespace Token

/-- The token that stands past the end of every list of tokens. -/
def endMark : Token := ⟨.eof, "", 0, 0, 0⟩

/-- The token is the keyword `word`. -/
def isWord (t : Token) (word : String) : Bool := t.kind == .keyword && t.lexeme == word

/-- A line of a token listing. -/
def listing (t : Token) : String :=
  Text.padRight 10 t.kind.name ++ " " ++ Text.padRight 14 (Text.quoted t.lexeme) ++ "  line " ++
    toString t.line

/-- How a message names an unwelcome token: its category and its quoted text. -/
def described (t : Token) : String := t.kind.name ++ " (" ++ Text.quoted t.lexeme ++ ")"

/-! ## Reserved words -/

/-- The reserved words, in upper case and with their `$` where they have one. -/
def keywords : List String :=
  ["ABS", "AFTER", "AND", "ASC", "ATN", "BIN$", "BORDER", "CALL", "CHR$", "CINT", "CLEAR",
    "CLS", "COS", "DATA", "DEC$", "DEF", "DEG", "DIM", "DRAW", "DRAWR", "ELSE", "END", "ENT",
    "ENV", "ERASE", "EVERY", "EXP", "FIX", "FN", "FOR", "FRAME", "GOSUB", "GOTO", "GRAPHICS",
    "HEX$", "IF", "INK", "INKEY$", "INPUT", "INSTR", "INT", "KEY", "LEFT$", "LEN", "LET",
    "LOCATE", "LOG", "LOG10", "LOWER$", "MAX", "MID$", "MIN", "MOD", "MODE", "MOVE", "MOVER",
    "NEXT", "NOT", "ON", "OR", "ORIGIN", "OUT", "PAPER", "PEN", "PI", "PLOT", "PLOTR", "POKE",
    "PRINT", "RAD", "RANDOMIZE", "READ", "REM", "REMAIN", "RESTORE", "RETURN", "RIGHT$", "RND",
    "ROUND", "SGN", "SIN", "SOUND", "SPACE$", "SPC", "SPEED", "SQR", "STEP", "STOP", "STR$",
    "STRING$", "TAB", "TAG", "TAGOFF", "TAN", "THEN", "TIME", "TO", "UPPER$", "USING", "VAL",
    "WEND", "WHILE", "WINDOW", "WRITE", "XOR", "XPOS", "YPOS", "ZONE"]

/-- The word is reserved. -/
def isKeyword (word : String) : Bool := keywords.contains word

/-- The statements that are read but have no counterpart in the generated program. -/
def unsupportedWords : List String :=
  ["BORDER", "CALL", "CLEAR", "ENT", "ENV", "GOTO", "KEY", "OUT", "POKE", "RANDOMIZE", "SOUND",
    "SPEED", "WINDOW"]

/-- The word starts a statement without a counterpart in the generated program. -/
def isUnsupported (word : String) : Bool := unsupportedWords.contains word

end Token

end Locomotive
