import Locomotive.Expr.Builtin
import Locomotive.Source
import Locomotive.Text
import Locomotive.Token

/-!
# Reading token lists

A parser takes the tokens from a place on and either fails or gives a value and the
tokens after it. By its type what it leaves is a suffix of what it was given, so no
parser can go back or run past the end.

* `Failure`: which token is blamed, for what, and the tokens that were still unread.
* `Parser`: the parsers as a monad.
* `expect`, `expectWord`: the next token has to be of a kind, or a certain keyword.
-/

namespace Locomotive.Parse

/-- What is wrong with a program. -/
inductive Complaint where
  /-- A token of another sort was expected. -/
  | expected (what : String) (got : Token)
  /-- An expression of the other type was expected. -/
  | wrongType (want got : Ty)
  | nonNumericOperands (op : String)
  | nonNumericNot
  | nonNumericSign (op : String)
  | incomparable (left right : Ty)
  | badSum (left : Ty) (op : String) (right : Ty)
  | argumentCount (name : String) (count : Nat)
  | argumentType (name : String) (index : Nat) (want : Ty)
  | badLabel (text : String)
  | duplicateLabel (label : String) (line : Int)
  | unexpectedAfter (got : Token)
  | elseWithoutIf
  | unexpectedKeyword (word : String)
  | unsupported (word : String)
  | commandCount (name : String) (least most count : Nat)
  | graphicsCount (name : String) (count : Nat)
  | assignsFunction (name : String)
  | stringCounter (name : String)
  | noDimensions (name : String)
  | noPromptMark
  | noLabel
  | descendingLabel (label : String) (last : Int)
  deriving DecidableEq, Repr

/-- The wording of a complaint. -/
def Complaint.text : Complaint → String
  | expected what got => "expected " ++ what ++ ", got " ++ got.described
  | wrongType want got =>
    "type mismatch: expected " ++ want.name ++ " expression, got " ++ got.name
  | nonNumericOperands op => "type mismatch: " ++ op ++ " needs numeric operands"
  | nonNumericNot => "type mismatch: NOT needs a numeric operand"
  | nonNumericSign op => "type mismatch: unary " ++ op ++ " needs a numeric operand"
  | incomparable left right =>
    "type mismatch: cannot compare " ++ left.name ++ " with " ++ right.name
  | badSum left op right => "type mismatch: " ++ left.name ++ " " ++ op ++ " " ++ right.name
  | argumentCount name count =>
    name ++ ": wrong number of arguments (" ++ toString count ++ ")"
  | argumentType name index want =>
    "type mismatch: " ++ name ++ " argument " ++ toString index ++ " must be " ++ want.name
  | badLabel text => "invalid line label " ++ Text.quoted text
  | duplicateLabel label line =>
    "duplicate line label " ++ label ++ " (first used on line " ++ toString line ++ ")"
  | unexpectedAfter got => "unexpected " ++ got.described ++ " after statement"
  | elseWithoutIf => "ELSE without IF"
  | unexpectedKeyword word => "unexpected keyword " ++ word
  | unsupported word => "unsupported statement " ++ word
  | commandCount name least most count =>
    name ++ " expects " ++ toString least ++ " to " ++ toString most ++ " arguments, got " ++
      toString count
  | graphicsCount name count => name ++ " expects 2 or 3 arguments, got " ++ toString count
  | assignsFunction name => "cannot assign to function " ++ name
  | stringCounter name => "FOR variable " ++ name ++ " must be numeric"
  | noDimensions name => "expected array dimensions after " ++ name
  | noPromptMark => "expected ';' or ',' after INPUT prompt"
  | noLabel => "line label expected"
  | descendingLabel label last =>
    "line label " ++ label ++ " must be greater than " ++ toString last

/-- Why reading stopped. -/
inductive Failure where
  /-- A complaint about a token, with `rest` still unread. -/
  | rejected (blamed : Token) (complaint : Complaint) (rest : List Token)
  /-- A token claims to stand outside the source text. -/
  | outsideSource (rest : List Token)
  deriving DecidableEq, Repr

/-- The tokens that were still unread. -/
def Failure.rest : Failure → List Token
  | rejected _ _ rest => rest
  | outsideSource rest => rest

/-- The text of a line of a source, trimmed, as diagnostics show it. -/
def snippet (lines : List (List Char)) (line : Int) : String :=
  if 1 ≤ line then
    match lines[(line - 1).toNat]? with
    | some l => String.ofList (Text.trimChars l)
    | none => "<source unavailable>"
  else "<source unavailable>"

/-- The message of a complaint about a token of a source with the given lines. -/
def message (lines : List (List Char)) (blamed : Token) (complaint : Complaint) : String :=
  "line " ++ toString blamed.line ++ ": " ++ complaint.text ++ "\n  |> " ++
    snippet lines blamed.line

/-- A value read from the front of `ts`, and the tokens after it. -/
structure Parsed (α : Type) (ts : List Token) where
  value : α
  rest : List Token
  suffix : rest <:+ ts

/-- The result of reading from the front of `ts`. -/
abbrev Outcome (α : Type) (ts : List Token) := Except Failure (Parsed α ts)

/-- A result for the tail `r` of `ts` is a result for `ts`. -/
def Outcome.widen {α : Type} {r ts : List Token} (o : Outcome α r) (h : r <:+ ts) : Outcome α ts :=
  match o with
  | .error e => .error e
  | .ok p => .ok ⟨p.value, p.rest, p.suffix.trans h⟩

/-- Reads a value from the front of a list of tokens. -/
def Parser (α : Type) := (ts : List Token) → Outcome α ts

namespace Parser

instance : Monad Parser where
  pure a := fun ts => .ok ⟨a, ts, List.suffix_refl ts⟩
  bind p f := fun ts =>
    match p ts with
    | .error e => .error e
    | .ok q => (f q.value q.rest).widen q.suffix

/-- Blame a token. -/
def fail {α : Type} (blamed : Token) (complaint : Complaint) : Parser α :=
  fun ts => .error (.rejected blamed complaint ts)

/-- The next token, left where it is. -/
def peek : Parser Token := fun ts => .ok ⟨ts.headD Token.endMark, ts, List.suffix_refl ts⟩

/-- The next token, taken. Past the end it is the end mark. -/
def next : Parser Token := fun ts =>
  match ts with
  | [] => .ok ⟨Token.endMark, [], List.suffix_refl []⟩
  | t :: r => .ok ⟨t, r, List.suffix_cons t r⟩

/-- Take the next token, which has to be of the given kind. -/
def expect (kind : Token.Kind) : Parser Token := do
  let t ← next
  if t.kind = kind then pure t else fail t (.expected kind.name t)

/-- Take the next token, which has to be the given keyword. -/
def expectWord (word : String) : Parser Token := do
  let t ← next
  if t.isWord word then pure t else fail t (.expected word t)

/-- Take the next token if it is of the given kind. -/
def skip (kind : Token.Kind) : Parser Bool := do
  let t ← peek
  if t.kind = kind then
    let _ ← next
    pure true
  else pure false

/-- One or more items with commas between them. -/
def commaList {α : Type} (item : Parser α) (ts : List Token) : Outcome (List α) ts :=
  match item ts with
  | .error e => .error e
  | .ok ⟨a, [], h⟩ => .ok ⟨[a], [], h⟩
  | .ok ⟨a, t :: r, h⟩ =>
    if t.kind = .comma then
      match commaList item r with
      | .error e => .error e
      | .ok q => .ok ⟨a :: q.value, q.rest, (q.suffix.trans (List.suffix_cons t r)).trans h⟩
    else .ok ⟨[a], t :: r, h⟩
termination_by ts.length
decreasing_by
  have := h.length_le
  simp only [List.length_cons] at this
  omega

/-- Items up to a token that stops the list, each followed by a separator or by the end
of the list. -/
def separated {α : Type} (stops isSeparator : Token → Bool) (item : Parser α) (ts : List Token) :
    Outcome (List α) ts :=
  if stops (ts.headD Token.endMark) then .ok ⟨[], ts, List.suffix_refl ts⟩
  else
    match item ts with
    | .error e => .error e
    | .ok ⟨a, [], h⟩ => .ok ⟨[a], [], h⟩
    | .ok ⟨a, t :: r, h⟩ =>
      if isSeparator t then
        match separated stops isSeparator item r with
        | .error e => .error e
        | .ok q => .ok ⟨a :: q.value, q.rest, (q.suffix.trans (List.suffix_cons t r)).trans h⟩
      else .ok ⟨[a], t :: r, h⟩
termination_by ts.length
decreasing_by
  have := h.length_le
  simp only [List.length_cons] at this
  omega

end Parser

end Locomotive.Parse
