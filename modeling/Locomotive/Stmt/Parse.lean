import Locomotive.Expr.Parse
import Locomotive.Stmt.Data
import Locomotive.Text
import Locomotive.Token

/-!
# Reading statements

Each statement starts with a token that decides what follows; a name starts an
assignment. Statements are separated by colons and end with their line. An `IF` takes
the statements up to an `ELSE` of its own or the end of the line into its branches.

* `statements`: the statements of a line or of a branch.
* `simple`: a statement other than `IF`.
-/

namespace Locomotive.Parse

/-- What a program is read against: its text, and whether to be strict. -/
structure Setting where
  /-- Every line needs a label, labels ascend, and nothing unsupported is let through. -/
  strict : Bool
  /-- The normalized source. -/
  source : List Char

/-- The token ends a statement. -/
def endsStatement (t : Token) : Bool :=
  t.kind == .colon || t.kind == .eol || t.kind == .eof || t.kind == .comment || t.isWord "ELSE"

/-- The label that a number spells: a whole number, without its leading zeros. -/
def label? (lexeme : String) : Option String :=
  if (Text.integer? lexeme).isSome then
    some (if Text.dropZeros lexeme = "" then "0" else Text.dropZeros lexeme)
  else none

/-- The characters of a text from one position up to another, if both lie in it. -/
def slice? (cs : List Char) (start stop : Int) : Option (List Char) :=
  if 0 ≤ start ∧ start ≤ stop ∧ stop ≤ cs.length then
    some ((cs.drop start.toNat).take (stop - start).toNat)
  else none

/-- A reference to a line label. -/
def labelRef : Parser (Token × String) := do
  let t ← Parser.expect .number
  match label? t.lexeme with
  | some l => pure (t, l)
  | none => Parser.fail t (.badLabel t.lexeme)

/-- A statement without a counterpart: everything up to its end, quoted from the source.
`start` is its first token and `stop` the end of what is already read. -/
def unsupported (s : Setting) (start : Token) (keyword : String) (stop : Int) : Parser Stmt :=
  fun ts =>
    if s.strict then .error (.rejected start (.unsupported keyword) ts)
    else
      let taken := ts.takeWhile fun t => !endsStatement t
      let rest := ts.dropWhile fun t => !endsStatement t
      match slice? s.source start.pos ((taken.getLast?.map Token.stop).getD stop) with
      | none => .error (.outsideSource rest)
      | some text =>
        .ok ⟨.unsupported keyword (String.ofList text) start.line, rest,
          List.dropWhile_suffix _⟩

/-- Drop a stream selector such as `#0,`. -/
def skipStream : Parser Unit := do
  if ← Parser.skip .hash then
    let _ ← Parser.skip .number
    let _ ← Parser.skip .comma
  pure ()

/-- The stream of an output statement. -/
def stream : Parser (Option Expr) := do
  if ← Parser.skip .hash then
    let e ← expressionOf .number
    let _ ← Parser.skip .comma
    pure (some e)
  else pure none

/-- A command with between `least` and `most` numeric arguments. -/
def commandWith (c : Command) (least most : Nat) : Parser Stmt := do
  let t ← Parser.peek
  let args ← if endsStatement t then pure [] else numbers
  if least ≤ args.length ∧ args.length ≤ most then pure (.command c args)
  else
    let t ← Parser.peek
    Parser.fail t (.commandCount c.name least most args.length)

/-- The name token `t` followed by indices, if there are any: a variable or an element. -/
def place (t : Token) : Parser Expr := do
  let o ← Parser.peek
  if o.kind = .lparen ∨ o.kind = .lbracket then
    let o ← Parser.next
    let is ← indices o
    pure (.index t.lexeme is)
  else pure (.var t.lexeme)

/-- Something that can be assigned to. -/
def target : Parser Expr := do
  let t ← Parser.expect .identifier
  if isFnName t.lexeme then Parser.fail t (.assignsFunction t.lexeme) else place t

/-- An assignment. -/
def assignment : Parser Stmt := do
  let place ← target
  let _ ← Parser.expect .equals
  let value ← expressionOf place.type
  pure (.assign place value)

/-- The values after the format of a `USING`; a separator at the end keeps the cursor on
the line. -/
def formattedValues (format : Expr) (ts : List Token) : Outcome (List PrintItem) ts :=
  match expressionOf .number ts with
  | .error e => .error e
  | .ok ⟨v, [], h⟩ => .ok ⟨[.formatted format v], [], h⟩
  | .ok ⟨v, t :: r, h⟩ =>
    if t.kind = .semicolon ∨ t.kind = .comma then
      if endsStatement (r.headD Token.endMark) then
        .ok ⟨[.formatted format v, .semicolon], r, (List.suffix_cons t r).trans h⟩
      else
        match formattedValues format r with
        | .error e => .error e
        | .ok q =>
          .ok ⟨.formatted format v :: q.value, q.rest,
            (q.suffix.trans (List.suffix_cons t r)).trans h⟩
    else .ok ⟨[.formatted format v], t :: r, h⟩
termination_by ts.length
decreasing_by
  have := h.length_le
  simp only [List.length_cons] at this
  omega

/-- An argument between parentheses. -/
def parenthesized : Parser Expr := do
  let _ ← Parser.expect .lparen
  let e ← expressionOf .number
  let _ ← Parser.expect .rparen
  pure e

/-- The elements of a `PRINT` list that start with the token `t`. -/
def printItem (t : Token) (ts : List Token) : Outcome (List PrintItem) ts :=
  if t.kind = .comma then .ok ⟨[.comma], ts, List.suffix_refl ts⟩
  else if t.kind = .semicolon then .ok ⟨[.semicolon], ts, List.suffix_refl ts⟩
  else if t.isWord "TAB" then
    (do
      let e ← parenthesized
      pure [.tab e] : Parser (List PrintItem)) ts
  else if t.isWord "SPC" then
    (do
      let e ← parenthesized
      pure [.spc e] : Parser (List PrintItem)) ts
  else if t.isWord "USING" then
    (do
      let format ← expressionOf .string
      let _ ← Parser.expect .semicolon
      formattedValues format : Parser (List PrintItem)) ts
  else
    match atLayer .exclusive (t :: ts) with
    | .error e => .error e
    | .ok q => .ok ⟨[.value q.value], q.rest, q.suffix⟩

/-- The elements of a `PRINT` list up to the end of the statement. -/
def printItems (ts : List Token) : Outcome (List PrintItem) ts :=
  match ts with
  | [] => .ok ⟨[], [], List.suffix_refl []⟩
  | t :: r =>
    if endsStatement t then .ok ⟨[], t :: r, List.suffix_refl _⟩
    else
      match printItem t r with
      | .error e => .error e
      | .ok ⟨items, rest, h⟩ =>
        match printItems rest with
        | .error e => .error e
        | .ok q => .ok ⟨items ++ q.value, q.rest, (q.suffix.trans h).trans (List.suffix_cons t r)⟩
termination_by ts.length
decreasing_by
  simp only [List.length_cons]
  have := h.length_le
  omega

/-- `PRINT`, after its keyword. -/
def print : Parser Stmt := do
  let s ← stream
  let items ← printItems
  pure (.print s items)

/-- `WRITE`, after its keyword. -/
def write : Parser Stmt := do
  let s ← stream
  let args ← Parser.separated endsStatement
    (fun t => t.kind == .comma || t.kind == .semicolon) expression
  pure (.write s args)

/-- A graphics statement, after its keyword. -/
def graphics (name : String) : Parser Stmt := do
  let args ← numbers
  match args with
  | [x, y] => pure (.graphics name x y none)
  | [x, y, pen] => pure (.graphics name x y (some pen))
  | _ =>
    let t ← Parser.peek
    Parser.fail t (.graphicsCount name args.length)

/-- `FOR`, after its keyword. -/
def forLoop : Parser Stmt := do
  let t ← Parser.expect .identifier
  if Ty.ofName t.lexeme ≠ .number then Parser.fail t (.stringCounter t.lexeme)
  else
    let _ ← Parser.expect .equals
    let start ← expressionOf .number
    let _ ← Parser.expectWord "TO"
    let stop ← expressionOf .number
    let s ← Parser.peek
    if s.isWord "STEP" then
      let _ ← Parser.next
      let step ← expressionOf .number
      pure (.forLoop t.lexeme start stop (some step))
    else pure (.forLoop t.lexeme start stop none)

/-- `NEXT`, after its keyword. -/
def next : Parser Stmt := do
  let vars ← Parser.separated (fun t => t.kind != .identifier) (fun t => t.kind == .comma)
    Parser.next
  pure (.next (vars.map Token.lexeme))

/-- `ON`, after its keyword, the token `start`. -/
def onJump (s : Setting) (start : Token) : Parser Stmt := do
  let selector ← expressionOf .number
  let kw ← Parser.next
  if kw.isWord "GOSUB" then
    let labels ← Parser.commaList labelRef
    pure (.onGosub selector (labels.map Prod.snd))
  else if kw.isWord "GOTO" then
    let labels ← Parser.commaList labelRef
    unsupported s start "ON GOTO" ((labels.getLast?.map fun l => l.1.stop).getD kw.stop)
  else Parser.fail kw (.expected "GOSUB or GOTO" kw)

/-- `DATA`, after its keyword. -/
def data : Parser Stmt := do
  let raw ← Parser.expect .dataItems
  pure (.data (DataItem.split raw.lexeme.toList))

/-- `RESTORE`, after its keyword. -/
def restore : Parser Stmt := do
  let t ← Parser.peek
  if t.kind = .number then
    let l ← labelRef
    pure (.restore (some l.2))
  else pure (.restore none)

/-- An array with its dimensions. -/
def dimension : Parser Expr := do
  let t ← Parser.expect .identifier
  let o ← Parser.peek
  if o.kind = .lparen ∨ o.kind = .lbracket then place t
  else Parser.fail o (.noDimensions t.lexeme)

/-- The name of a function the program defines: `FNname` or `FN name`. -/
def fnName : Parser String := do
  let t ← Parser.next
  if t.isWord "FN" then
    let n ← Parser.expect .identifier
    pure ("fn" ++ n.lexeme)
  else if t.kind = .identifier ∧ isFnName t.lexeme then pure t.lexeme
  else Parser.fail t (.expected "FN name" t)

/-- The parameters of a function definition. -/
def fnParams : Parser (List String) := do
  if ← Parser.skip .lparen then
    let params ← Parser.separated (fun t => t.kind == .rparen) (fun t => t.kind == .comma)
      (Parser.expect .identifier)
    let _ ← Parser.expect .rparen
    pure (params.map Token.lexeme)
  else pure []

/-- `DEF`, after its keyword. -/
def defFn : Parser Stmt := do
  let name ← fnName
  let params ← fnParams
  let _ ← Parser.expect .equals
  let body ← expressionOf (Ty.ofName name)
  pure (.defFn name params body)

/-- The prompt of an `INPUT` and whether a question mark follows it. -/
def prompt : Parser (String × Bool) := do
  let t ← Parser.peek
  if t.kind = .string then
    let p ← Parser.next
    let mark ← Parser.next
    if mark.kind = .semicolon then pure (p.lexeme, true)
    else if mark.kind = .comma then pure (p.lexeme, false)
    else Parser.fail mark .noPromptMark
  else pure ("", true)

/-- `INPUT`, after its keyword. -/
def input : Parser Stmt := do
  skipStream
  let p ← prompt
  let targets ← Parser.commaList target
  pure (.input p.1 p.2 targets)

/-- `AFTER` or `EVERY`, after its keyword. -/
def timer (name : String) : Parser Stmt := do
  let interval ← expressionOf .number
  let number ← (do
    if ← Parser.skip .comma then
      let e ← expressionOf .number
      pure (some e)
    else pure none : Parser (Option Expr))
  let _ ← Parser.expectWord "GOSUB"
  let l ← labelRef
  pure (.timer name interval number l.2)

/-- One argument of an external command. -/
def rsxArg : Parser RsxArg := do
  if ← Parser.skip .atSign then
    let e ← target
    pure ⟨e, true⟩
  else
    let e ← expression
    pure ⟨e, false⟩

/-- The arguments of an external command, each after a comma. -/
def rsxArgs (ts : List Token) : Outcome (List RsxArg) ts :=
  match ts with
  | [] => .ok ⟨[], [], List.suffix_refl []⟩
  | t :: r =>
    if t.kind = .comma then
      match rsxArg r with
      | .error e => .error e
      | .ok ⟨a, rest, h⟩ =>
        match rsxArgs rest with
        | .error e => .error e
        | .ok q => .ok ⟨a :: q.value, q.rest, (q.suffix.trans h).trans (List.suffix_cons t r)⟩
    else .ok ⟨[], t :: r, List.suffix_refl _⟩
termination_by ts.length
decreasing_by
  simp only [List.length_cons]
  have := h.length_le
  omega

/-- An external command, after its name. -/
def rsx (name : String) : Parser Stmt := do
  let args ← rsxArgs
  pure (.rsx name args)

/-- A statement other than `IF` that starts with the keyword `t`, after it. -/
def keywordStatement (s : Setting) (t : Token) : Parser Stmt :=
  if Token.isUnsupported t.lexeme then unsupported s t t.lexeme t.stop
  else
    match t.lexeme with
    | "LET" => assignment
    | "PRINT" => print
    | "WRITE" => write
    | "CLS" => do skipStream; pure (.command .cls [])
    | "END" => pure (.command .stopEnd [])
    | "STOP" => pure (.command .stop [])
    | "FRAME" => pure (.command .frame [])
    | "TAG" => do skipStream; pure (.command .tag [])
    | "TAGOFF" => do skipStream; pure (.command .tagOff [])
    | "DEG" => pure (.command .deg [])
    | "RAD" => pure (.command .rad [])
    | "MODE" => do skipStream; commandWith .mode 1 1
    | "ZONE" => do skipStream; commandWith .zone 1 1
    | "PAPER" => do skipStream; commandWith .paper 1 1
    | "PEN" => do skipStream; commandWith .pen 1 1
    | "LOCATE" => do skipStream; commandWith .locate 2 2
    | "ORIGIN" => commandWith .origin 2 2
    | "INK" => commandWith .ink 2 3
    | "GRAPHICS" => do
      let _ ← Parser.expectWord "PEN"
      commandWith .graphicsPen 1 1
    | "DRAW" => graphics "DRAW"
    | "DRAWR" => graphics "DRAWR"
    | "MOVE" => graphics "MOVE"
    | "MOVER" => graphics "MOVER"
    | "PLOT" => graphics "PLOT"
    | "PLOTR" => graphics "PLOTR"
    | "FOR" => forLoop
    | "NEXT" => next
    | "WHILE" => do
      let cond ← expressionOf .number
      pure (.whileLoop cond)
    | "WEND" => pure .wend
    | "GOSUB" => do
      let l ← labelRef
      pure (.gosub l.2)
    | "RETURN" => pure .ret
    | "ON" => onJump s t
    | "DATA" => data
    | "READ" => do
      let targets ← Parser.commaList target
      pure (.read targets)
    | "RESTORE" => restore
    | "DIM" => do
      let arrays ← Parser.commaList dimension
      pure (.dim arrays)
    | "ERASE" => do
      let names ← Parser.commaList (Parser.expect .identifier)
      pure (.erase (names.map Token.lexeme))
    | "DEF" => defFn
    | "INPUT" => input
    | "AFTER" => timer "AFTER"
    | "EVERY" => timer "EVERY"
    | w => Parser.fail t (.unexpectedKeyword w)

/-- A statement other than `IF` that starts with the token `t`. -/
def simple (s : Setting) (t : Token) (ts : List Token) : Outcome Stmt ts :=
  match t.kind with
  | .comment => .ok ⟨.comment t.lexeme, ts, List.suffix_refl ts⟩
  | .identifier =>
    (do
      let place ←
        if isFnName t.lexeme then Parser.fail t (.assignsFunction t.lexeme) else place t
      let _ ← Parser.expect .equals
      let value ← expressionOf place.type
      pure (.assign place value) : Parser Stmt) ts
  | .rsx => rsx t.lexeme ts
  | .keyword => keywordStatement s t ts
  | _ => .error (.rejected t (.expected "statement" t) (t :: ts))

mutual

/-- The statements up to the end of the line or, in a branch, up to an `ELSE`. -/
def statements (s : Setting) (inBranch : Bool) (ts : List Token) : Outcome (List Stmt) ts :=
  match ts with
  | [] => .ok ⟨[], [], List.suffix_refl []⟩
  | t :: r =>
    if t.kind = .colon then (statements s inBranch r).widen (List.suffix_cons t r)
    else if t.kind = .eol ∨ t.kind = .eof then .ok ⟨[], t :: r, List.suffix_refl _⟩
    else if t.isWord "ELSE" then
      if inBranch then .ok ⟨[], t :: r, List.suffix_refl _⟩
      else .error (.rejected t .elseWithoutIf (t :: r))
    else
      match statement s t r with
      | .error e => .error e
      | .ok ⟨stmt, rest, h⟩ =>
        if stmt.isBranch || endsStatement (rest.headD Token.endMark) then
          match statements s inBranch rest with
          | .error e => .error e
          | .ok q =>
            .ok ⟨stmt :: q.value, q.rest, (q.suffix.trans h).trans (List.suffix_cons t r)⟩
        else
          .error (.rejected (rest.headD Token.endMark)
            (.unexpectedAfter (rest.headD Token.endMark)) rest)
termination_by ts.length * 4
decreasing_by
  · simp only [List.length_cons]
    omega
  · simp only [List.length_cons]
    omega
  · simp only [List.length_cons]
    have := h.length_le
    omega

/-- A statement that starts with the token `t`. -/
def statement (s : Setting) (t : Token) (ts : List Token) : Outcome Stmt ts :=
  if t.isWord "IF" then
    match expressionOf .number ts with
    | .error e => .error e
    | .ok ⟨cond, rest, h⟩ =>
      match consequence s rest with
      | .error e => .error e
      | .ok ⟨yes, rest', h'⟩ =>
        match rest', h' with
        | [], h' => .ok ⟨.branch cond yes none, [], h'.trans h⟩
        | kw :: r, h' =>
          if kw.isWord "ELSE" then
            match alternative s kw r with
            | .error e => .error e
            | .ok q =>
              .ok ⟨.branch cond yes (if q.value.isEmpty then none else some q.value), q.rest,
                ((q.suffix.trans (List.suffix_cons kw r)).trans h').trans h⟩
          else .ok ⟨.branch cond yes none, kw :: r, h'.trans h⟩
  else simple s t ts
termination_by ts.length * 4 + 3
decreasing_by
  · have := h.length_le
    omega
  · have := h.length_le
    have := h'.length_le
    simp only [List.length_cons] at this
    omega

/-- What an `IF` does if its condition holds, from its `THEN` or `GOTO` on. -/
def consequence (s : Setting) (ts : List Token) : Outcome (List Stmt) ts :=
  match ts with
  | [] => .error (.rejected Token.endMark (.expected "THEN or GOTO" Token.endMark) [])
  | kw :: r =>
    if kw.isWord "THEN" then (alternative s kw r).widen (List.suffix_cons kw r)
    else if kw.isWord "GOTO" then
      match unsupported s kw kw.lexeme kw.stop r with
      | .error e => .error e
      | .ok q => .ok ⟨[q.value], q.rest, q.suffix.trans (List.suffix_cons kw r)⟩
    else .error (.rejected kw (.expected "THEN or GOTO" kw) (kw :: r))
termination_by ts.length * 4 + 2
decreasing_by
  simp only [List.length_cons]
  omega

/-- The body after the `THEN` or `ELSE` token `kw`: a label to jump to, which has no
counterpart, or statements. -/
def alternative (s : Setting) (kw : Token) (ts : List Token) : Outcome (List Stmt) ts :=
  if (ts.headD Token.endMark).kind = .number then
    match unsupported s kw "GOTO" kw.stop ts with
    | .error e => .error e
    | .ok q => .ok ⟨[q.value], q.rest, q.suffix⟩
  else statements s true ts
termination_by ts.length * 4 + 1
decreasing_by omega

end

end Locomotive.Parse
