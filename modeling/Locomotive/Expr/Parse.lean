import Locomotive.Expr
import Locomotive.Parse

/-!
# Reading expressions

Operators bind in layers, from the loosest: `XOR`, `OR`, `AND`, `NOT`, comparisons,
`+ -`, `MOD`, `\`, `* /`, `^`, the signs, and last the primaries. All operators between
two operands associate to the left. Types are checked on the way: only `+` and the
comparisons take strings, and only two operands of the same type.

* `expression`: one expression, of whatever type.
* `expressionOf`: an expression of a given type.
* `numbers`: one or more numeric expressions with commas between them.
-/

namespace Locomotive.Parse

/-- The layers of binding strength, from the tightest. -/
inductive Layer where
  | primary
  | sign
  | power
  | product
  | intDiv
  | modulo
  | sum
  | comparison
  | negation
  | conjunction
  | disjunction
  | exclusive
  deriving DecidableEq, Repr

namespace Layer

/-- The place of a layer, counted from the tightest. -/
def rank : Layer → Nat
  | primary => 0
  | sign => 1
  | power => 2
  | product => 3
  | intDiv => 4
  | modulo => 5
  | sum => 6
  | comparison => 7
  | negation => 8
  | conjunction => 9
  | disjunction => 10
  | exclusive => 11

/-- The next tighter layer, which the operands belong to. -/
def tighter : Layer → Layer
  | primary => primary
  | sign => primary
  | power => sign
  | product => power
  | intDiv => product
  | modulo => intDiv
  | sum => modulo
  | comparison => sum
  | negation => comparison
  | conjunction => negation
  | disjunction => conjunction
  | exclusive => disjunction

theorem rank_le (l : Layer) : l.rank ≤ 11 := by cases l <;> decide

theorem rank_tighter_lt {l : Layer} (h : l ≠ primary) : l.tighter.rank < l.rank := by
  cases l <;> first | exact absurd rfl h | decide

/-- The operator of a layer that a token before an operand is. -/
def before? (l : Layer) (t : Token) : Option UnaryOp :=
  match l with
  | negation => if t.isWord "NOT" then some .not else none
  | sign => if t.kind = .minus ∨ t.kind = .plus then some (.ofText t.lexeme) else none
  | _ => none

/-- The operator of a layer that a token between operands is. -/
def between? (l : Layer) (t : Token) : Option BinaryOp :=
  match l with
  | exclusive => if t.isWord "XOR" then some .xor else none
  | disjunction => if t.isWord "OR" then some .or else none
  | conjunction => if t.isWord "AND" then some .and else none
  | comparison =>
    match t.kind with
    | .equals => some .eq
    | .notEqual => some .ne
    | .less => some .lt
    | .greater => some .gt
    | .lessEqual => some .le
    | .greaterEqual => some .ge
    | _ => none
  | sum => if t.kind = .plus ∨ t.kind = .minus then some (.ofText t.lexeme) else none
  | modulo => if t.isWord "MOD" then some .mod else none
  | intDiv => if t.kind = .backslash then some .intDiv else none
  | product =>
    match t.kind with
    | .star => some .mul
    | .slash => some .div
    | _ => none
  | power => if t.kind = .caret then some .pow else none
  | _ => none

/-- What speaks against an operator of a layer, written as `t`, before an operand. -/
def complaintBefore? (l : Layer) (t : Token) (operand : Expr) : Option Complaint :=
  if operand.type = .number then none
  else
    match l with
    | negation => some .nonNumericNot
    | _ => some (.nonNumericSign t.lexeme)

/-- What speaks against an operator of a layer, written as `t`, between two operands. -/
def complaintBetween? (l : Layer) (op : BinaryOp) (t : Token) (left right : Expr) :
    Option Complaint :=
  match l with
  | comparison =>
    if left.type = right.type then none else some (.incomparable left.type right.type)
  | sum =>
    if (t.kind = .plus ∧ left.type = right.type) ∨
        (t.kind = .minus ∧ left.type = .number ∧ right.type = .number) then none
    else some (.badSum left.type t.lexeme right.type)
  | _ =>
    if left.type = .number ∧ right.type = .number then none
    else some (.nonNumericOperands op.text)

end Layer

/-- The name is that of a function the program defines. -/
def isFnName (name : String) : Bool := name.length > 2 && Text.startsWith name "fn"

/-- The radix of a number token. -/
def radix? : Token.Kind → Option Radix
  | .number => some .decimal
  | .hexNumber => some .hex
  | .binNumber => some .binary
  | _ => none

/-- A call of a built-in function with the given arguments; `t` is its name. -/
def builtinCall (f : Builtin) (t : Token) (args : List Expr) : Except Complaint Expr :=
  match f.params? args.length with
  | none => .error (.argumentCount t.lexeme args.length)
  | some params =>
    match Builtin.mismatch? 1 params (args.map Expr.type) with
    | some (i, want) => .error (.argumentType t.lexeme i want)
    | none => .ok (.call f args)

mutual

/-- An expression of a layer. It takes at least the first token. -/
def atLayer (l : Layer) (ts : List Token) : Outcome Expr ts.tail :=
  match ts with
  | [] => .error (.rejected Token.endMark (.expected "expression" Token.endMark) [])
  | t :: r =>
    match l.before? t with
    | some op =>
      match atLayer l r with
      | .error e => .error e
      | .ok ⟨operand, rest, h⟩ =>
        match l.complaintBefore? t operand with
        | some c => .error (.rejected t c rest)
        | none => .ok ⟨.unary op operand, rest, h.trans (List.tail_suffix r)⟩
    | none =>
      if _hl : l = .primary then primary t r
      else
        match atLayer l.tighter (t :: r) with
        | .error e => .error e
        | .ok ⟨left, rest, h⟩ => (operators l left rest).widen h
termination_by ts.length * 16 + l.rank + 2
decreasing_by
  · simp only [List.length_cons]
    omega
  · simp only [List.length_cons]
    omega
  · have := Layer.rank_tighter_lt _hl
    omega
  · simp only [List.length_cons]
    have := h.length_le
    simp only [List.tail_cons] at this
    omega

/-- The operators of a layer, and their right operands, after the operand `left`. -/
def operators (l : Layer) (left : Expr) (ts : List Token) : Outcome Expr ts :=
  match ts with
  | [] => .ok ⟨left, [], List.suffix_refl []⟩
  | t :: r =>
    match l.between? t with
    | none => .ok ⟨left, t :: r, List.suffix_refl _⟩
    | some op =>
      match atLayer l.tighter r with
      | .error e => .error e
      | .ok ⟨right, rest, h⟩ =>
        match l.complaintBetween? op t left right with
        | some c => .error (.rejected t c rest)
        | none =>
          (operators l (.binary op left right) rest).widen
            ((h.trans (List.tail_suffix r)).trans (List.suffix_cons t r))
termination_by ts.length * 16 + 1
decreasing_by
  · simp only [List.length_cons]
    have := Layer.rank_le l.tighter
    omega
  · simp only [List.length_cons]
    have := h.length_le
    simp only [List.length_tail] at this
    omega

/-- A primary that starts with the token `t`: a literal, a variable, an array element, a
call, or an expression between parentheses. -/
def primary (t : Token) (ts : List Token) : Outcome Expr ts :=
  match radix? t.kind with
  | some radix => .ok ⟨.number radix t.lexeme t.line, ts, List.suffix_refl ts⟩
  | none =>
    match t.kind with
    | .string => .ok ⟨.string t.lexeme, ts, List.suffix_refl ts⟩
    | .identifier =>
      if isFnName t.lexeme then
        match arguments ts with
        | .error e => .error e
        | .ok ⟨args, rest, h⟩ => .ok ⟨.fn t.lexeme args, rest, h⟩
      else
        match ts with
        | [] => .ok ⟨.var t.lexeme, [], List.suffix_refl []⟩
        | o :: r =>
          if o.kind = .lparen ∨ o.kind = .lbracket then
            match indices o r with
            | .error e => .error e
            | .ok ⟨is, rest, h⟩ => .ok ⟨.index t.lexeme is, rest, h.trans (List.suffix_cons o r)⟩
          else .ok ⟨.var t.lexeme, o :: r, List.suffix_refl _⟩
    | .lparen =>
      match atLayer .exclusive ts with
      | .error e => .error e
      | .ok ⟨inner, rest, h⟩ =>
        match Parser.expect .rparen rest with
        | .error e => .error e
        | .ok ⟨_, rest', h'⟩ => .ok ⟨.paren inner, rest', h'.trans (h.trans (List.tail_suffix ts))⟩
    | .keyword =>
      if t.lexeme = "FN" then
        match ts with
        | [] =>
          .error (.rejected Token.endMark (.expected Token.Kind.identifier.name Token.endMark) [])
        | n :: r =>
          if n.kind = .identifier then
            match arguments r with
            | .error e => .error e
            | .ok ⟨args, rest, h⟩ =>
              .ok ⟨.fn ("fn" ++ n.lexeme) args, rest, h.trans (List.suffix_cons n r)⟩
          else .error (.rejected n (.expected Token.Kind.identifier.name n) r)
      else
        match Builtin.find? t.lexeme with
        | some f =>
          match arguments ts with
          | .error e => .error e
          | .ok ⟨args, rest, h⟩ =>
            match builtinCall f t args with
            | .error c => .error (.rejected t c rest)
            | .ok e => .ok ⟨e, rest, h⟩
        | none => .error (.rejected t (.expected "expression" t) (t :: ts))
    | _ => .error (.rejected t (.expected "expression" t) (t :: ts))
termination_by ts.length * 16 + 17
decreasing_by
  · omega
  · simp only [List.length_cons]
    omega
  · have := Layer.rank_le .exclusive
    omega
  · simp only [List.length_cons]
    omega
  · omega

/-- The indices of an array element after the bracket `o`, and the bracket that closes
them. -/
def indices (o : Token) (ts : List Token) : Outcome (List Expr) ts :=
  match expressions (some .number) ts with
  | .error e => .error e
  | .ok ⟨is, rest, h⟩ =>
    match Parser.expect (if o.kind = .lbracket then .rbracket else .rparen) rest with
    | .error e => .error e
    | .ok ⟨_, rest', h'⟩ => .ok ⟨is, rest', h'.trans (h.trans (List.tail_suffix ts))⟩
termination_by ts.length * 16 + 16

/-- The arguments of a call: none, or a list between parentheses, which may be empty. -/
def arguments (ts : List Token) : Outcome (List Expr) ts :=
  match ts with
  | [] => .ok ⟨[], [], List.suffix_refl []⟩
  | o :: r =>
    if o.kind = .lparen then
      if (r.headD Token.endMark).kind = .rparen then
        .ok ⟨[], r.tail, (List.tail_suffix r).trans (List.suffix_cons o r)⟩
      else
        match expressions none r with
        | .error e => .error e
        | .ok ⟨args, rest, h⟩ =>
          match Parser.expect .rparen rest with
          | .error e => .error e
          | .ok ⟨_, rest', h'⟩ =>
            .ok ⟨args, rest',
              h'.trans (h.trans ((List.tail_suffix r).trans (List.suffix_cons o r)))⟩
    else .ok ⟨[], o :: r, List.suffix_refl _⟩
termination_by ts.length * 16 + 1
decreasing_by
  simp only [List.length_cons]
  omega

/-- One or more expressions with commas between them, all of type `want` if one is
given. -/
def expressions (want : Option Ty) (ts : List Token) : Outcome (List Expr) ts.tail :=
  match atLayer .exclusive ts with
  | .error e => .error e
  | .ok ⟨e, rest, h⟩ =>
    match want.filter (· ≠ e.type) with
    | some w => .error (.rejected (ts.headD Token.endMark) (.wrongType w e.type) rest)
    | none =>
      match rest, h with
      | [], h => .ok ⟨[e], [], h⟩
      | c :: r, h =>
        if c.kind = .comma then
          match expressions want r with
          | .error e => .error e
          | .ok q =>
            .ok ⟨e :: q.value, q.rest,
              ((q.suffix.trans (List.tail_suffix r)).trans (List.suffix_cons c r)).trans h⟩
        else .ok ⟨[e], c :: r, h⟩
termination_by ts.length * 16 + 15
decreasing_by
  · have := Layer.rank_le .exclusive
    omega
  · have := h.length_le
    simp only [List.length_tail, List.length_cons] at this
    omega

end

/-- An expression. -/
def expression : Parser Expr := fun ts => (atLayer .exclusive ts).widen (List.tail_suffix ts)

/-- An expression of the given type. -/
def expressionOf (want : Ty) : Parser Expr := do
  let first ← Parser.peek
  let e ← expression
  if e.type = want then pure e else Parser.fail first (.wrongType want e.type)

/-- One or more numeric expressions with commas between them. -/
def numbers : Parser (List Expr) := fun ts =>
  (expressions (some .number) ts).widen (List.tail_suffix ts)

end Locomotive.Parse
