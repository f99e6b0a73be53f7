import Locomotive.Expr.Parse
import Locomotive.Proofs.Parse.Outcome

/-!
# The equations of the expression parser

What each function that reads a part of an expression gives, in terms of what the others
give, without the proofs that the remaining tokens are a suffix.
-/

namespace Locomotive.Parse

variable {l : Layer} {t : Token} {ts r : List Token}

theorem read_atLayer_nil (l : Layer) :
    (atLayer l []).read = .error (.rejected Token.endMark (.expected "expression" Token.endMark) []) := by
  rw [atLayer]; rfl

/-- An operator before an operand. -/
theorem read_atLayer_before {op : UnaryOp} (h : l.before? t = some op) :
    (atLayer l (t :: r)).read = (atLayer l r).read.andThen fun x rest =>
      match l.complaintBefore? t x with
      | some c => .error (.rejected t c rest)
      | none => .ok (.unary op x, rest) := by
  rw [atLayer]
  simp only [h]
  rcases atLayer l r with f | ⟨x, rest, hr⟩
  · rfl
  · simp only [read_ok, Reply.andThen_ok]
    cases l.complaintBefore? t x <;> rfl

theorem read_atLayer_primary : (atLayer .primary (t :: r)).read = (primary t r).read := by
  rw [atLayer]; rfl

theorem atLayer_tighter (h : l.before? t = none) (hl : l ≠ .primary) : atLayer l (t :: r) =
    match atLayer l.tighter (t :: r) with
    | .error e => .error e
    | .ok ⟨left, rest, h⟩ => (operators l left rest).widen h := by
  rw [atLayer]
  simp only [h]
  exact dif_neg hl

/-- A first operand of the next tighter layer, and operators. -/
theorem read_atLayer_tighter (h : l.before? t = none) (hl : l ≠ .primary) :
    (atLayer l (t :: r)).read =
      (atLayer l.tighter (t :: r)).read.andThen fun x rest => (operators l x rest).read := by
  rw [atLayer_tighter h hl]
  rcases atLayer l.tighter (t :: r) with f | ⟨x, rest, hr⟩
  · rfl
  · exact read_widen _ _

theorem read_operators_stop (x : Expr) (h : l.between? (ts.headD Token.endMark) = none) :
    (operators l x ts).read = .ok (x, ts) := by
  cases ts with
  | nil => rw [operators]; rfl
  | cons t r =>
    rw [List.headD_cons] at h
    rw [operators]
    simp only [h]; rfl

theorem read_operators_step {op : BinaryOp} (x : Expr) (h : l.between? t = some op) :
    (operators l x (t :: r)).read = (atLayer l.tighter r).read.andThen fun y rest =>
      match l.complaintBetween? op t x y with
      | some c => .error (.rejected t c rest)
      | none => (operators l (.binary op x y) rest).read := by
  rw [operators]
  simp only [h]
  rcases atLayer l.tighter r with f | ⟨y, rest, hr⟩
  · rfl
  · simp only [read_ok, Reply.andThen_ok]
    cases l.complaintBetween? op t x y with
    | some c => rfl
    | none => exact read_widen _ _

/-- A primary, by the kind of its first token. -/
theorem read_primary (t : Token) (ts : List Token) : (primary t ts).read =
    match radix? t.kind with
    | some radix => .ok (.number radix t.lexeme t.line, ts)
    | none =>
      match t.kind with
      | .string => .ok (.string t.lexeme, ts)
      | .identifier =>
        if isFnName t.lexeme then
          (arguments ts).read.andThen fun args rest => .ok (.fn t.lexeme args, rest)
        else if (ts.headD Token.endMark).kind = .lparen ∨ (ts.headD Token.endMark).kind = .lbracket then
          (indices (ts.headD Token.endMark) ts.tail).read.andThen fun is rest => .ok (.index t.lexeme is, rest)
        else .ok (.var t.lexeme, ts)
      | .lparen =>
        (atLayer .exclusive ts).read.andThen fun e rest =>
          (Parser.expect .rparen rest).read.andThen fun _ rest => .ok (.paren e, rest)
      | .keyword =>
        if t.lexeme = "FN" then
          (Parser.expect .identifier ts).read.andThen fun n rest =>
            (arguments rest).read.andThen fun args rest => .ok (.fn ("fn" ++ n.lexeme) args, rest)
        else
          match Builtin.find? t.lexeme with
          | some f =>
            (arguments ts).read.andThen fun args rest =>
              match builtinCall f t args with
              | .error c => .error (.rejected t c rest)
              | .ok e => .ok (e, rest)
          | none => .error (.rejected t (.expected "expression" t) (t :: ts))
      | _ => .error (.rejected t (.expected "expression" t) (t :: ts)) := by
  rw [primary.eq_def]
  cases radix? t.kind with
  | some radix => rfl
  | none =>
    dsimp only
    cases t.kind with
    | string => rfl
    | identifier =>
      by_cases hf : isFnName t.lexeme = true <;> simp only [hf, if_true, if_false, Bool.false_eq_true]
      · rcases arguments ts with f | ⟨args, rest, h⟩ <;> rfl
      · cases ts with
        | nil => rfl
        | cons o r =>
          by_cases ho : o.kind = .lparen ∨ o.kind = .lbracket <;>
            simp only [List.headD_cons, List.tail_cons, ho, if_true, if_false]
          · rcases indices o r with f | ⟨is, rest, h⟩ <;> rfl
          · rfl
    | lparen =>
      dsimp only
      rcases atLayer .exclusive ts with f | ⟨e, rest, h⟩
      · rfl
      · simp only [read_ok, Reply.andThen_ok]
        rcases Parser.expect .rparen rest with f | ⟨c, rest', h'⟩ <;> rfl
    | keyword =>
      by_cases hf : t.lexeme = "FN" <;> simp only [hf, if_true, if_false]
      · rw [Parser.read_expect]
        cases ts with
        | nil => rfl
        | cons n r =>
          by_cases hn : n.kind = .identifier <;>
            simp only [List.headD_cons, List.tail_cons, hn, if_true, if_false, Reply.andThen_ok]
          · rcases arguments r with f | ⟨args, rest, h⟩ <;> rfl
          · rfl
      · cases Builtin.find? t.lexeme with
        | none => rfl
        | some f =>
          dsimp only
          rcases arguments ts with f | ⟨args, rest, h⟩
          · rfl
          · simp only [read_ok, Reply.andThen_ok]
            cases builtinCall f t args <;> rfl
    | _ => rfl

theorem read_indices (o : Token) (ts : List Token) : (indices o ts).read =
    (expressions (some .number) ts).read.andThen fun is rest =>
      (Parser.expect (if o.kind = .lbracket then .rbracket else .rparen) rest).read.andThen fun _ rest =>
        .ok (is, rest) := by
  rw [indices]
  rcases expressions (some .number) ts with f | ⟨is, rest, h⟩
  · rfl
  · simp only [read_ok, Reply.andThen_ok]
    rcases Parser.expect _ rest with f | ⟨c, rest', h'⟩ <;> rfl

theorem read_arguments (ts : List Token) : (arguments ts).read =
    if (ts.headD Token.endMark).kind = .lparen then
      if (ts.tail.headD Token.endMark).kind = .rparen then .ok ([], ts.tail.tail)
      else (expressions none ts.tail).read.andThen fun args rest =>
        (Parser.expect .rparen rest).read.andThen fun _ rest => .ok (args, rest)
    else .ok ([], ts) := by
  cases ts with
  | nil => rw [arguments]; rfl
  | cons o r =>
    rw [arguments]
    by_cases ho : o.kind = .lparen <;> simp only [List.headD_cons, List.tail_cons, ho, if_true, if_false]
    · by_cases hc : (r.headD Token.endMark).kind = .rparen <;> simp only [hc, if_true, if_false]
      · rfl
      · rcases expressions none r with f | ⟨args, rest, h⟩
        · rfl
        · simp only [read_ok, Reply.andThen_ok]
          rcases Parser.expect .rparen rest with f | ⟨c, rest', h'⟩ <;> rfl
    · rfl

theorem read_expressions (want : Option Ty) (ts : List Token) : (expressions want ts).read =
    (atLayer .exclusive ts).read.andThen fun e rest =>
      match want.filter (· ≠ e.type) with
      | some w => .error (.rejected (ts.headD Token.endMark) (.wrongType w e.type) rest)
      | none =>
        if (rest.headD Token.endMark).kind = .comma then
          (expressions want rest.tail).read.andThen fun es rest => .ok (e :: es, rest)
        else .ok ([e], rest) := by
  rw [expressions]
  rcases atLayer .exclusive ts with f | ⟨e, rest, h⟩
  · rfl
  · simp only [read_ok, Reply.andThen_ok]
    cases want.filter (· ≠ e.type) with
    | some w => rfl
    | none =>
      dsimp only
      cases rest with
      | nil => rfl
      | cons c r =>
        by_cases hc : c.kind = .comma <;> simp only [List.headD_cons, List.tail_cons, hc, if_true, if_false]
        · rcases expressions want r with f | q <;> rfl
        · rfl

end Locomotive.Parse
