import Locomotive.Proofs.Parse.Alike

/-!
# What the parsers of statements give

One equation for each function that reads a part of a statement by recursion, or the statements of a line, without
the proofs that what remains is a suffix.
-/

namespace Locomotive.Parse

open Parse.Outcome Parse.Parser

/-! ## Lists -/

theorem read_formattedValues (format : Expr) (ts : List Token) : (formattedValues format ts).read =
    (expressionOf .number ts).read.andThen fun e rest =>
      if (rest.headD Token.endMark).kind = .semicolon ∨ (rest.headD Token.endMark).kind = .comma then
        if endsStatement (rest.tail.headD Token.endMark) then .ok ([.formatted format e, .semicolon], rest.tail)
        else (formattedValues format rest.tail).read.andThen fun is rest => .ok (.formatted format e :: is, rest)
      else .ok ([.formatted format e], rest) := by
  rw [formattedValues]
  rcases expressionOf .number ts with f | ⟨e, _ | ⟨t, r⟩, hs⟩
  · rfl
  · rfl
  · simp only [read_ok, Reply.andThen_ok, List.headD_cons, List.tail_cons]
    by_cases hsep : t.kind = .semicolon ∨ t.kind = .comma <;> simp only [hsep, if_true, if_false]
    · by_cases hend : endsStatement (r.headD Token.endMark) = true <;>
        simp only [hend, if_true, if_false, Bool.false_eq_true]
      · rfl
      · cases formattedValues format r <;> rfl
    · rfl

theorem read_printItems (t : Token) (r : List Token) : (printItems (t :: r)).read =
    if endsStatement t then .ok ([], t :: r)
    else (printItem t r).read.andThen fun items rest =>
      (printItems rest).read.andThen fun is rest => .ok (items ++ is, rest) := by
  rw [printItems]
  by_cases hend : endsStatement t = true <;> simp only [hend, if_true, if_false, Bool.false_eq_true]
  · rfl
  · rcases printItem t r with f | ⟨items, rest, hs⟩
    · rfl
    · simp only [read_ok, Reply.andThen_ok]
      cases printItems rest <;> rfl

theorem read_rsxArgs (t : Token) (r : List Token) : (rsxArgs (t :: r)).read =
    if t.kind = .comma then (rsxArg r).read.andThen fun a rest =>
      (rsxArgs rest).read.andThen fun as rest => .ok (a :: as, rest)
    else .ok ([], t :: r) := by
  rw [rsxArgs]
  by_cases hcomma : t.kind = .comma <;> simp only [hcomma, if_true, if_false]
  · rcases rsxArg r with f | ⟨a, rest, hs⟩
    · rfl
    · simp only [read_ok, Reply.andThen_ok]
      cases rsxArgs rest <;> rfl
  · rfl

/-! ## Statements -/

variable (s : Setting)

theorem read_statements (b : Bool) (t : Token) (r : List Token) : (statements s b (t :: r)).read =
    if t.kind = .colon then (statements s b r).read
    else if t.EndsLine then .ok ([], t :: r)
    else if t.isWord "ELSE" then
      if b then .ok ([], t :: r) else .error (.rejected t .elseWithoutIf (t :: r))
    else (statement s t r).read.andThen fun st rest =>
      if st.isBranch || endsStatement (rest.headD Token.endMark) then
        (statements s b rest).read.andThen fun ss rest => .ok (st :: ss, rest)
      else .error (.rejected (rest.headD Token.endMark) (.unexpectedAfter (rest.headD Token.endMark)) rest) := by
  rw [statements]
  by_cases hcolon : t.kind = .colon
  · rw [if_pos hcolon, if_pos hcolon, read_widen]
  rw [if_neg hcolon, if_neg hcolon]
  by_cases hends : t.EndsLine
  · have hkind : t.kind = .eol ∨ t.kind = .eof := hends
    rw [if_pos hkind, if_pos hends, read_ok]
  have hkind : ¬ (t.kind = .eol ∨ t.kind = .eof) := hends
  rw [if_neg hkind, if_neg hends]
  by_cases helse : t.isWord "ELSE" = true
  · rw [if_pos helse, if_pos helse]
    cases b <;> rfl
  rw [if_neg helse, if_neg helse]
  rcases statement s t r with f | ⟨st, rest, hsuf⟩
  · rfl
  · simp only [read_ok, Reply.andThen_ok]
    cases st.isBranch || endsStatement (rest.headD Token.endMark) with
    | false => rfl
    | true =>
      simp only [if_true]
      cases statements s b rest <;> rfl

theorem read_statement (t : Token) (ts : List Token) : (statement s t ts).read =
    if t.isWord "IF" then
      (expressionOf .number ts).read.andThen fun cond rest =>
        (consequence s rest).read.andThen fun yes mid =>
          if (mid.headD Token.endMark).isWord "ELSE" then
            (alternative s (mid.headD Token.endMark) mid.tail).read.andThen fun no rest =>
              .ok (.branch cond yes (if no.isEmpty then none else some no), rest)
          else .ok (.branch cond yes none, mid)
    else (simple s t ts).read := by
  rw [statement]
  by_cases hif : t.isWord "IF" = true
  · rw [if_pos hif, if_pos hif]
    rcases expressionOf .number ts with f | ⟨cond, rest, hsuf⟩
    · rfl
    simp only [read_ok, Reply.andThen_ok]
    rcases consequence s rest with f | ⟨yes, _ | ⟨kw, r⟩, hsuf'⟩
    · rfl
    · rfl
    · simp only [read_ok, Reply.andThen_ok, List.headD_cons, List.tail_cons]
      by_cases helse : kw.isWord "ELSE" = true <;> simp only [helse, if_true, if_false, Bool.false_eq_true]
      · cases alternative s kw r <;> rfl
      · rfl
  · rw [if_neg hif, if_neg hif]

theorem read_consequence (kw : Token) (r : List Token) : (consequence s (kw :: r)).read =
    if kw.isWord "THEN" then (alternative s kw r).read
    else if kw.isWord "GOTO" then
      (unsupported s kw kw.lexeme kw.stop r).read.andThen fun st rest => .ok ([st], rest)
    else .error (.rejected kw (.expected "THEN or GOTO" kw) (kw :: r)) := by
  rw [consequence]
  by_cases hthen : kw.isWord "THEN" = true
  · rw [if_pos hthen, if_pos hthen, read_widen]
  rw [if_neg hthen, if_neg hthen]
  by_cases hgoto : kw.isWord "GOTO" = true
  · rw [if_pos hgoto, if_pos hgoto]
    cases unsupported s kw kw.lexeme kw.stop r <;> rfl
  · rw [if_neg hgoto, if_neg hgoto, read_error]

theorem read_alternative (kw : Token) (ts : List Token) : (alternative s kw ts).read =
    if (ts.headD Token.endMark).kind = .number then
      (unsupported s kw "GOTO" kw.stop ts).read.andThen fun st rest => .ok ([st], rest)
    else (statements s true ts).read := by
  rw [alternative]
  by_cases hnum : (ts.headD Token.endMark).kind = .number
  · rw [if_pos hnum, if_pos hnum]
    cases unsupported s kw "GOTO" kw.stop ts <;> rfl
  · rw [if_neg hnum, if_neg hnum]

end Locomotive.Parse
