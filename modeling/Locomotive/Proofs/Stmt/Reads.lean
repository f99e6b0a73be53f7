import Locomotive.Proofs.Stmt.Take

/-!
# Readings of statements

How the statements of a line are read, as a relation between the tokens before, the statements, and
the tokens after them. It follows the grammar: statements with colons between them, up to the end of
the line or of a branch, and an `IF` with one or two branches, each of which is a jump or again a
list of statements. What holds of all statements that are read is proved by induction over it.

* `Parse.Reads`: the readings.
* `Parse.reads_of_run`, `Parse.Reads.run`: the parser finds the readings and no others.
* `Parse.Reads.holds`: induction over what is read.
* `Parse.ReadsLines`, `Parse.lines_eq_ok_iff`: the same for the lines of a program.
-/

namespace Locomotive

namespace Parse

/-- What is being read. -/
inductive Phase where
  /-- Statements up to the end of the line or, in a branch, up to an `ELSE`. -/
  | stmts (inBranch : Bool)
  /-- An `IF` from its `THEN` or `GOTO` on. -/
  | consequence
  /-- The body after the `THEN` or `ELSE` token. -/
  | body (kw : Token)

/-- The token ends a list of statements. -/
def EndsList (inBranch : Bool) (t : Token) : Prop :=
  t.kind = .eol ∨ t.kind = .eof ∨ t.isWord "ELSE" = true ∧ inBranch = true

/-- The token is the first one of a statement. -/
structure OpensStmt (t : Token) : Prop where
  colon : t.kind ≠ .colon
  eol : t.kind ≠ .eol
  eof : t.kind ≠ .eof
  noElse : t.isWord "ELSE" = false

/-- **A reading**: in the given phase, `ts` are the statements followed by `rest`. -/
inductive Reads (s : Setting) : Phase → List Token → List Stmt → List Token → Prop
  | nil (b : Bool) : Reads s (.stmts b) [] [] []
  | stop {b : Bool} {t : Token} {ts : List Token} (h : EndsList b t) : Reads s (.stmts b) (t :: ts) [] (t :: ts)
  | colon {b : Bool} {t : Token} {ts rest : List Token} {ss : List Stmt} (h : t.kind = .colon)
      (hss : Reads s (.stmts b) ts ss rest) : Reads s (.stmts b) (t :: ts) ss rest
  | simple {b : Bool} {t : Token} {ts rest : List Token} {ss : List Stmt} {q : Parsed Stmt ts} (ht : OpensStmt t)
      (hif : t.isWord "IF" = false) (hq : simple s t ts = .ok q)
      (hend : endsStatement (q.rest.headD Token.endMark) = true) (hss : Reads s (.stmts b) q.rest ss rest) :
      Reads s (.stmts b) (t :: ts) (q.value :: ss) rest
  | branch {b : Bool} {t : Token} {ts mid rest : List Token} {yes ss : List Stmt} {c : Parsed Expr ts}
      (ht : OpensStmt t) (hif : t.isWord "IF" = true) (hc : expressionOf .number ts = .ok c)
      (hyes : Reads s .consequence c.rest yes mid) (hnone : (mid.headD Token.endMark).isWord "ELSE" = false)
      (hss : Reads s (.stmts b) mid ss rest) : Reads s (.stmts b) (t :: ts) (.branch c.value yes none :: ss) rest
  | branchElse {b : Bool} {t kw : Token} {ts mid last rest : List Token} {yes no ss : List Stmt} {c : Parsed Expr ts}
      (ht : OpensStmt t) (hif : t.isWord "IF" = true) (hc : expressionOf .number ts = .ok c)
      (hyes : Reads s .consequence c.rest yes (kw :: mid)) (hkw : kw.isWord "ELSE" = true)
      (hno : Reads s (.body kw) mid no last) (hss : Reads s (.stmts b) last ss rest) :
      Reads s (.stmts b) (t :: ts) (.branch c.value yes (if no.isEmpty then none else some no) :: ss) rest
  | afterThen {kw : Token} {ts rest : List Token} {ss : List Stmt} (hkw : kw.isWord "THEN" = true)
      (hss : Reads s (.body kw) ts ss rest) : Reads s .consequence (kw :: ts) ss rest
  | goto {kw : Token} {ts : List Token} {q : Parsed Stmt ts} (hkw : kw.isWord "GOTO" = true)
      (hq : unsupported s kw kw.lexeme kw.stop ts = .ok q) : Reads s .consequence (kw :: ts) [q.value] q.rest
  | jump {kw : Token} {ts : List Token} {q : Parsed Stmt ts} (hnum : (ts.headD Token.endMark).kind = .number)
      (hq : unsupported s kw "GOTO" kw.stop ts = .ok q) : Reads s (.body kw) ts [q.value] q.rest
  | body {kw : Token} {ts rest : List Token} {ss : List Stmt} (hnum : (ts.headD Token.endMark).kind ≠ .number)
      (hss : Reads s (.stmts true) ts ss rest) : Reads s (.body kw) ts ss rest

/-- An `ELSE` ends what is being read. -/
def Phase.inBranch : Phase → Bool
  | .stmts b => b
  | _ => true

/-- **No jump**: what is read is neither a `GOTO` nor a label to jump to. -/
def Phase.Plain : Phase → List Token → Prop
  | .stmts _, _ => True
  | .consequence, ts => (ts.headD Token.endMark).isWord "GOTO" = false ∧ (ts.tail.headD Token.endMark).kind ≠ .number
  | .body _, ts => (ts.headD Token.endMark).kind ≠ .number

/-- **Statements go up to the end of their list.** -/
theorem Reads.endsList {s : Setting} {phase : Phase} {ts rest : List Token} {ss : List Stmt}
    (h : Reads s phase ts ss rest) (hplain : phase.Plain ts) : EndsList phase.inBranch (rest.headD Token.endMark) := by
  induction h with
  | nil => exact .inr (.inl rfl)
  | stop hend => exact hend
  | colon _ _ ih | simple _ _ _ _ _ ih | branch _ _ _ _ _ _ _ ih | branchElse _ _ _ _ _ _ _ _ _ ih => exact ih trivial
  | afterThen _ _ ih => exact ih hplain.2
  | goto hkw =>
    rw [Phase.Plain, List.headD_cons, hkw] at hplain
    exact absurd hplain.1 (by decide)
  | jump hnum => exact absurd hnum hplain
  | body _ _ ih => exact ih trivial

/-- The statements of a line go up to its end. -/
theorem Reads.endsLine {s : Setting} {ts rest : List Token} {ss : List Stmt} (h : Reads s (.stmts false) ts ss rest) :
    (rest.headD Token.endMark).EndsLine := by
  rcases h.endsList trivial with hends | hends | ⟨-, hbranch⟩
  · exact .inl hends
  · exact .inr hends
  · cases hbranch

/-- What has no counterpart is let through only where reading is not strict. -/
theorem lax_of_unsupported {s : Setting} {start : Token} {keyword : String} {stop : Int} {ts : List Token}
    {q : Parsed Stmt ts} (h : unsupported s start keyword stop ts = .ok q) : s.strict = false := by
  unfold unsupported at h
  split at h
  · cases h
  · rename_i hstrict
    exact Bool.eq_false_iff.2 hstrict

/-- **A jump** has no counterpart. -/
theorem Reads.jumps {s : Setting} {phase : Phase} {ts rest : List Token} {ss : List Stmt}
    (h : Reads s phase ts ss rest) (hjump : ¬ phase.Plain ts) :
    s.strict = false ∧ ∃ text line, ss = [.unsupported "GOTO" text line] := by
  induction h with
  | nil | stop | colon | simple | branch | branchElse => exact absurd trivial hjump
  | @afterThen kw ts _ _ hkw _ ih =>
    refine ih fun hplain => hjump ⟨?_, hplain⟩
    simp [Token.isWord, eq_of_isWord hkw]
  | @goto kw ts q hkw hq =>
    obtain ⟨⟨text, hvalue⟩, -⟩ := of_unsupported (read_eq_ok hq)
    exact ⟨lax_of_unsupported hq, text, kw.line, by rw [hvalue, (eq_of_isWord hkw).2]⟩
  | @jump kw ts q _ hq =>
    obtain ⟨⟨text, hvalue⟩, -⟩ := of_unsupported (read_eq_ok hq)
    exact ⟨lax_of_unsupported hq, text, kw.line, by rw [hvalue]⟩
  | body hnum => exact absurd hnum hjump

/-- Nothing is read where a list of statements ends. -/
theorem Reads.eq_nil {s : Setting} {b : Bool} {ts rest : List Token} {ss : List Stmt}
    (h : Reads s (.stmts b) ts ss rest) (hend : EndsList true (ts.headD Token.endMark)) : ss = [] ∧ rest = ts := by
  have hopens : ∀ {t : Token}, OpensStmt t → ¬ EndsList true t := by
    rintro t ht (hend | hend | ⟨hend, -⟩)
    · exact ht.eol hend
    · exact ht.eof hend
    · rw [ht.noElse] at hend
      cases hend
  cases h with
  | nil | stop => exact ⟨rfl, rfl⟩
  | @colon _ t _ _ _ hcolon _ =>
    have hword : t.isWord "ELSE" = false := by simp [Token.isWord, hcolon]
    simp [EndsList, hcolon, hword] at hend
  | simple ht => exact absurd hend (hopens ht)
  | branch ht => exact absurd hend (hopens ht)
  | branchElse ht => exact absurd hend (hopens ht)

/-! ## The readings are what is read -/

/-- What is read in a phase. -/
def Phase.run (s : Setting) : Phase → List Token → Reply (List Stmt)
  | .stmts b, ts => (statements s b ts).read
  | .consequence, ts => (Parse.consequence s ts).read
  | .body kw, ts => (alternative s kw ts).read

/-- How much there is to read. A body counts for more than the statements that it may be. -/
def Phase.size : Phase → List Token → Nat
  | .body _, ts => 2 * ts.length + 1
  | _, ts => 2 * ts.length

/-- **Whatever is read** has a reading. -/
theorem reads_of_run {s : Setting} (phase : Phase) (ts : List Token) {ss : List Stmt} {rest : List Token}
    (h : phase.run s ts = .ok (ss, rest)) : Reads s phase ts ss rest := by
  match phase, ts with
  | .stmts b, [] =>
    rw [Phase.run, statements] at h
    cases h
    exact .nil b
  | .stmts b, t :: r =>
    rw [Phase.run, read_statements] at h
    split at h
    · rename_i hcolon
      exact .colon hcolon (reads_of_run (.stmts b) r h)
    rename_i hcolon
    split at h
    · rename_i hend
      cases h
      exact .stop (hend.imp_right .inl)
    rename_i hend
    split at h
    · rename_i helse
      split at h
      · rename_i hb
        cases h
        exact .stop (.inr (.inr ⟨helse, hb⟩))
      · cases h
    rename_i helse
    have ht : OpensStmt t := ⟨hcolon, fun hk => hend (.inl hk), fun hk => hend (.inr hk), by simpa using helse⟩
    obtain ⟨st, mid, hst, h⟩ := Reply.andThen_eq_ok h
    have hmid := (suffix_of_read hst).length_le
    split at h
    case isFalse => cases h
    rename_i hafter
    obtain ⟨ss, rest, hss, h⟩ := Reply.andThen_eq_ok h
    cases h
    have hss := reads_of_run (.stmts b) mid hss
    -- only an `IF` holds lists of statements, which have readings of their own
    rw [read_statement] at hst
    split at hst
    · rename_i hif
      obtain ⟨cond, after, hcond, hst⟩ := Reply.andThen_eq_ok hst
      obtain ⟨c, hc, rfl, rfl⟩ := exists_of_read hcond
      obtain ⟨yes, mid', hyes, hst⟩ := Reply.andThen_eq_ok hst
      have hcond := c.suffix.length_le
      have hlen := (suffix_of_read hyes).length_le
      have hyes := reads_of_run .consequence c.rest hyes
      split at hst
      · rename_i hkw
        obtain ⟨no, last, hno, hst⟩ := Reply.andThen_eq_ok hst
        cases hst
        cases mid' with
        | nil => cases hkw
        | cons kw r' =>
          have hlt : r'.length + 1 ≤ c.rest.length := by simpa using hlen
          exact .branchElse ht hif hc hyes hkw (reads_of_run (.body kw) r' hno) hss
      · rename_i hkw
        cases hst
        exact .branch ht hif hc hyes (Bool.eq_false_iff.2 hkw) hss
    · rename_i hif
      obtain ⟨q, hq, rfl, rfl⟩ := exists_of_read hst
      rw [simple_isBranch hq, Bool.false_or] at hafter
      exact .simple ht (Bool.eq_false_iff.2 hif) hq hafter hss
  | .consequence, [] =>
    rw [Phase.run, consequence] at h
    cases h
  | .consequence, kw :: r =>
    rw [Phase.run, read_consequence] at h
    split at h
    · rename_i hkw
      exact .afterThen hkw (reads_of_run (.body kw) r h)
    split at h
    · rename_i hkw
      obtain ⟨st, mid, hread, h⟩ := Reply.andThen_eq_ok h
      obtain ⟨q, hq, rfl, rfl⟩ := exists_of_read hread
      cases h
      exact .goto hkw hq
    · cases h
  | .body kw, ts =>
    rw [Phase.run, read_alternative] at h
    split at h
    · rename_i hnum
      obtain ⟨st, mid, hread, h⟩ := Reply.andThen_eq_ok h
      obtain ⟨q, hq, rfl, rfl⟩ := exists_of_read hread
      cases h
      exact .jump hnum hq
    · rename_i hnum
      exact .body hnum (reads_of_run (.stmts true) ts h)
termination_by phase.size ts
decreasing_by
  all_goals simp only [Phase.size, List.length_cons]
  all_goals omega

theorem read_statements_of_opens {s : Setting} {t : Token} (ht : OpensStmt t) (b : Bool) (r : List Token) : (statements s b (t :: r)).read =
    (statement s t r).read.andThen fun st rest =>
      if st.isBranch || endsStatement (rest.headD Token.endMark) then
        (statements s b rest).read.andThen fun ss rest => .ok (st :: ss, rest)
      else .error (.rejected (rest.headD Token.endMark) (.unexpectedAfter (rest.headD Token.endMark)) rest) := by
  have hends : ¬ t.EndsLine := not_or.2 ⟨ht.eol, ht.eof⟩
  rw [read_statements, if_neg ht.colon, if_neg hends, if_neg (by rw [ht.noElse]; decide)]

/-- **A reading is what is read.** -/
theorem Reads.run {s : Setting} {phase : Phase} {ts rest : List Token} {ss : List Stmt} (h : Reads s phase ts ss rest) :
    phase.run s ts = .ok (ss, rest) := by
  induction h with
  | nil b =>
    show (statements s b []).read = _
    rw [statements]
    rfl
  | @stop b t ts hend =>
    show (statements s b (t :: ts)).read = _
    rw [read_statements]
    rcases hend with hend | hend | ⟨hend, hb⟩
    · rw [if_neg (by rw [hend]; decide), if_pos (.inl hend)]
    · rw [if_neg (by rw [hend]; decide), if_pos (.inr hend)]
    · have hkind := (eq_of_isWord hend).1
      rw [if_neg (by rw [hkind]; decide), if_neg (by simp [Token.EndsLine, hkind]), if_pos hend, if_pos hb]
  | @colon b t ts rest ss hcolon _ ih =>
    show (statements s b (t :: ts)).read = _
    rw [read_statements, if_pos hcolon]
    exact ih
  | @simple b t ts rest ss q ht hif hq hend _ ih =>
    show (statements s b (t :: ts)).read = _
    rw [read_statements_of_opens ht, read_statement, if_neg (by rw [hif]; decide), read_eq_ok hq, Reply.andThen_ok,
      if_pos (by rw [hend, Bool.or_true])]
    rw [show (statements s b q.rest).read = _ from ih, Reply.andThen_ok]
  | @branch b t ts mid rest yes ss c ht hif hc _ hnone _ ihyes ih =>
    show (statements s b (t :: ts)).read = _
    rw [read_statements_of_opens ht, read_statement, if_pos hif, read_eq_ok hc, Reply.andThen_ok,
      show (consequence s c.rest).read = _ from ihyes, Reply.andThen_ok, if_neg (by rw [hnone]; decide),
      Reply.andThen_ok, if_pos (by rfl), show (statements s b mid).read = _ from ih, Reply.andThen_ok]
  | @branchElse b t kw ts mid last rest yes no ss c ht hif hc _ hkw _ _ ihyes ihno ih =>
    show (statements s b (t :: ts)).read = _
    rw [read_statements_of_opens ht, read_statement, if_pos hif, read_eq_ok hc, Reply.andThen_ok,
      show (consequence s c.rest).read = _ from ihyes, Reply.andThen_ok, List.headD_cons, List.tail_cons, if_pos hkw,
      show (alternative s kw mid).read = _ from ihno, Reply.andThen_ok, Reply.andThen_ok, if_pos (by rfl),
      show (statements s b last).read = _ from ih, Reply.andThen_ok]
  | @afterThen kw ts rest ss hkw _ ih =>
    show (consequence s (kw :: ts)).read = _
    rw [read_consequence, if_pos hkw]
    exact ih
  | @goto kw ts q hkw hq =>
    have hthen : kw.isWord "THEN" = false := by simp [Token.isWord, (eq_of_isWord hkw).2]
    show (consequence s (kw :: ts)).read = _
    rw [read_consequence, if_neg (by rw [hthen]; decide), if_pos hkw, read_eq_ok hq, Reply.andThen_ok]
  | @jump kw ts q hnum hq =>
    show (alternative s kw ts).read = _
    rw [read_alternative, if_pos hnum, read_eq_ok hq, Reply.andThen_ok]
  | @body kw ts rest ss hnum _ ih =>
    show (alternative s kw ts).read = _
    rw [read_alternative, if_neg hnum]
    exact ih

theorem suffix_of_reads {s : Setting} {phase : Phase} {ts rest : List Token} {ss : List Stmt}
    (h : Reads s phase ts ss rest) : rest <:+ ts := by
  have hrun := h.run
  cases phase <;> exact suffix_of_read hrun

/-- What is known of the tokens, with the keyword before a body. -/
def Phase.Knows (Q : List Token → Prop) : Phase → List Token → Prop
  | .body kw, ts => kw.kind = .keyword ∧ Q (kw :: ts)
  | _, ts => Q ts

/-- **What holds of whatever is read**: it holds of no statements, and stays true with one more in front. -/
theorem Reads.holds {s : Setting} {P : List Stmt → Prop} {Q : List Token → Prop}
    (hQ : ∀ {ts rest : List Token}, rest <:+ ts → Q ts → Q rest) (hnil : P [])
    (hsimple : ∀ {t : Token} {ts : List Token} {ss : List Stmt} {q : Parsed Stmt ts}, Q (t :: ts) →
      Parse.simple s t ts = .ok q → P ss → P (q.value :: ss))
    (hbranch : ∀ {ts : List Token} {yes no ss : List Stmt} {c : Parsed Expr ts}, Q ts → expressionOf .number ts = .ok c →
      P yes → P no → P ss → P (.branch c.value yes (if no.isEmpty then none else some no) :: ss))
    (hjump : ∀ {kw : Token} {keyword : String} {ts : List Token} {q : Parsed Stmt ts}, kw.kind = .keyword →
      Q (kw :: ts) → unsupported s kw keyword kw.stop ts = .ok q → P [q.value])
    {phase : Phase} {ts rest : List Token} {ss : List Stmt} (h : Reads s phase ts ss rest) (hts : phase.Knows Q ts) :
    P ss := by
  induction h with
  | nil | stop => exact hnil
  | colon _ _ ih => exact ih (hQ (List.suffix_cons _ _) hts)
  | @simple _ t ts _ _ q _ _ hq _ _ ih => exact hsimple hts hq (ih (hQ (q.suffix.trans (List.suffix_cons t ts)) hts))
  | @branch _ t ts mid _ yes _ c _ _ hc hyes _ _ ihyes ih =>
    have hcond := hQ (List.suffix_cons t ts) hts
    have hyesTokens := hQ c.suffix hcond
    have hboth := hbranch hcond hc (ihyes hyesTokens) hnil (ih (hQ (suffix_of_reads hyes) hyesTokens))
    exact hboth
  | @branchElse _ t kw ts mid last _ yes no _ c _ _ hc hyes hkw hno _ ihyes ihno ih =>
    have hcond := hQ (List.suffix_cons t ts) hts
    have hyesTokens := hQ c.suffix hcond
    have helse := hQ (suffix_of_reads hyes) hyesTokens
    have hlast := hQ ((suffix_of_reads hno).trans (List.suffix_cons kw mid)) helse
    exact hbranch hcond hc (ihyes hyesTokens) (ihno ⟨(eq_of_isWord hkw).1, helse⟩) (ih hlast)
  | afterThen hkw _ ih => exact ih ⟨(eq_of_isWord hkw).1, hts⟩
  | goto hkw hq => exact hjump (eq_of_isWord hkw).1 hts hq
  | jump _ hq => exact hjump hts.1 hts.2 hq
  | @body kw ts _ _ _ _ ih => exact ih (hQ (List.suffix_cons kw ts) hts.2)

/-! ## Lines -/

/-- **The line is read** from its first token and those behind it. -/
structure ReadsLine (s : Setting) (t : Token) (ts : List Token) (l : Line) : Prop where
  number : l.number = t.line
  label : ∃ seen, lineLabel seen t ts = .ok l.label
  stmts : ∃ rest, Reads s (.stmts false) (afterLabel l.label t ts) l.stmts rest

theorem afterLabel_suffix (label : Option String) (t : Token) (ts : List Token) :
    afterLabel label t ts <:+ t :: ts := by
  unfold afterLabel
  split
  · exact List.suffix_cons t ts
  · exact List.suffix_refl _

/-- **The label at the front of a line** is new. -/
theorem lineLabel_eq_ok_iff {seen : List Line} {t : Token} {ts : List Token} {label : Option String} :
    lineLabel seen t ts = .ok label ↔
      t.kind ≠ .number ∧ label = none ∨
      t.kind = .number ∧ ∃ l, label? t.lexeme = some l ∧ label = some l ∧ l ∉ labelsOf seen := by
  unfold lineLabel
  by_cases hk : t.kind = .number
  · rw [if_pos hk]
    cases hl : label? t.lexeme with
    | none => simp [hk]
    | some l =>
      dsimp only
      cases hfind : seen.find? fun line => line.label == some l with
      | some line =>
        have hmem : l ∈ labelsOf seen := by
          have := List.find?_some hfind
          exact mem_labelsOf.2 ⟨line, List.mem_of_find?_eq_some hfind, by simpa using this⟩
        simp [hk, hmem]
      | none =>
        have hmem : l ∉ labelsOf seen := by
          intro hmem
          obtain ⟨line, hline, hlabel⟩ := mem_labelsOf.1 hmem
          have := List.find?_eq_none.1 hfind line hline
          simp [hlabel] at this
        simp [hk, hmem, eq_comm]
  · rw [if_neg hk]
    simp [hk, eq_comm]

/-- The label of a line is its first token, if that is a number. -/
theorem afterLabel_eq {seen : List Line} {t : Token} {ts : List Token} {label : Option String}
    (h : lineLabel seen t ts = .ok label) : afterLabel label t ts = if t.kind = .number then ts else t :: ts := by
  rcases lineLabel_eq_ok_iff.1 h with ⟨hkind, rfl⟩ | ⟨hkind, l, -, rfl, -⟩
  · rw [if_neg hkind]
    rfl
  · rw [if_pos hkind]
    rfl

/-- A label that cannot be read, or is not new, is to blame itself. -/
theorem lineLabel_error {seen : List Line} {t : Token} {ts : List Token} {f : Failure}
    (h : lineLabel seen t ts = .error f) : ∃ c rest, f = .rejected t c rest ∧ rest <:+ t :: ts := by
  unfold lineLabel at h
  split at h
  · split at h
    · exact ⟨_, _, (Except.error.inj h).symm, List.suffix_refl _⟩
    · split at h
      · exact ⟨_, _, (Except.error.inj h).symm, List.suffix_cons t ts⟩
      · cases h
  · cases h

/-- The end of a line leaves no trace. -/
theorem lines_eol (s : Setting) (seen : List Line) (last : Int) {t : Token} (ht : t.kind = .eol) (r : List Token) :
    lines s seen last (t :: r) = lines s seen last r := by
  have heof : t.kind ≠ .eof := by rw [ht]; decide
  rw [lines, if_neg heof, if_pos ht]

theorem lines_eof (s : Setting) (seen : List Line) (last : Int) {t : Token} (ht : t.kind = .eof) (r : List Token) :
    lines s seen last (t :: r) = .ok [] := by
  rw [lines, if_pos ht]

theorem lines_nil (s : Setting) (seen : List Line) (last : Int) : lines s seen last [] = .ok [] := by
  rw [lines]

/-- **A line** that starts with the token `t`: its label, its statements and its end; `seen` are the lines before. -/
def line (s : Setting) (seen : List Line) (t : Token) (r : List Token) : Reply Line :=
  match lineLabel seen t r with
  | .error e => .error e
  | .ok label => (statements s false (afterLabel label t r)).read.andThen fun ss rest =>
    .ok (⟨t.line, label, ss⟩, rest.tail)

/-- **A line with statements**, and the lines after it. -/
theorem lines_line (s : Setting) (seen : List Line) (last : Int) {t : Token} (ht : ¬ t.EndsLine) (r : List Token) :
    lines s seen last (t :: r) =
      match line s seen t r with
      | .error e => .error e
      | .ok (l, rest) =>
        match if s.strict then strictComplaint? last l else none with
        | some c => .error (.rejected (lastTaken (t :: r) rest) c rest)
        | none => (lines s (seen ++ [l]) ((l.label.map labelValue).getD last) rest).map (l :: ·) := by
  have heof : t.kind ≠ .eof := fun hk => ht (.inr hk)
  have heol : t.kind ≠ .eol := fun hk => ht (.inl hk)
  rw [lines, if_neg heof, if_neg heol, line]
  cases lineLabel seen t r with
  | error e => rfl
  | ok label =>
    dsimp only
    cases statements s false (afterLabel label t r) <;> rfl

/-- **The lines from a place on**; `seen` are the lines before it and `last` the value of the last label. -/
inductive ReadsLines (s : Setting) : (seen : List Line) → (last : Int) → List Token → List Line → Prop
  | nil {seen : List Line} {last : Int} : ReadsLines s seen last [] []
  | stop {seen : List Line} {last : Int} {t : Token} {r : List Token} (ht : t.kind = .eof) :
      ReadsLines s seen last (t :: r) []
  | skip {seen : List Line} {last : Int} {t : Token} {r : List Token} {ls : List Line} (ht : t.kind = .eol)
      (hls : ReadsLines s seen last r ls) : ReadsLines s seen last (t :: r) ls
  | line {seen : List Line} {last : Int} {t : Token} {r mid : List Token} {label : Option String} {ss : List Stmt}
      {ls : List Line} (ht : ¬ t.EndsLine) (hlabel : lineLabel seen t r = .ok label)
      (hss : Reads s (.stmts false) (afterLabel label t r) ss mid)
      (hstrict : s.strict = true → strictComplaint? last ⟨t.line, label, ss⟩ = none)
      (hls : ReadsLines s (seen ++ [⟨t.line, label, ss⟩]) ((label.map labelValue).getD last) mid.tail ls) :
      ReadsLines s seen last (t :: r) (⟨t.line, label, ss⟩ :: ls)

theorem lines_eq_ok_iff {s : Setting} {seen : List Line} {last : Int} {ts : List Token} {ls : List Line} :
    lines s seen last ts = .ok ls ↔ ReadsLines s seen last ts ls := by
  constructor
  · intro h
    fun_induction lines s seen last ts generalizing ls with
    | case1 =>
      cases h
      exact .nil
    | case2 seen last t r heof =>
      cases h
      exact .stop heof
    | case3 seen last t r heof heol ih => exact .skip heol (ih h)
    | case4 | case5 | case6 => cases h
    | case7 seen last t r heof heol label hlabel q hq line hc =>
      rename_i ih
      rcases hls : lines s (seen ++ [line]) ((label.map labelValue).getD last) q.rest.tail with e | ls' <;> rw [hls] at h
      · cases h
      cases h
      refine .line (not_or.2 ⟨heol, heof⟩) hlabel (reads_of_run (.stmts false) _ (read_eq_ok hq)) (fun hs => ?_) (ih hls)
      rwa [dif_pos hs] at hc
  · intro h
    induction h with
    | nil => exact lines_nil s _ _
    | stop ht => exact lines_eof s _ _ ht _
    | skip ht _ ih => rw [lines_eol s _ _ ht, ih]
    | @line seen last t r mid label ss ls ht hlabel hss hstrict _ ih =>
      have hnone : (if s.strict then strictComplaint? last ⟨t.line, label, ss⟩ else none) = none := by
        split
        · exact hstrict ‹_›
        · rfl
      rw [lines_line s _ _ ht, line, hlabel]
      dsimp only
      rw [show (statements s false (afterLabel label t r)).read = _ from hss.run, Reply.andThen_ok]
      dsimp only
      rw [hnone, ih]
      rfl

/-- **The labels of the lines** are all different, and none of them was there before. -/
theorem ReadsLines.labels {s : Setting} {seen : List Line} {last : Int} {ts : List Token} {ls : List Line}
    (h : ReadsLines s seen last ts ls) : (labelsOf ls).Nodup ∧ ∀ l ∈ labelsOf ls, l ∉ labelsOf seen := by
  induction h with
  | nil | stop => exact ⟨.nil, by simp [labelsOf]⟩
  | skip _ _ ih => exact ih
  | @line seen last t r mid label ss ls _ hlabel _ _ _ ih =>
    obtain ⟨hnodup, hnew⟩ := ih
    simp only [labelsOf_snoc, List.mem_append, not_or] at hnew
    rw [labelsOf_cons]
    rcases lineLabel_eq_ok_iff.1 hlabel with ⟨-, rfl⟩ | ⟨-, l, -, rfl, hfresh⟩
    · exact ⟨hnodup, fun l hl => (hnew l hl).1⟩
    · refine ⟨List.nodup_cons.2 ⟨fun hl => (hnew l hl).2 (by simp), hnodup⟩, ?_⟩
      exact List.forall_mem_cons.2 ⟨hfresh, fun l hl => (hnew l hl).1⟩

/-- **The lines of a program** are read from places of its text. -/
theorem lines_reads {s : Setting} {seen : List Line} {last : Int} {ts : List Token} {ls : List Line}
    (h : lines s seen last ts = .ok ls) : ∀ l ∈ ls, ∃ t r, t :: r <:+ ts ∧ ReadsLine s t r l := by
  rw [lines_eq_ok_iff] at h
  induction h with
  | nil | stop => simp
  | skip _ _ ih =>
    intro l hl
    obtain ⟨u, v, hsuf, hline⟩ := ih l hl
    exact ⟨u, v, hsuf.trans (List.suffix_cons _ _), hline⟩
  | @line seen last t r mid label ss ls _ hlabel hss _ _ ih =>
    refine List.forall_mem_cons.2 ⟨⟨t, r, List.suffix_refl _, rfl, ⟨seen, hlabel⟩, mid, hss⟩, fun l hl => ?_⟩
    obtain ⟨u, v, hsuf, hline⟩ := ih l hl
    have hafter := (suffix_of_reads hss).trans (afterLabel_suffix label t r)
    exact ⟨u, v, (hsuf.trans (List.tail_suffix _)).trans hafter, hline⟩

end Parse

theorem Program.lines_of_parse {strict : Bool} {tokens : List Token} {source : List Char} {p : Program}
    (h : Program.parse strict tokens source = .ok p) :
    Parse.lines ⟨strict, Source.normalize source⟩ [] (-1) tokens = .ok p.lines := by
  unfold Program.parse at h
  cases hls : Parse.lines ⟨strict, Source.normalize source⟩ [] (-1) tokens with
  | error e =>
    rw [hls] at h
    cases h
  | ok ls =>
    rw [hls] at h
    cases h
    rfl

end Locomotive
