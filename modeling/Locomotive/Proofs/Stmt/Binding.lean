import Locomotive.Proofs.Program.Alike
import Locomotive.Proofs.Stmt.Seek

/-!
# The `IF` that an `ELSE` belongs to

On a line without jumps each `ELSE` belongs to the nearest `IF` before it that has none yet, whatever the
nesting and whatever the other statements: statements are read by recursion, and pairing each `ELSE` with the
last `IF` of a stack gives the same tree. It has the conditions and statements of the line in their order.

* `Parse.branchMarks`: the places of the `IF` and `ELSE` keywords of a line.
* `Parse.pairUp`: each `ELSE` with the nearest `IF`.
* `Parse.Outline`: the tree of a line, with the place of each of its parts.
* `Parse.row`: the parts of a line one after another.
* `Parse.Reads.binds`: the tree of whatever is read without jumps.
-/

namespace Locomotive

/-- A condition of a line, or a statement other than `IF`. -/
inductive RowPart where
  | test (cond : Expr)
  | plain (st : Stmt)

namespace Stmt

mutual

/-- **The conditions and statements in a statement**, in the order in which they are written. -/
def parts : Stmt → List RowPart
  | branch cond yes no => .test cond :: (partsOf yes ++ partsOfElse no)
  | s => [.plain s]

/-- The same for the statements of a list. -/
def partsOf : List Stmt → List RowPart
  | [] => []
  | s :: ss => s.parts ++ partsOf ss

/-- The same for the statements of an `ELSE`. -/
def partsOfElse : Option (List Stmt) → List RowPart
  | none => []
  | some ss => partsOf ss

end

theorem parts_of_isBranch {s : Stmt} (h : s.isBranch = false) : s.parts = [.plain s] := by
  cases s with
  | branch => cases h
  | _ => rfl

end Stmt

namespace Parse

variable {s : Setting} {t : Token} {ts mid rest : List Token}

/-! ## Marks -/

/-- The token is an `IF` or an `ELSE`, or ends the line. -/
def isBranchMark (t : Token) : Bool := t.isWord "IF" || t.isWord "ELSE" || decide t.EndsLine

theorem marks_branch : Marks isBranchMark := by
  refine ⟨fun t ht => ?_, fun t hkind hunsupported => ?_⟩
  · simp [isBranchMark, ht.isWord (by decide : "IF" ∈ outerWords), ht.isWord (by decide : "ELSE" ∈ outerWords),
      not_endsLine_of_ends ht.ends]
  · have hword : ∀ w, Token.isUnsupported w = false → t.isWord w = false := by
      intro w hw
      refine Bool.eq_false_iff.2 fun hword => ?_
      rw [(eq_of_isWord hword).2, hw] at hunsupported
      cases hunsupported
    have hends : ¬ t.EndsLine := by simp [Token.EndsLine, hkind]
    simp [isBranchMark, hword "IF" (by decide), hword "ELSE" (by decide), hends]

/-- **The places of the `IF` and `ELSE` keywords** of a line, except those in statements without a counterpart. -/
def branchMarks (skipping : Bool) (ts : List Token) : List (List Token) :=
  (seek isBranchMark skipping ts).takeWhile fun m => !decide (m.headD Token.endMark).EndsLine

theorem branchMarks_taken (h : Taken ts rest) : branchMarks false ts = branchMarks false rest := by
  rw [branchMarks, marks_branch.seek_taken h, branchMarks]

theorem branchMarks_skipped (h : Skipped ts rest) : branchMarks false ts = branchMarks false rest := by
  rw [branchMarks, marks_branch.seek_skipped h, branchMarks]

/-- Nothing is marked at the first token. -/
theorem branchMarks_other (h : isBranchMark t = false) (ts : List Token) :
    branchMarks false (t :: ts) = branchMarks (opensSkipped t ts) ts := by
  rw [branchMarks, seek_other h, branchMarks]

theorem branchMarks_mark (h : t.isWord "IF" = true ∨ t.isWord "ELSE" = true) (ts : List Token) :
    branchMarks false (t :: ts) = (t :: ts) :: branchMarks (opensSkipped t ts) ts := by
  have hmark : isBranchMark t = true := by rcases h with h | h <;> simp [isBranchMark, h]
  have hkind : t.kind = .keyword := by rcases h with h | h <;> exact (eq_of_isWord h).1
  have hends : ¬ t.EndsLine := by simp [Token.EndsLine, hkind]
  rw [branchMarks, seek_cons, if_pos hmark, List.takeWhile_cons_of_pos (by simp [hends]), branchMarks]

theorem mem_branchMarks_if (h : t.isWord "IF" = true) (ts : List Token) : t :: ts ∈ branchMarks false (t :: ts) := by
  rw [branchMarks_mark (.inl h)]
  exact List.mem_cons_self

/-- A `THEN` or an `ELSE` opens nothing to skip unless a label follows. -/
theorem opensSkipped_of_kind {w : String} (h : t.isWord w = true) (hw : Token.isUnsupported w = false)
    (hnum : (ts.headD Token.endMark).kind ≠ .number) : opensSkipped t ts = false := by
  have hunsupported : Token.isUnsupported t.lexeme = false := by rw [(eq_of_isWord h).2, hw]
  have hnum' : ((ts.headD Token.endMark).kind == .number) = false := beq_eq_false_iff_ne.2 hnum
  simp only [opensSkipped, hunsupported, hnum', Bool.and_false, Bool.or_false]

theorem branchMarks_else (h : t.isWord "ELSE" = true) (hnum : (ts.headD Token.endMark).kind ≠ .number) :
    branchMarks false (t :: ts) = (t :: ts) :: branchMarks false ts := by
  rw [branchMarks_mark (.inr h), opensSkipped_of_kind h (by decide) hnum]

/-- The end of the line. -/
theorem branchMarks_ends (h : (ts.headD Token.endMark).EndsLine) : branchMarks false ts = [] := by
  cases ts with
  | nil => rfl
  | cons t ts =>
    have hends : t.EndsLine := h
    rw [branchMarks, seek_cons, if_pos (by simp [isBranchMark, hends]), List.takeWhile_cons_of_neg (by simp [hends])]

/-- A token that is neither a keyword nor the end of the line. -/
theorem branchMarks_of_kind (hkind : t.kind ≠ .keyword) (hends : ¬ t.EndsLine) (ts : List Token) :
    branchMarks false (t :: ts) = branchMarks false ts := by
  rw [branchMarks_other (by simp [isBranchMark, Token.isWord, hkind, hends]),
    opensSkipped_eq_false fun h => absurd h hkind]

/-- **Every `ELSE` of a line is marked**, since an `ELSE` ends whatever is skipped. -/
theorem mem_branchMarks {used : List Token} (hused : ∀ u ∈ used, ¬ u.EndsLine) (h : t.isWord "ELSE" = true)
    (skipping : Bool) (r : List Token) : t :: r ∈ branchMarks skipping (used ++ t :: r) := by
  unfold branchMarks
  induction used generalizing skipping with
  | nil =>
    have hends : ¬ t.EndsLine := by simp [Token.EndsLine, (eq_of_isWord h).1]
    rw [List.nil_append, seek, if_neg (by simp [endsStatement, h]), if_pos (by simp [isBranchMark, h]),
      List.takeWhile_cons_of_pos (by simp [hends])]
    exact List.mem_cons_self
  | cons u used ih =>
    obtain ⟨hu, hused⟩ := List.forall_mem_cons.1 hused
    rw [List.cons_append, seek]
    split
    · exact ih hused true
    split
    · rw [List.takeWhile_cons_of_pos (by simp [hu])]
      exact List.mem_cons_of_mem _ (ih hused _)
    · exact ih hused _

/-! ## Statements other than `IF` -/

/-- There is no `IF` or `ELSE` in such a statement. -/
theorem branchMarks_simple (ht : OpensStmt t) (hif : t.isWord "IF" = false) {q : Parsed Stmt ts}
    (hq : simple s t ts = .ok q) : branchMarks false (t :: ts) = branchMarks false q.rest := by
  have hends : ¬ t.EndsLine := not_or.2 ⟨ht.eol, ht.eof⟩
  cases of_simple hq with
  | unsupported _ _ _ _ _ _ _ _ hskip => exact branchMarks_skipped hskip
  | data _ hdata _ _ h =>
    have hopens : opensSkipped t ts = false :=
      opensSkipped_eq_false (fun _ => by rw [(eq_of_isWord hdata).2]; decide) ts
    rw [branchMarks_other (by simp [isBranchMark, hif, ht.noElse, hends]), hopens]
    exact branchMarks_taken (of_data h).2
  | comment hkind _ hrest =>
    rw [hrest]
    exact branchMarks_of_kind (by rw [hkind]; decide) hends ts
  | plain _ htaken => exact branchMarks_taken htaken

/-! ## Pairing -/

/-- The place is that of an `IF`. -/
def isIf (m : List Token) : Bool := (m.headD Token.endMark).isWord "IF"

theorem isIf_else (h : t.isWord "ELSE" = true) (ts : List Token) : isIf (t :: ts) = false := by
  simp [isIf, Token.isWord, (eq_of_isWord h).2]

/-- **Each `ELSE` with the nearest `IF`** before it that no earlier `ELSE` is paired with; `opened` are the ones
before the first mark, the nearest first. -/
def pairUp : (opened : List (List Token)) → List (List Token) → List (Option (List Token) × List Token)
  | _, [] => []
  | opened, m :: ms => if isIf m then pairUp (m :: opened) ms else (opened.head?, m) :: pairUp opened.tail ms

theorem pairUp_if {m : List Token} (h : isIf m = true) (opened ms : List (List Token)) :
    pairUp opened (m :: ms) = pairUp (m :: opened) ms := if_pos h

theorem pairUp_else {m : List Token} (h : isIf m = false) (i : List Token) (opened ms : List (List Token)) :
    pairUp (i :: opened) (m :: ms) = (some i, m) :: pairUp opened ms := if_neg (by simp [h])

/-- Every `ELSE` is paired with something, maybe with nothing. -/
theorem exists_mem_pairUp {m : List Token} {ms : List (List Token)} (hm : m ∈ ms) (h : isIf m = false)
    (opened : List (List Token)) : ∃ o, (o, m) ∈ pairUp opened ms := by
  induction ms generalizing opened with
  | nil => cases hm
  | cons m' ms ih =>
    rw [pairUp]
    rcases List.mem_cons.1 hm with rfl | hm
    · rw [if_neg (by simp [h])]
      exact ⟨opened.head?, List.mem_cons_self⟩
    split
    · exact ih hm _
    · obtain ⟨o, ho⟩ := ih hm opened.tail
      exact ⟨o, List.mem_cons_of_mem _ ho⟩

/-- **No jump**: the branch that follows the `IF` or `ELSE` is neither a `GOTO` nor a label. -/
structure PlainMark (m : List Token) : Prop where
  yes : isIf m = true → ∀ c rest, (expressionOf .number m.tail).read = .ok (c, rest) → Phase.consequence.Plain rest
  no : isIf m = false → (m.tail.headD Token.endMark).kind ≠ .number

instance (ts : List Token) : Decidable (Phase.consequence.Plain ts) := inferInstanceAs (Decidable (_ ∧ _))

instance (m : List Token) : Decidable (PlainMark m) :=
  decidable_of_iff ((isIf m = true → ∀ x ∈ (expressionOf .number m.tail).read.toOption, Phase.consequence.Plain x.2) ∧
      (isIf m = false → (m.tail.headD Token.endMark).kind ≠ .number))
    ⟨fun h => ⟨fun hif c rest hc => h.1 hif (c, rest) (by rw [hc]; rfl), h.2⟩, fun h => ⟨fun hif x hx => by
      cases hc : (expressionOf .number m.tail).read with
      | error why =>
        rw [hc] at hx
        cases hx
      | ok y =>
        rw [hc] at hx
        cases hx
        exact h.yes hif x.1 x.2 hc, h.no⟩⟩

/-! ## The tree of a line -/

/-- **The tree of a line**, each part with the place where it starts. An `IF` ends its list of statements. -/
inductive Outline where
  | nil
  | plain (place : List Token) (st : Stmt) (h : st.isBranch = false) (rest : Outline)
  | branch (place : List Token) (cond : Expr) (yes : Outline)
  | branchElse (place : List Token) (cond : Expr) (yes : Outline) (other : List Token) (no : Outline)

namespace Outline

/-- The statements, without the places. An `ELSE` with nothing behind it leaves no trace. -/
def stmts : Outline → List Stmt
  | nil => []
  | plain _ st _ rest => st :: rest.stmts
  | branch _ cond yes => [.branch cond yes.stmts none]
  | branchElse _ cond yes _ no => [.branch cond yes.stmts (if no.stmts.isEmpty then none else some no.stmts)]

/-- The conditions and statements with their places, in the order in which they are written; an `ELSE` is a place
without any. -/
def parts : Outline → List (List Token × Option RowPart)
  | nil => []
  | plain place st _ rest => (place, some (.plain st)) :: rest.parts
  | branch place cond yes => (place, some (.test cond)) :: yes.parts
  | branchElse place cond yes other no => (place, some (.test cond)) :: (yes.parts ++ (other, none) :: no.parts)

/-- **The place of each `ELSE`, with that of the `IF` whose branch it starts.** -/
def bonds : Outline → List (Option (List Token) × List Token)
  | nil => []
  | plain _ _ _ rest => rest.bonds
  | branch _ _ yes => yes.bonds
  | branchElse place _ yes other no => yes.bonds ++ (some place, other) :: no.bonds

/-- Without the places, these are the parts of the statements. -/
theorem filterMap_parts (o : Outline) : o.parts.filterMap Prod.snd = Stmt.partsOf o.stmts := by
  induction o with
  | nil => rfl
  | plain place st h rest ih => simp [parts, stmts, Stmt.partsOf, Stmt.parts_of_isBranch h, ih]
  | branch place cond yes ih => simp [parts, stmts, Stmt.partsOf, Stmt.parts, Stmt.partsOfElse, ih]
  | branchElse place cond yes other no ihyes ihno =>
    have hno : Stmt.partsOfElse (if no.stmts.isEmpty then none else some no.stmts) = Stmt.partsOf no.stmts := by
      cases no.stmts <;> rfl
    simp only [parts, List.filterMap_cons, List.filterMap_append, ihyes, ihno, stmts, Stmt.partsOf, Stmt.parts, hno,
      List.append_nil]

theorem isSome_of_mem_bonds {o : Outline} {i : Option (List Token)} {e : List Token} (h : (i, e) ∈ o.bonds) :
    i.isSome = true := by
  induction o with
  | nil => cases h
  | plain _ _ _ _ ih | branch _ _ _ ih => exact ih h
  | branchElse _ _ _ _ _ ihyes ihno =>
    rcases List.mem_append.1 h with h | h
    · exact ihyes h
    rcases List.mem_cons.1 h with h | h
    · cases h
      rfl
    · exact ihno h

end Outline

/-! ## The row of a line -/

/-- **The parts of a line** one after another, each read where the one before it ends. The colons between them and
the `THEN` keywords are passed over. -/
def row (s : Setting) (ts : List Token) : Option (List (List Token × Option RowPart)) :=
  match ts with
  | [] => some []
  | t :: r =>
    if t.EndsLine then some []
    else if t.kind = .colon then row s r
    else if t.isWord "ELSE" then (row s r).map ((t :: r, none) :: ·)
    else if t.isWord "IF" then
      match expressionOf .number r with
      | .error _ => none
      | .ok c => (row s c.rest.tail).map ((t :: r, some (.test c.value)) :: ·)
    else
      match simple s t r with
      | .error _ => none
      | .ok q => (row s q.rest).map ((t :: r, some (.plain q.value)) :: ·)
termination_by ts.length
decreasing_by
  · simp only [List.length_cons]
    omega
  · simp only [List.length_cons]
    omega
  · have := c.suffix.length_le
    simp only [List.length_cons, List.length_tail]
    omega
  · have := q.suffix.length_le
    simp only [List.length_cons]
    omega

theorem row_colon (h : t.kind = .colon) (ts : List Token) : row s (t :: ts) = row s ts := by
  rw [row, if_neg (by simp [Token.EndsLine, h]), if_pos h]

theorem row_else (h : t.isWord "ELSE" = true) (ts : List Token) :
    row s (t :: ts) = (row s ts).map ((t :: ts, none) :: ·) := by
  have hkind := (eq_of_isWord h).1
  rw [row, if_neg (by simp [Token.EndsLine, hkind]), if_neg (by simp [hkind]), if_pos h]

theorem OpensStmt.row (ht : OpensStmt t) (ts : List Token) : row s (t :: ts) =
    if t.isWord "IF" then
      match expressionOf .number ts with
      | .error _ => none
      | .ok c => (row s c.rest.tail).map ((t :: ts, some (.test c.value)) :: ·)
    else
      match simple s t ts with
      | .error _ => none
      | .ok q => (row s q.rest).map ((t :: ts, some (.plain q.value)) :: ·) := by
  have hends : ¬ t.EndsLine := not_or.2 ⟨ht.eol, ht.eof⟩
  rw [Parse.row, if_neg hends, if_neg ht.colon, if_neg (by simp [ht.noElse])]

theorem row_ends (h : (ts.headD Token.endMark).EndsLine) : row s ts = some [] := by
  cases ts with
  | nil => rw [row]
  | cons t ts =>
    rw [List.headD_cons] at h
    rw [row, if_pos h]

/-! ## What is read without jumps -/

/-- **From `ts` up to `rest`** stands the tree `o`: the pairs of an `IF` and an `ELSE` in it are those that pairing
with the nearest `IF` gives, whatever is open before, and its row comes before that of `rest`. -/
structure Binds (s : Setting) (ts : List Token) (o : Outline) (rest : List Token) : Prop where
  marks : ∀ m ∈ branchMarks false rest, m ∈ branchMarks false ts
  pairs : ∀ opened, pairUp opened (branchMarks false ts) = o.bonds ++ pairUp opened (branchMarks false rest)
  row : row s ts = (row s rest).map (o.parts ++ ·)

namespace Binds

variable {o yes no : Outline}

theorem refl (s : Setting) (ts : List Token) : Binds s ts .nil ts where
  marks _ := id
  pairs _ := rfl
  row := by simp [Outline.parts]

/-- Colons come before. -/
theorem colon (ht : t.kind = .colon) (h : Binds s ts o rest) : Binds s (t :: ts) o rest := by
  have hmarks : branchMarks false (t :: ts) = branchMarks false ts :=
    branchMarks_of_kind (by rw [ht]; decide) (by simp [Token.EndsLine, ht]) ts
  exact ⟨hmarks ▸ h.marks, hmarks ▸ h.pairs, (row_colon ht ts).trans h.row⟩

/-- A statement other than `IF` comes before. -/
theorem simple (ht : OpensStmt t) (hif : t.isWord "IF" = false) {q : Parsed Stmt ts} (hq : simple s t ts = .ok q)
    (h : Binds s q.rest o rest) : Binds s (t :: ts) (.plain (t :: ts) q.value (simple_isBranch hq) o) rest := by
  have hmarks := branchMarks_simple ht hif hq
  refine ⟨hmarks ▸ h.marks, hmarks ▸ h.pairs, ?_⟩
  rw [ht.row, if_neg (by rw [hif]; decide)]
  simp only [hq, h.row, Option.map_map]
  rfl

end Binds

/-- An `IF` up to what follows its `THEN`. -/
theorem branchMarks_condition (hif : t.isWord "IF" = true) {c : Parsed Expr ts} (hc : expressionOf .number ts = .ok c)
    {yes : List Stmt} (hyes : Reads s .consequence c.rest yes mid) (hplain : Phase.consequence.Plain c.rest) :
    branchMarks false (t :: ts) = (t :: ts) :: branchMarks false c.rest.tail := by
  have hopens : opensSkipped t ts = false :=
    opensSkipped_eq_false (fun _ => by rw [(eq_of_isWord hif).2]; decide) ts
  rw [branchMarks_mark (.inl hif), hopens, branchMarks_taken (taken_of_expressionOf hc)]
  generalize c.rest = r at hyes hplain
  cases hyes with
  | @afterThen kw ts _ _ hkw _ =>
    obtain ⟨hkind, hlexeme⟩ := eq_of_isWord hkw
    have hmark : isBranchMark kw = false := by simp [isBranchMark, Token.isWord, Token.EndsLine, hlexeme, hkind]
    have hnum : (ts.headD Token.endMark).kind ≠ .number := hplain.2
    rw [branchMarks_other hmark, opensSkipped_of_kind hkw (by decide) hnum, List.tail_cons]
  | goto hkw =>
    have hgoto := hplain.1
    rw [List.headD_cons, hkw] at hgoto
    cases hgoto

namespace Binds

variable {yes no : Outline} {c : Parsed Expr ts}

/-- **An `IF` without `ELSE`** goes up to the end of the line. -/
theorem branch (ht : OpensStmt t) (hif : t.isWord "IF" = true) (hc : expressionOf .number ts = .ok c)
    (hmarks : branchMarks false (t :: ts) = (t :: ts) :: branchMarks false c.rest.tail)
    (hends : (mid.headD Token.endMark).EndsLine) (h : Binds s c.rest.tail yes mid) :
    Binds s (t :: ts) (.branch (t :: ts) c.value yes) mid where
  marks m hm := by
    rw [branchMarks_ends hends] at hm
    cases hm
  pairs opened := by
    have hmark : isIf (t :: ts) = true := hif
    rw [hmarks, pairUp_if hmark, h.pairs, branchMarks_ends hends]
    rfl
  row := by
    rw [ht.row, if_pos hif]
    simp only [hc, h.row, Option.map_map]
    rfl

/-- **An `IF` with an `ELSE`**: the marks between them are settled, so this `IF` is the nearest. -/
theorem branchElse {kw : Token} {last : List Token} (ht : OpensStmt t) (hif : t.isWord "IF" = true)
    (hc : expressionOf .number ts = .ok c)
    (hmarks : branchMarks false (t :: ts) = (t :: ts) :: branchMarks false c.rest.tail)
    (hkw : kw.isWord "ELSE" = true) (hnum : (mid.headD Token.endMark).kind ≠ .number)
    (h : Binds s c.rest.tail yes (kw :: mid)) (h' : Binds s mid no last) :
    Binds s (t :: ts) (.branchElse (t :: ts) c.value yes (kw :: mid) no) last := by
  have hmid := branchMarks_else hkw hnum
  have hmark : isIf (t :: ts) = true := hif
  have hother := isIf_else hkw mid
  constructor
  case marks =>
    intro m hm
    rw [hmarks]
    refine List.mem_cons_of_mem _ (h.marks m ?_)
    rw [hmid]
    exact List.mem_cons_of_mem _ (h'.marks m hm)
  case pairs =>
    intro opened
    rw [hmarks, pairUp_if hmark, h.pairs, hmid, pairUp_else hother, h'.pairs, Outline.bonds, List.append_assoc,
      List.cons_append]
  case row =>
    rw [ht.row, if_pos hif]
    simp only [hc, h.row, row_else hkw, h'.row, Option.map_map]
    congr 1
    funext ps
    simp only [Function.comp_apply, Outline.parts, List.cons_append, List.append_assoc]

end Binds

/-- Where the statements that are read start. -/
def Phase.start : Phase → List Token → List Token
  | .consequence, ts => ts.tail
  | _, ts => ts

/-- **Whatever is read without jumps** is the tree that pairing with a stack gives. -/
theorem Reads.binds {phase : Phase} {ss : List Stmt} (h : Reads s phase ts ss rest) (hplain : phase.Plain ts)
    (hfree : ∀ m ∈ branchMarks false (phase.start ts), PlainMark m) :
    ∃ o : Outline, o.stmts = ss ∧ Binds s (phase.start ts) o rest := by
  induction h with
  | nil | stop => exact ⟨.nil, rfl, .refl s _⟩
  | @colon b t ts rest ss hcolon _ ih =>
    have hmarks : branchMarks false (t :: ts) = branchMarks false ts :=
      branchMarks_of_kind (by rw [hcolon]; decide) (by simp [Token.EndsLine, hcolon]) ts
    obtain ⟨o, ho, hss⟩ := ih trivial (fun m hm => hfree m (hmarks ▸ hm))
    exact ⟨o, ho, hss.colon hcolon⟩
  | @simple b t ts rest ss q ht hif hq _ _ ih =>
    obtain ⟨o, ho, hss⟩ := ih trivial fun m hm => hfree m ((branchMarks_simple ht hif hq).symm ▸ hm)
    exact ⟨_, by rw [Outline.stmts, ho], hss.simple ht hif hq⟩
  | @branch b t ts mid rest yes ss c ht hif hc hyes hnone hss ihyes _ =>
    have hplain' := (hfree _ (mem_branchMarks_if hif ts)).yes hif _ _ (read_eq_ok hc)
    have hmarks := branchMarks_condition hif hc hyes hplain'
    obtain ⟨o, ho, hbranch⟩ := ihyes hplain' fun m hm => hfree m (hmarks.symm ▸ List.mem_cons_of_mem (t :: ts) hm)
    -- the branch does not end at an `ELSE`, so it ends with the line
    have hstop := hyes.endsList hplain'
    have hends : (mid.headD Token.endMark).EndsLine := by
      rcases hstop with hend | hend | ⟨hend, -⟩
      · exact .inl hend
      · exact .inr hend
      · rw [hnone] at hend
        cases hend
    obtain ⟨rfl, rfl⟩ := hss.eq_nil hstop
    exact ⟨_, by rw [Outline.stmts, ho], .branch ht hif hc hmarks hends hbranch⟩
  | @branchElse b t kw ts mid last rest yes no ss c ht hif hc hyes hkw hno hss ihyes ihno _ =>
    have hplain' := (hfree _ (mem_branchMarks_if hif ts)).yes hif _ _ (read_eq_ok hc)
    have hmarks := branchMarks_condition hif hc hyes hplain'
    obtain ⟨o, ho, hbranch⟩ := ihyes hplain' fun m hm => hfree m (hmarks.symm ▸ List.mem_cons_of_mem (t :: ts) hm)
    -- the `ELSE` and the marks behind it are marks of the line
    have hbehind : ∀ m ∈ branchMarks false (kw :: mid), m ∈ branchMarks false (t :: ts) := by
      intro m hm
      rw [hmarks]
      exact List.mem_cons_of_mem _ (hbranch.marks m hm)
    have hself : kw :: mid ∈ branchMarks false (kw :: mid) := by
      rw [branchMarks_mark (.inr hkw)]
      exact List.mem_cons_self
    have hnum : (mid.headD Token.endMark).kind ≠ .number := (hfree _ (hbehind _ hself)).no (isIf_else hkw mid)
    obtain ⟨o', ho', hother⟩ := ihno hnum fun m hm =>
      hfree m (hbehind m (by rw [branchMarks_else hkw hnum]; exact List.mem_cons_of_mem _ hm))
    obtain ⟨rfl, rfl⟩ := hss.eq_nil (hno.endsList hnum)
    exact ⟨_, by rw [Outline.stmts, ho, ho'], .branchElse ht hif hc hmarks hkw hnum hbranch hother⟩
  | @afterThen kw ts rest ss hkw _ ih => exact ih hplain.2 hfree
  | goto hkw =>
    rw [Phase.Plain, List.headD_cons, hkw] at hplain
    exact absurd hplain.1 (by decide)
  | jump hnum => exact absurd hnum hplain
  | body _ _ ih => exact ih trivial hfree

end Parse

end Locomotive
