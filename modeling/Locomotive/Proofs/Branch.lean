import Locomotive.Proofs.Stmt.Balance
import Locomotive.Proofs.Stmt.Binding

/-!
# The branches of an `IF`

An `IF` takes the rest of its line into its branches, and each `ELSE` goes to the nearest `IF` before it that
has none yet. Both are about branches that are statements. A branch that is a label to jump to, or a `GOTO` in
the place of the `THEN`, is one statement only: what stands behind it on the line is read as if the `IF` were
over, so it is run whether or not the condition holds, and an `ELSE` behind it goes to an `IF` further out.

* `Program.nothing_after_branch`: what can stand behind an `IF`.
* `Program.else_goes_to_nearest`: the `IF` of each `ELSE`, and the order of the statements.
-/

namespace Locomotive

namespace Parse

variable {s : Setting} {t : Token} {ts mid rest : List Token}

/-! ## Behind an `IF` -/

/-- **An `IF` in the list is its last statement**, unless the last of its branches is a jump, which strict reading
does not let through. -/
def Closed (strict : Bool) (ss : List Stmt) : Prop :=
  ∀ front cond yes no back, ss = front ++ .branch cond yes no :: back →
    back = [] ∨ strict = false ∧ ∃ text line, no.getD yes = [.unsupported "GOTO" text line]

theorem closed_nil (strict : Bool) : Closed strict [] := by
  intro front cond yes no back h
  simp at h

theorem Closed.cons {strict : Bool} {st : Stmt} {ss : List Stmt} (h : Closed strict ss)
    (hst : ∀ cond yes no, st = .branch cond yes no →
      ss = [] ∨ strict = false ∧ ∃ text line, no.getD yes = [.unsupported "GOTO" text line]) :
    Closed strict (st :: ss) := by
  intro front cond yes no back heq
  cases front with
  | nil =>
    obtain ⟨rfl, rfl⟩ := List.cons.inj heq
    exact hst cond yes no rfl
  | cons st' front =>
    obtain ⟨-, hss⟩ := List.cons.inj heq
    exact h front cond yes no back hss

/-- The list and all branches in it. -/
def AllClosed (strict : Bool) (ss : List Stmt) : Prop := ∀ b ∈ ss :: Stmt.branchesOf ss, Closed strict b

theorem allClosed_nil (strict : Bool) : AllClosed strict [] := by
  intro b hb
  rw [Stmt.branchesOf, List.mem_singleton] at hb
  rw [hb]
  exact closed_nil strict

/-- A statement in front of others. -/
theorem AllClosed.cons {strict : Bool} {st : Stmt} {ss : List Stmt} (h : AllClosed strict ss)
    (hbranches : ∀ b ∈ st.branches, Closed strict b) (hst : ∀ cond yes no, st = .branch cond yes no →
      ss = [] ∨ strict = false ∧ ∃ text line, no.getD yes = [.unsupported "GOTO" text line]) :
    AllClosed strict (st :: ss) := by
  intro b hb
  rw [Stmt.branchesOf, List.mem_cons, List.mem_append] at hb
  rcases hb with rfl | hb | hb
  · exact (h ss List.mem_cons_self).cons hst
  · exact hbranches b hb
  · exact h b (List.mem_cons_of_mem _ hb)

/-- **Whatever is read** has its `IF` statements last. -/
theorem Reads.allClosed {phase : Phase} {ss : List Stmt} (h : Reads s phase ts ss rest) : AllClosed s.strict ss := by
  have hsingle : ∀ {start : Token} {keyword : String} {stop : Int} {ts : List Token} {q : Parsed Stmt ts},
      unsupported s start keyword stop ts = .ok q → AllClosed s.strict [q.value] := by
    intro start keyword stop ts q hq
    obtain ⟨⟨text, hvalue⟩, -⟩ := of_unsupported (read_eq_ok hq)
    rw [hvalue]
    refine (allClosed_nil _).cons (fun b hb => by cases hb) fun cond yes no hbranch => by cases hbranch
  induction h with
  | nil | stop => exact allClosed_nil _
  | colon _ _ ih => exact ih
  | @simple _ _ _ _ _ q _ _ hq _ _ ih =>
    have hbranch := simple_isBranch hq
    refine ih.cons (fun b hb => ?_) fun cond yes no heq => ?_
    · cases hv : q.value with
      | branch => rw [hv] at hbranch; cases hbranch
      | _ => rw [hv] at hb; cases hb
    · rw [heq] at hbranch
      cases hbranch
  | @branch _ t ts mid rest yes ss c ht hif hc hyes hnone hss ihyes ih =>
    refine ih.cons (fun b hb => ihyes b ?_) fun cond yes' no heq => ?_
    · simpa [Stmt.branches, Stmt.branchesOfElse] using hb
    · cases heq
      by_cases hplain : Phase.consequence.Plain c.rest
      · exact .inl (hss.eq_nil (hyes.endsList hplain)).1
      · exact .inr (hyes.jumps hplain)
  | @branchElse _ t kw ts mid last rest yes no ss c ht hif hc hyes hkw hno hss ihyes ihno ih =>
    refine ih.cons (fun b hb => ?_) fun cond yes' no' heq => ?_
    · rw [Stmt.branches, List.mem_append] at hb
      rcases hb with hb | hb
      · exact ihyes b hb
      · refine ihno b ?_
        split at hb
        · cases hb
        · exact hb
    · cases heq
      by_cases hplain : (Phase.body kw).Plain mid
      · exact .inl (hss.eq_nil (hno.endsList hplain)).1
      · obtain ⟨hlax, text, line, hjump⟩ := hno.jumps hplain
        exact .inr ⟨hlax, text, line, by rw [hjump]; rfl⟩
  | afterThen _ _ ih => exact ih
  | goto _ hq => exact hsingle hq
  | jump _ hq => exact hsingle hq
  | body _ _ ih => exact ih

/-! ## The lines of a text -/

/-- **Whatever is read** stands on one line. -/
theorem Reads.within {b : Bool} {ss : List Stmt} (h : Reads s (.stmts b) ts ss rest) : Within ts rest := by
  have hkeeps := statements_keepLine s b ts
  rwa [show (statements s b ts).read = .ok (ss, rest) from h.run] at hkeeps

/-- **The places where the lines of a text start**, behind their labels; `fresh` says whether the first token is
the first one of a line. Lines without a token leave no trace. -/
def lineStarts : (fresh : Bool) → List Token → List (List Token)
  | _, [] => []
  | fresh, t :: ts =>
    if t.EndsLine then if fresh && t.kind == .eof then [] else lineStarts true ts
    else if fresh then (if t.kind = .number then ts else t :: ts) :: lineStarts false ts
    else lineStarts false ts

theorem lineStarts_within (h : Within ts rest) : lineStarts false ts = lineStarts false rest := by
  obtain ⟨used, rfl, hused⟩ := h
  induction used with
  | nil => rfl
  | cons t used ih =>
    obtain ⟨ht, hused⟩ := List.forall_mem_cons.1 hused
    rw [List.cons_append, lineStarts, if_neg ht, if_neg (by decide), ih hused]

theorem lineStarts_ends (h : (ts.headD Token.endMark).EndsLine) : lineStarts false ts = lineStarts true ts.tail := by
  cases ts with
  | nil => rfl
  | cons t ts =>
    rw [List.headD_cons] at h
    rw [lineStarts, if_pos h, if_neg (by simp), List.tail_cons]

theorem lineStarts_fresh (h : ¬ t.EndsLine) (ts : List Token) :
    lineStarts true (t :: ts) = (if t.kind = .number then ts else t :: ts) :: lineStarts false ts := by
  rw [lineStarts, if_neg h, if_pos rfl]

/-- **The lines of a program** are read one by one from these places. -/
theorem ReadsLines.lineStarts {s : Setting} {seen : List Line} {last : Int} {ts : List Token} {ls : List Line}
    (h : ReadsLines s seen last ts ls) :
    List.Forall₂ (fun ts l => ∃ rest, Reads s (.stmts false) ts l.stmts rest) (lineStarts true ts) ls := by
  induction h with
  | nil => exact .nil
  | stop ht =>
    rw [Parse.lineStarts, if_pos (.inr ht), if_pos (by simp [ht])]
    exact .nil
  | skip ht _ ih =>
    rw [Parse.lineStarts, if_pos (.inl ht), if_neg (by simp [ht])]
    exact ih
  | @line _ _ t r mid label ss ls ht hlabel hss _ _ ih =>
    have hafter := afterLabel_eq hlabel
    have hline : Parse.lineStarts false r = Parse.lineStarts true mid.tail := by
      have hstart : Parse.lineStarts false r = Parse.lineStarts false (afterLabel label t r) := by
        rw [hafter]
        split
        · rfl
        · exact (lineStarts_within (.one ht r)).symm
      rw [hstart, lineStarts_within hss.within, lineStarts_ends hss.endsLine]
    rw [lineStarts_fresh ht, hline, ← hafter]
    exact .cons ⟨mid, hss⟩ ih

end Parse

open Parse

theorem Program.reads {strict : Bool} {tokens : List Token} {source : List Char} {p : Program}
    (h : Program.parse strict tokens source = .ok p) :
    List.Forall₂ (fun ts l => ∃ rest, Reads ⟨strict, Source.normalize source⟩ (.stmts false) ts l.stmts rest)
      (lineStarts true tokens) p.lines :=
  (lines_eq_ok_iff.1 (lines_of_parse h)).lineStarts

theorem Program.exists_reads {strict : Bool} {tokens : List Token} {source : List Char} {p : Program}
    (h : Program.parse strict tokens source = .ok p) {l : Line} (hl : l ∈ p.lines) :
    ∃ ts rest, Reads ⟨strict, Source.normalize source⟩ (.stmts false) ts l.stmts rest := by
  obtain ⟨t, r, -, hline⟩ := lines_reads (lines_of_parse h) l hl
  exact ⟨_, hline.stmts⟩

/-- **An `IF` takes the rest of its line.** In every list of statements of a program, those of the branches at any
depth included, nothing stands behind an `IF`, unless the last of its branches is a jump to a label; strict reading
lets no jump through. -/
theorem Program.nothing_after_branch (strict : Bool) (tokens : List Token) (source : List Char) :
    match Program.parse strict tokens source with
    | .error _ => True
    | .ok p => ∀ l ∈ p.lines, ∀ ss ∈ l.stmts :: Stmt.branchesOf l.stmts, ∀ front cond yes no back,
        ss = front ++ .branch cond yes no :: back →
          back = [] ∨ strict = false ∧ ∃ text line, no.getD yes = [.unsupported "GOTO" text line] := by
  rcases hp : Program.parse strict tokens source with why | p
  · trivial
  intro l hl ss hss
  obtain ⟨ts, rest, hline⟩ := Program.exists_reads hp hl
  exact hline.allClosed ss hss

/-- The statement is a comment. -/
def Stmt.isComment : Stmt → Bool
  | comment _ => true
  | _ => false

/-- A statement behind a jump stands behind the `IF`, and is run also where the condition does not hold. -/
theorem statement_after_branch : ∃ (p : Program) (l : Line),
    Program.parse false (Token.scan "10 IF a THEN 20:CLS".toList).tokens "10 IF a THEN 20:CLS".toList = .ok p ∧
      p.lines = [l] ∧ l.stmts.map Stmt.isBranch = [true, false] ∧ l.stmts.map Stmt.isComment = [false, false] := by
  generalize hsource : "10 IF a THEN 20:CLS".toList = source
  have hrun : (Program.parse false (Token.scan source).tokens source).toOption.any (fun p =>
      p.lines.map (fun l => (l.stmts.map Stmt.isBranch, l.stmts.map Stmt.isComment)) ==
        [([true, false], [false, false])]) = true := by
    rw [← hsource]
    decide +kernel
  obtain ⟨p, hp, hrun⟩ := exists_ok_of_any hrun
  obtain ⟨l, hl, hstmts⟩ := List.map_eq_singleton_iff.1 (eq_of_beq hrun)
  obtain ⟨hbranch, hcomment⟩ := Prod.mk.inj hstmts
  exact ⟨p, l, hp, hl, hbranch, hcomment⟩

/-! ## `ELSE` -/

namespace Parse

/-- **On the line that starts at `ts`** and is read as `ss`, each `ELSE` belongs to the nearest `IF` before it
that no earlier `ELSE` is paired with, and the tree has the conditions and statements of the line in their order. -/
structure Bound (s : Setting) (ts : List Token) (ss : List Stmt) : Prop where
  /-- Each `ELSE` token of the line is paired with an `IF`. -/
  paired : ∀ used e r, ts = used ++ e :: r → (∀ u ∈ used, ¬ u.EndsLine) → e.isWord "ELSE" = true →
    ∃ m, (some m, e :: r) ∈ pairUp [] (branchMarks false ts)
  /-- In the tree, each part stands at its place in the line, and the `ELSE` of each `IF` is the one that it is
  paired with. -/
  nearest : ∃ o : Outline, o.stmts = ss ∧ row s ts = some o.parts ∧ o.bonds = pairUp [] (branchMarks false ts)
  /-- Nothing is lost, doubled or moved. -/
  order : (row s ts).map (·.filterMap Prod.snd) = some (Stmt.partsOf ss)

theorem Reads.bound {s : Setting} {ts rest : List Token} {ss : List Stmt} (h : Reads s (.stmts false) ts ss rest)
    (hfree : ∀ m ∈ branchMarks false ts, PlainMark m) : Bound s ts ss := by
  obtain ⟨o, rfl, hbinds⟩ := h.binds trivial hfree
  -- no mark is left behind the line, so what is its own is all there is
  have hpairs : pairUp [] (branchMarks false ts) = o.bonds := by
    have hown := hbinds.pairs []
    rw [branchMarks_ends h.endsLine] at hown
    exact hown.trans (List.append_nil o.bonds)
  have hrow : row s ts = some o.parts := by
    have hown : row s ts = (row s rest).map (o.parts ++ ·) := hbinds.row
    rw [hown, row_ends h.endsLine, Option.map_some, List.append_nil]
  refine ⟨fun used e r hts hused helse => ?_, ⟨o, rfl, hrow, hpairs.symm⟩, ?_⟩
  · have hmem : e :: r ∈ branchMarks false ts := by
      rw [hts]
      exact mem_branchMarks hused helse false r
    obtain ⟨i, hi⟩ := exists_mem_pairUp hmem (isIf_else helse r) []
    rw [hpairs] at hi ⊢
    obtain ⟨m, rfl⟩ := Option.isSome_iff_exists.1 (Outline.isSome_of_mem_bonds hi)
    exact ⟨m, hi⟩
  · rw [hrow, Option.map_some, o.filterMap_parts]

end Parse

/-- **Each `ELSE` goes to the nearest `IF`.** On every line of a program on which no `IF` has a label or a `GOTO` as
a branch, the tree of the line has each `ELSE` as that of the nearest `IF` before it that no earlier `ELSE` is paired
with and, flattened, has the conditions and statements of the line in their order. -/
theorem Program.else_goes_to_nearest (strict : Bool) (tokens : List Token) (source : List Char) :
    match Program.parse strict tokens source with
    | .error _ => True
    | .ok p => List.Forall₂ (fun ts l => (∀ m ∈ branchMarks false ts, PlainMark m) →
        Bound ⟨strict, Source.normalize source⟩ ts l.stmts) (lineStarts true tokens) p.lines := by
  rcases hp : Program.parse strict tokens source with why | p
  · trivial
  refine (Program.reads hp).imp fun ts l hline hfree => ?_
  obtain ⟨rest, hreads⟩ := hline
  exact hreads.bound hfree

/-- The inner one of two `IF`s has the first `ELSE`, the outer one the second: the places are given by the number
of tokens from there on. -/
theorem Program.else_goes_to_nearest_nested : ∃ (p : Program) (ts : List Token) (l : Line),
    Program.parse false (Token.scan "10 IF a THEN IF b THEN CLS ELSE CLS ELSE CLS".toList).tokens
        "10 IF a THEN IF b THEN CLS ELSE CLS ELSE CLS".toList = .ok p ∧ p.lines = [l] ∧
      (pairUp [] (branchMarks false ts)).map (fun x => (x.1.map List.length, x.2.length)) = [(some 9, 5), (some 12, 3)] ∧
      Bound ⟨false, Source.normalize "10 IF a THEN IF b THEN CLS ELSE CLS ELSE CLS".toList⟩ ts l.stmts := by
  generalize hsource : "10 IF a THEN IF b THEN CLS ELSE CLS ELSE CLS".toList = source
  have hstarts : ((lineStarts true (Token.scan source).tokens).map fun ts =>
        (pairUp [] (branchMarks false ts)).map fun x => (x.1.map List.length, x.2.length)) =
          [[(some 9, 5), (some 12, 3)]] ∧
      ∀ ts ∈ lineStarts true (Token.scan source).tokens, ∀ m ∈ branchMarks false ts, PlainMark m := by
    rw [← hsource]
    decide +kernel
  have hrun : (Program.parse false (Token.scan source).tokens source).toOption.isSome = true := by
    rw [← hsource]
    decide +kernel
  obtain ⟨p, hp⟩ := exists_ok_of_isSome hrun
  obtain ⟨ts, hts, hpairs⟩ := List.map_eq_singleton_iff.1 hstarts.1
  have hbound := Program.else_goes_to_nearest false (Token.scan source).tokens source
  rw [hp, hts] at hbound
  obtain ⟨l, ls, hl, hnil, hlines⟩ := List.forall₂_cons_left_iff.1 hbound
  rw [List.forall₂_nil_left_iff.1 hnil] at hlines
  exact ⟨p, ts, l, hp, hlines, hpairs, hl (hstarts.2 ts (by rw [hts]; exact List.mem_singleton.2 rfl))⟩

end Locomotive
