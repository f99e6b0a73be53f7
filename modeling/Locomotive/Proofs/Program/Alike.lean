import Locomotive.Proofs.Stmt.Alike
import Locomotive.Proofs.Stmt.Reading
import Locomotive.Proofs.Stmt.Reads
import Locomotive.Proofs.Stmt.Sound

/-!
# Programs from two lists of tokens

A program is read line by line, so lists of tokens that agree line by line give the same lines, up to where the
agreement ends. The lines before the place where reading starts matter for their labels only.

* `statements_alike`: the statements of a line.
* `SameLines`: lists that agree line by line.
* `lines_alike`: the lines read from them, or the tokens that are to blame.
* `lines_narrows_seen`: what is read after other lines.
* `lines_rejects`: how reading the tokens of a source text can fail.
* `Program.IsOf`: the program of a source text.
-/

namespace Locomotive.Parse

open Parse.Outcome Parse.Parser

/-! ## Statements -/

section

variable {ρ : Token → Token → Prop} {v v' : List Token} {g : Int → Int} {f : String → String} {s s' : Setting}
  (hρ : ∀ t t', ρ t t' → Token.Alike g t t')
include hρ

/-- A jump has no counterpart, and is a statement of its own. -/
theorem jump_alike (hs : s.Alike ρ f s') {kw kw' : Token} (hkw : ρ kw kw') (keyword : String)
    {ts ts' : List Token} (h : SameLine ρ v v' ts ts') :
    Reply.Alike ρ v v' (fun ss ss' => Stmt.recastAll id f ss' = Stmt.recastAll g f ss)
      ((unsupported s kw keyword kw.stop ts).read.andThen fun st rest => .ok ([st], rest))
      ((unsupported s' kw' keyword kw'.stop ts').read.andThen fun st rest => .ok ([st], rest)) := by
  refine Reply.Alike.andThen (unsupported_alike hρ hs hkw hkw keyword h) fun st st' rest rest' _ hst hrest => ?_
  exact ⟨by simp only [Stmt.recastAll, hst], hrest⟩

mutual

/-- **The statements of a line or of a branch.** -/
theorem statements_alike (hs : s.Alike ρ f s') (b : Bool) (ts ts' : List Token) (h : SameLine ρ v v' ts ts') :
    (statements s b ts).Alike ρ v v' (fun ss ss' => Stmt.recastAll id f ss' = Stmt.recastAll g f ss)
      (statements s' b ts') := by
  obtain ⟨t, r, t', r', hts, hts', ht, hends⟩ := h.head
  have halike := hρ t t' ht
  have hlen : ts.length = r.length + 1 := by rw [hts, List.length_cons]
  have hendsLine : t'.EndsLine ↔ t.EndsLine := by rw [Token.EndsLine, halike.kind, Token.EndsLine]
  unfold Outcome.Alike
  rw [hts, hts', read_statements, read_statements, halike.kind]
  by_cases hcolon : t.kind = .colon
  · rw [if_pos hcolon, if_pos hcolon]
    exact statements_alike hs b r r' (hends.resolve_left (not_endsLine (by decide) hcolon)).2
  rw [if_neg hcolon, if_neg hcolon]
  by_cases hline : t.EndsLine
  · rw [if_pos hline, if_pos (hendsLine.2 hline), ← hts, ← hts']
    exact ⟨rfl, h⟩
  rw [if_neg hline, if_neg (mt hendsLine.1 hline), halike.isWord]
  by_cases helse : t.isWord "ELSE" = true
  · rw [if_pos helse, if_pos helse]
    cases b with
    | false => exact ht
    | true =>
      rw [if_pos rfl, if_pos rfl, ← hts, ← hts']
      exact ⟨rfl, h⟩
  rw [if_neg helse, if_neg helse]
  have hfirst := statement_alike hs t t' ht r r' (hends.resolve_left hline).2
  refine Reply.Alike.andThen hfirst fun st st' rest rest' hread hst hrest => ?_
  have hsuffix : rest.length ≤ r.length := (suffix_of_read hread).length_le
  have hbranch : st'.isBranch = st.isBranch := by
    have := congrArg Stmt.isBranch hst
    simpa using this
  rw [hbranch, (hρ _ _ hrest.headD).endsStatement]
  by_cases hend : (st.isBranch || endsStatement (rest.headD Token.endMark)) = true
  · rw [if_pos hend, if_pos hend]
    refine Reply.Alike.andThen (statements_alike hs b rest rest' hrest) fun ss ss' u u' _ hss hu => ?_
    exact ⟨by simp only [Stmt.recastAll, hst, hss], hu⟩
  · rw [if_neg hend, if_neg hend]
    exact hrest.headD
termination_by ts.length * 4
decreasing_by all_goals omega

/-- **A statement.** -/
theorem statement_alike (hs : s.Alike ρ f s') (t t' : Token) (ht : ρ t t') (ts ts' : List Token)
    (h : SameLine ρ v v' ts ts') :
    (statement s t ts).Alike ρ v v' (fun st st' => st'.recast id f = st.recast g f) (statement s' t' ts') := by
  unfold Outcome.Alike
  rw [read_statement, read_statement, (hρ t t' ht).isWord]
  by_cases hif : t.isWord "IF" = true
  · rw [if_pos hif, if_pos hif]
    refine Reply.Alike.andThen (expressionOf_alike hρ .number h) fun cond cond' rest rest' hread hcond hrest => ?_
    have hcondition : cond'.renumber id = cond.renumber g := by rw [Expr.renumber_id, hcond]
    have hsuffix : rest.length ≤ ts.length := (suffix_of_read hread).length_le
    refine Reply.Alike.andThen (consequence_alike hs rest rest' hrest) fun yes yes' mid mid' hreadYes hyes hmid => ?_
    have hsuffixMid : mid.length ≤ rest.length := (suffix_of_read hreadYes).length_le
    rw [(hρ _ _ hmid.headD).isWord]
    by_cases helse : (mid.headD Token.endMark).isWord "ELSE" = true
    · rw [if_pos helse, if_pos helse]
      have hends : ¬ (mid.headD Token.endMark).EndsLine := by
        intro hends
        rw [hends.isWord] at helse
        cases helse
      have hlt : mid.tail.length < mid.length := by
        obtain ⟨k, u, k', u', hk, -⟩ := hmid.head
        rw [hk, List.tail_cons, List.length_cons]
        exact Nat.lt_succ_self _
      have hno := alternative_alike hs _ _ hmid.headD mid.tail mid'.tail (hmid.tail hends)
      refine Reply.Alike.andThen hno fun no no' u u' _ hno hu => ⟨?_, hu⟩
      have hempty : no'.isEmpty = no.isEmpty := by
        rw [← Stmt.isEmpty_recastAll id f no', hno, Stmt.isEmpty_recastAll]
      show Stmt.recast id f (.branch cond' yes' (if no'.isEmpty then none else some no')) =
        Stmt.recast g f (.branch cond yes (if no.isEmpty then none else some no))
      rw [Stmt.recast, Stmt.recast, hcondition, hyes, hempty]
      cases no.isEmpty with
      | true => rfl
      | false =>
        rw [if_neg Bool.false_ne_true, if_neg Bool.false_ne_true, Stmt.recastElse, Stmt.recastElse, hno]
    · rw [if_neg helse, if_neg helse]
      refine ⟨?_, hmid⟩
      show Stmt.recast id f (.branch cond' yes' none) = Stmt.recast g f (.branch cond yes none)
      rw [Stmt.recast, Stmt.recast, hcondition, hyes]
      rfl
  · rw [if_neg hif, if_neg hif]
    exact simple_alike hρ hs ht h
termination_by ts.length * 4 + 3
decreasing_by all_goals omega

/-- **What an `IF` does** if its condition holds. -/
theorem consequence_alike (hs : s.Alike ρ f s') (ts ts' : List Token) (h : SameLine ρ v v' ts ts') :
    (consequence s ts).Alike ρ v v' (fun ss ss' => Stmt.recastAll id f ss' = Stmt.recastAll g f ss)
      (consequence s' ts') := by
  obtain ⟨t, r, t', r', hts, hts', ht, hends⟩ := h.head
  have halike := hρ t t' ht
  have hlen : ts.length = r.length + 1 := by rw [hts, List.length_cons]
  have hword : ∀ word, t.isWord word = true → SameLine ρ v v' r r' := by
    intro word hw
    refine (hends.resolve_left fun hends => ?_).2
    rw [hends.isWord] at hw
    cases hw
  unfold Outcome.Alike
  rw [hts, hts', read_consequence, read_consequence, halike.isWord, halike.isWord, halike.lexeme]
  by_cases hthen : t.isWord "THEN" = true
  · rw [if_pos hthen, if_pos hthen]
    exact alternative_alike hs t t' ht r r' (hword _ hthen)
  rw [if_neg hthen, if_neg hthen]
  by_cases hgoto : t.isWord "GOTO" = true
  · rw [if_pos hgoto, if_pos hgoto]
    exact jump_alike hρ hs ht t.lexeme (hword _ hgoto)
  · rw [if_neg hgoto, if_neg hgoto]
    exact ht
termination_by ts.length * 4 + 2
decreasing_by omega

/-- **The body after a `THEN` or an `ELSE`.** -/
theorem alternative_alike (hs : s.Alike ρ f s') (kw kw' : Token) (hkw : ρ kw kw') (ts ts' : List Token)
    (h : SameLine ρ v v' ts ts') :
    (alternative s kw ts).Alike ρ v v' (fun ss ss' => Stmt.recastAll id f ss' = Stmt.recastAll g f ss)
      (alternative s' kw' ts') := by
  unfold Outcome.Alike
  rw [read_alternative, read_alternative, (hρ _ _ h.headD).kind]
  by_cases hnum : (ts.headD Token.endMark).kind = .number
  · rw [if_pos hnum, if_pos hnum]
    exact jump_alike hρ hs hkw "GOTO" h
  · rw [if_neg hnum, if_neg hnum]
    exact statements_alike hs true ts ts' h
termination_by ts.length * 4 + 1
decreasing_by omega

end

end

/-! ## Lines -/

/-- **Two lists that agree line by line**, up to `w` and `w'`. -/
inductive SameLines (ρ : Token → Token → Prop) (w w' : List Token) : List Token → List Token → Prop
  | done : SameLines ρ w w' w w'
  | cons {v v' ts ts' : List Token} (h : SameLine ρ v v' ts ts') (rest : SameLines ρ w w' v v') :
      SameLines ρ w w' ts ts'

/-- **Lists of related tokens** agree line by line: the last token ends its line or the text, and no other ends the
text. -/
theorem sameLines_of_forall₂ {ρ : Token → Token → Prop} {w w' ts ts' : List Token} {e e' : Token}
    (h : List.Forall₂ ρ ts ts') (hinside : ∀ t ∈ ts, t.kind ≠ .eof) (he : ρ e e')
    (hend : e.kind = .eol ∨ e.kind = .eof ∧ w = [] ∧ w' = []) :
    SameLines ρ w w' (ts ++ e :: w) (ts' ++ e' :: w') := by
  -- the first line is there from the start, so that a token can be put into it
  suffices hfirst : ∃ v v', SameLine ρ v v' (ts ++ e :: w) (ts' ++ e' :: w') ∧ SameLines ρ w w' v v' by
    obtain ⟨v, v', hline, hrest⟩ := hfirst
    exact .cons hline hrest
  induction h with
  | nil => exact ⟨w, w', .stop he hend, .done⟩
  | @cons t t' r r' ht _ ih =>
    rw [List.forall_mem_cons] at hinside
    obtain ⟨v, v', hline, hrest⟩ := ih hinside.2
    by_cases heol : t.kind = .eol
    · exact ⟨_, _, .stop ht (.inl heol), .cons hline hrest⟩
    · exact ⟨v, v', .cons ht (not_or.2 ⟨heol, hinside.1⟩) hline, hrest⟩

/-- The value of the last label behind the lines `ls`, if it was `last` before them. -/
def lastLabel (last : Int) (ls : List Line) : Int := ls.foldl (fun m l => (l.label.map labelValue).getD m) last

/-- What follows the line of a list that ends there. -/
theorem SameLine.eof_tail {ρ : Token → Token → Prop} {v v' ts ts' : List Token} (h : SameLine ρ v v' ts ts')
    (ht : (ts.headD Token.endMark).kind = .eof) : v = [] ∧ v' = [] := by
  cases h with
  | stop h hend =>
    rcases hend with hk | ⟨-, hv⟩
    · rw [List.headD_cons, hk] at ht
      cases ht
    · exact hv
  | cons h hmid rest => exact absurd (.inr ht) hmid

/-- The last token of the line, which is the one that is taken last. -/
theorem SameLine.lastTaken {ρ : Token → Token → Prop} {v v' ts ts' : List Token} (h : SameLine ρ v v' ts ts') :
    ρ (lastTaken ts v) (lastTaken ts' v') := by
  have hlast : ∀ (front : List Token) (t : Token) (w : List Token), Parse.lastTaken (front ++ t :: w) w = t := by
    intro front t w
    have hlen : (front ++ t :: w).length - w.length = (front ++ [t]).length := by
      simp only [List.length_append, List.length_cons, List.length_nil]
      omega
    rw [Parse.lastTaken, hlen, List.append_cons front t w, List.take_left, List.getLastD_concat]
  obtain ⟨front, t, front', t', rfl, rfl, ht⟩ : ∃ front t front' t', ts = front ++ t :: v ∧ ts' = front' ++ t' :: v' ∧
      ρ t t' := by
    induction h with
    | @stop t t' ht hend => exact ⟨[], t, [], t', rfl, rfl, ht⟩
    | @cons u u' _ _ hu hmid rest ih =>
      obtain ⟨front, t, front', t', rfl, rfl, ht⟩ := ih
      exact ⟨u :: front, t, u' :: front', t', rfl, rfl, ht⟩
  rw [hlast, hlast]
  exact ht

/-- One line before others. -/
theorem map_cons_append {α ε : Type} (o : Except ε (List α)) (a : α) (as : List α) :
    (o.map (as ++ ·)).map (a :: ·) = o.map (a :: as ++ ·) := by
  cases o <;> rfl

/-! ### All lines -/

section

variable {ρ : Token → Token → Prop} {w w' : List Token} {g : Int → Int} {f : String → String} {s s' : Setting}
  (hρ : ∀ t t', ρ t t' → Token.Alike g t t')
include hρ

/-- The labels of two lines at once. -/
theorem lineLabel_alike {seen seen' : List Line} (hseen : labelsOf seen' = labelsOf seen) {t t' : Token} (ht : ρ t t')
    (r r' : List Token) (label : Option String) :
    lineLabel seen' t' r' = .ok label ↔ lineLabel seen t r = .ok label := by
  rw [lineLabel_eq_ok_iff, lineLabel_eq_ok_iff, (hρ t t' ht).kind, (hρ t t' ht).lexeme, hseen]

omit hρ in
/-- Behind the label of a line the lists still agree. -/
theorem afterLabel_sameLine {v v' r r' : List Token} {t t' : Token} (h : SameLine ρ v v' (t :: r) (t' :: r'))
    (hr : SameLine ρ v v' r r') (label : Option String) :
    SameLine ρ v v' (afterLabel label t r) (afterLabel label t' r') := by
  cases label with
  | none => exact h
  | some l => exact hr

omit hρ in
/-- What strict reading finds wrong with a line is a matter of its label. -/
theorem strictComplaint_alike (hs : s.Alike ρ f s') {last last' : Int} (hlast : s.strict = true → last' = last)
    (n n' : Int) (label : Option String) (ss ss' : List Stmt) :
    (if s'.strict then strictComplaint? last' ⟨n', label, ss'⟩ else none) =
      if s.strict then strictComplaint? last ⟨n, label, ss⟩ else none := by
  rw [hs.strict]
  split
  · rename_i hstrict
    rw [hlast hstrict]
    rfl
  · rfl

/-- **One line of two lists**: the same line is read from both, or both readings fail there and blame related
tokens. -/
theorem line_alike (hs : s.Alike ρ f s') {v v' r r' : List Token} {t t' : Token}
    (h : SameLine ρ v v' (t :: r) (t' :: r')) (ht : ρ t t') (hmid : ¬ t.EndsLine) (hr : SameLine ρ v v' r r')
    {seen seen' : List Line} {last last' : Int} (hseen : labelsOf seen' = labelsOf seen)
    (hlast : s.strict = true → last' = last) (hrejects : ∀ e, lines s seen last (t :: r) = .error e → e.Rejects)
    (hrejects' : ∀ e, lines s' seen' last' (t' :: r') = .error e → e.Rejects) :
    (∃ e e', lines s seen last (t :: r) = .error e ∧ lines s' seen' last' (t' :: r') = .error e' ∧ e.Alike ρ e') ∨
    ∃ l l', lines s seen last (t :: r) = (lines s (seen ++ [l]) (lastLabel last [l]) v).map (l :: ·) ∧
      lines s' seen' last' (t' :: r') = (lines s' (seen' ++ [l']) (lastLabel last' [l']) v').map (l' :: ·) ∧
      l'.recast id f = l.recast g f ∧ l'.label = l.label := by
  have halike := hρ t t' ht
  have hmid' : ¬ t'.EndsLine := by rwa [Token.EndsLine, halike.kind]
  rw [lines_line s seen last hmid, line] at hrejects ⊢
  rw [lines_line s' seen' last' hmid', line] at hrejects' ⊢
  have hlabels := lineLabel_alike hρ hseen ht r r'
  cases hl : lineLabel seen t r with
  | error e =>
    cases hl' : lineLabel seen' t' r' with
    | error e' =>
      obtain ⟨c, rest, rfl, -⟩ := lineLabel_error hl
      obtain ⟨c', rest', rfl, -⟩ := lineLabel_error hl'
      exact .inl ⟨_, _, rfl, rfl, ht⟩
    | ok label =>
      rw [(hlabels label).1 hl'] at hl
      cases hl
  | ok label =>
    rw [(hlabels label).2 hl] at hrejects' ⊢
    rw [hl] at hrejects
    dsimp only at hrejects hrejects' ⊢
    have hstmts := statements_alike hρ hs false _ _ (afterLabel_sameLine h hr label)
    unfold Outcome.Alike at hstmts
    generalize ho : (statements s false (afterLabel label t r)).read = o at hstmts hrejects ⊢
    generalize (statements s' false (afterLabel label t' r')).read = o' at hstmts hrejects' ⊢
    rcases o with e | ⟨ss, mid⟩ <;> rcases o' with e' | ⟨ss', mid'⟩
    · exact .inl ⟨e, e', rfl, rfl, hstmts⟩
    · exact absurd (hrejects e rfl) hstmts
    · exact absurd (hrejects' e' rfl) hstmts
    · -- both lines end where the lists still agree
      obtain ⟨hss, hsame⟩ := hstmts
      obtain ⟨u, q, u', q', rfl, rfl, -, -⟩ := hsame.head
      obtain ⟨rfl, rfl⟩ := hsame.tail_of_endsLine (reads_of_run (.stmts false) _ ho).endsLine
      simp only [Reply.andThen_ok, List.tail_cons]
      rw [strictComplaint_alike hs hlast t.line t'.line label ss ss']
      cases (if s.strict then strictComplaint? last ⟨t.line, label, ss⟩ else none) with
      | some c => exact .inl ⟨_, _, rfl, rfl, h.lastTaken⟩
      | none =>
        refine .inr ⟨⟨t.line, label, ss⟩, ⟨t'.line, label, ss'⟩, rfl, rfl, ?_, rfl⟩
        simp only [Line.recast, hss, halike.line, id]

/-- **The lines of two lists**: the same lines are read up to where the lists no longer agree, or both readings
fail before and blame related tokens. -/
theorem lines_alike (hs : s.Alike ρ f s') {ts ts' : List Token} (h : SameLines ρ w w' ts ts') {seen seen' : List Line}
    {last last' : Int} (hseen : labelsOf seen' = labelsOf seen) (hlast : s.strict = true → last' = last)
    (hrejects : ∀ e, lines s seen last ts = .error e → e.Rejects)
    (hrejects' : ∀ e, lines s' seen' last' ts' = .error e → e.Rejects) :
    (∃ e e', lines s seen last ts = .error e ∧ lines s' seen' last' ts' = .error e' ∧ e.Alike ρ e') ∨
    ∃ ls ls', lines s seen last ts = (lines s (seen ++ ls) (lastLabel last ls) w).map (ls ++ ·) ∧
      lines s' seen' last' ts' = (lines s' (seen' ++ ls') (lastLabel last' ls') w').map (ls' ++ ·) ∧
      ls'.map (Line.recast id f) = ls.map (Line.recast g f) ∧ labelsOf ls' = labelsOf ls := by
  induction h generalizing seen seen' last last' with
  | done =>
    refine .inr ⟨[], [], ?_, ?_, rfl, rfl⟩
    · cases h : lines s seen last w <;> simp [h, lastLabel, Except.map]
    · cases h : lines s' seen' last' w' <;> simp [h, lastLabel, Except.map]
  | @cons v v' ts ts' h rest ih =>
    obtain ⟨t, r, t', r', rfl, rfl, ht, hends⟩ := h.head
    have halike := hρ t t' ht
    rcases hends with hends | ⟨hmid, hr⟩
    · -- an empty line, or the end of the text
      obtain ⟨rfl, rfl⟩ := h.tail_of_endsLine hends
      have hskip : lines s seen last (t :: r) = lines s seen last r ∧
          lines s' seen' last' (t' :: r') = lines s' seen' last' r' := by
        rcases hends with heol | heof
        · exact ⟨lines_eol s seen last heol r, lines_eol s' seen' last' (halike.kind.trans heol) r'⟩
        · obtain ⟨rfl, rfl⟩ := h.eof_tail heof
          rw [lines_eof s seen last heof, lines_eof s' seen' last' (halike.kind.trans heof), lines_nil, lines_nil]
          exact ⟨rfl, rfl⟩
      rw [hskip.1] at hrejects ⊢
      rw [hskip.2] at hrejects' ⊢
      exact ih hseen hlast hrejects hrejects'
    rcases line_alike hρ hs h ht hmid hr hseen hlast hrejects hrejects' with
      hfail | ⟨l, l', hread, hread', hline, hlabel⟩
    · exact .inl hfail
    rw [hread] at hrejects ⊢
    rw [hread'] at hrejects' ⊢
    have hseen' : labelsOf (seen' ++ [l']) = labelsOf (seen ++ [l]) := by
      rw [labelsOf_snoc, labelsOf_snoc, hseen, hlabel]
    have hlast' : s.strict = true → lastLabel last' [l'] = lastLabel last [l] := by
      intro hstrict
      simp only [lastLabel, List.foldl_cons, List.foldl_nil, hlabel, hlast hstrict]
    rcases ih hseen' hlast' (fun e he => hrejects e (by rw [he]; rfl)) fun e he => hrejects' e (by rw [he]; rfl) with
      ⟨e, e', he, he', hblamed⟩ | ⟨ls, ls', hmore, hmore', hlines, hnames⟩
    · exact .inl ⟨e, e', by rw [he]; rfl, by rw [he']; rfl, hblamed⟩
    · refine .inr ⟨l :: ls, l' :: ls', ?_, ?_, ?_, ?_⟩
      · rw [hmore, List.append_assoc, List.singleton_append, map_cons_append]
        rfl
      · rw [hmore', List.append_assoc, List.singleton_append, map_cons_append]
        rfl
      · rw [List.map_cons, List.map_cons, hline, hlines]
      · rw [labelsOf_cons, labelsOf_cons, hlabel, hnames]

/-- The same for lists that agree to their ends. -/
theorem lines_alike_all (hs : s.Alike ρ f s') {ts ts' : List Token} (h : SameLines ρ [] [] ts ts')
    {seen seen' : List Line} {last last' : Int} (hseen : labelsOf seen' = labelsOf seen)
    (hlast : s.strict = true → last' = last) (hrejects : ∀ e, lines s seen last ts = .error e → e.Rejects)
    (hrejects' : ∀ e, lines s' seen' last' ts' = .error e → e.Rejects) :
    (∃ e e', lines s seen last ts = .error e ∧ lines s' seen' last' ts' = .error e') ∨
    ∃ ls ls', lines s seen last ts = .ok ls ∧ lines s' seen' last' ts' = .ok ls' ∧
      ls'.map (Line.recast id f) = ls.map (Line.recast g f) ∧ labelsOf ls' = labelsOf ls := by
  rcases lines_alike hρ hs h hseen hlast hrejects hrejects' with
    ⟨e, e', he, he', -⟩ | ⟨ls, ls', hread, hread', hls, hnames⟩
  · exact .inl ⟨e, e', he, he'⟩
  · rw [lines_nil, Except.map, List.append_nil] at hread hread'
    exact .inr ⟨ls, ls', hread, hread', hls, hnames⟩

end

/-! ### Other lines before -/

/-- **After more lines** the same is read if it has none of their labels, and otherwise nothing. -/
theorem lines_narrows_seen {s : Setting} (hs : s.strict = false) {extra : String → Prop} {seen seen' : List Line}
    (hseen : ∀ l, l ∈ labelsOf seen' ↔ extra l ∨ l ∈ labelsOf seen) (last last' : Int) (ts : List Token) :
    Narrows (fun ls => ∀ l ∈ labelsOf ls, ¬ extra l) (lines s seen' last' ts) (lines s seen last ts) := by
  have hlax : ∀ {last : Int} {ls : List Line}, s.strict = true → StrictFrom last ls := by
    intro last ls hstrict
    rw [hs] at hstrict
    cases hstrict
  refine .of_iff fun ls => ?_
  rw [lines_eq_ok_iff, lines_eq_ok_iff]
  constructor
  · intro h
    refine ⟨h.transfer (fun _ _ _ _ => id) (fun l _ hl => (hseen l).2 (.inr hl)) hlax, fun l hl hextra => ?_⟩
    exact h.labels.2 l hl ((hseen l).2 (.inl hextra))
  · rintro ⟨h, hls⟩
    exact h.transfer (fun _ _ _ _ => id) (fun l hl hmem => ((hseen l).1 hmem).resolve_left (hls l hl)) hlax

/-- Where the tokens of a text, or the last ones of them, are no lines, a token is to blame. -/
theorem lines_rejects (strict : Bool) (cs : List Char) {ts : List Token}
    (hts : ts <:+ (Token.scanFrom cs 0 1).tokens) (seen : List Line) (last : Int) (e : Failure)
    (he : lines ⟨strict, cs⟩ seen last ts = .error e) : e.Rejects := by
  have horder := (Token.scanned cs 0 1).inOrder
  rw [Nat.zero_add] at horder
  exact lines_refuses ⟨strict, cs⟩ seen last ts (horder.toInOrder.suffix hts) e he

end Locomotive.Parse

namespace Locomotive

/-- The source text is scanned without an error and read, not strictly, as the program. -/
def Program.IsOf (source : List Char) (p : Program) : Prop :=
  (Token.scan source).error = none ∧ Program.parse false (Token.scan source).tokens source = .ok p

end Locomotive
