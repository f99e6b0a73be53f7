import Locomotive.Proofs.Stmt.Reads

/-!
# What is read as a statement is sound

The statements that are read from the tokens of a source text are proper, the names and numbers in them are written in
characters that need no escape, and no comment holds a line break. They all stand on one line, for any tokens at all. If
nothing is read, a token is rejected: none is found outside of the source text, since the tokens stand in it in order.

* `Stmt.AllSound`: what holds of the statements.
* `Parse.Reads.sound`: whatever is read has it.
* `Parse.Within`, `Parse.statements_keepLine`: where reading ends, and why nothing is read.
* `Parse.program_sound`, `Parse.program_proper`: the lines of a program; no two of them have the same label.
-/

namespace Locomotive

open Text (AllWithin Unbroken)

namespace Stmt

/-- **Sound statements.** -/
structure AllSound (ss : List Stmt) : Prop where
  proper : AllProper ss
  words : AllSpelled Js.Plain ss
  remarks : AllWithin Unbroken (gatherOf remark? ss)

theorem allSound_nil : AllSound [] := ⟨trivial, trivial, Text.allWithin_nil⟩

theorem allSound_cons {s : Stmt} {ss : List Stmt} (hp : s.Proper) (hw : s.Spelled Js.Plain)
    (hr : AllWithin Unbroken (s.gather remark?)) (h : AllSound ss) : AllSound (s :: ss) :=
  ⟨⟨hp, h.proper⟩, ⟨hw, h.words⟩, Text.allWithin_append.2 ⟨hr, h.remarks⟩⟩

/-- A node of which no comment is shown. -/
theorem AllSound.cons {s : Stmt} {ss : List Stmt} (h : AllSound ss) (hs : s.Proper ∧ s.Spelled Js.Plain)
    (hr : s.gather remark? = []) : AllSound (s :: ss) :=
  allSound_cons hs.1 hs.2 (by rw [hr]; exact Text.allWithin_nil) h

/-- An `ELSE` without statements is left out. -/
theorem AllSound.branch {cond : Expr} {yes no ss : List Stmt} (h : AllSound ss)
    (hc : cond.Proper ∧ cond.Spelled Js.Plain) (hy : AllSound yes) (hn : AllSound no) :
    AllSound (.branch cond yes (if no.isEmpty then none else some no) :: ss) := by
  cases no with
  | nil =>
    refine allSound_cons (s := .branch cond yes none) ⟨hc.1, hy.proper, trivial⟩ ⟨hc.2, hy.words, trivial⟩ ?_ h
    exact Text.allWithin_append.2 ⟨hy.remarks, Text.allWithin_nil⟩
  | cons st more =>
    refine allSound_cons (s := .branch cond yes (some (st :: more))) ⟨hc.1, hy.proper, hn.proper⟩
      ⟨hc.2, hy.words, hn.words⟩ ?_ h
    exact Text.allWithin_append.2 ⟨hy.remarks, hn.remarks⟩

end Stmt

namespace Parse

open Token (InOrder)

variable {n : Nat} {ts : List Token} {K : Token → Prop}

/-! ## What is read -/

theorem unsupported_sound {s : Setting} {start : Token} {keyword : String} {stop : Int} {st : Stmt} {rest : List Token}
    (h : (unsupported s start keyword stop ts).read = .ok (st, rest)) {ss : List Stmt} (hss : Stmt.AllSound ss) :
    Stmt.AllSound (st :: ss) := by
  obtain ⟨⟨text, rfl⟩, -⟩ := of_unsupported h
  exact hss.cons ⟨trivial, trivial⟩ rfl

theorem simple_sound (hK : Sourced K) {s : Setting} {t : Token} (hts : ∀ u ∈ t :: ts, K u) {q : Parsed Stmt ts}
    (h : simple s t ts = .ok q) {ss : List Stmt} (hss : Stmt.AllSound ss) : Stmt.AllSound (q.value :: ss) := by
  cases simple_read hts h with
  | unsupported _ _ _ _ _ _ _ _ _ _ h => exact unsupported_sound h hss
  | data items _ hvalue hproper =>
    rw [hvalue] at hproper ⊢
    exact hss.cons ⟨hproper, trivial⟩ rfl
  | comment hkind hvalue =>
    obtain ⟨n, hn⟩ := hK
    have hremark := (hn t (hts t List.mem_cons_self)).2.remark hkind
    rw [hvalue]
    exact Stmt.allSound_cons trivial trivial (Text.allWithin_cons.2 ⟨hremark, Text.allWithin_nil⟩) hss
  | plain hsound => exact hss.cons (hsound.sound hK) hsound.noRemark

/-- **Whatever is read** from the tokens of a source text is sound. -/
theorem Reads.sound (hK : Sourced K) {s : Setting} {b : Bool} {rest : List Token} {ss : List Stmt}
    (h : Reads s (.stmts b) ts ss rest) (hts : ∀ t ∈ ts, K t) : Stmt.AllSound ss := by
  refine Reads.holds (Q := fun ts => ∀ t ∈ ts, K t) (fun hsuf h u hu => h u (hsuf.subset hu)) Stmt.allSound_nil
    (fun hts hq => simple_sound hK hts hq) (fun hts hc hyes hno hss => hss.branch ?_ hyes hno)
    (fun _ _ hq => unsupported_sound (read_eq_ok hq) Stmt.allSound_nil) h hts
  exact ((expressionOf_takes .number _ hts).of_ok (read_eq_ok hc)).1.sound hK

/-! ## Where reading ends -/

/-- **Both places stand on the same line.** -/
def Within (ts rest : List Token) : Prop := ∃ used, ts = used ++ rest ∧ ∀ u ∈ used, ¬ u.EndsLine

theorem not_endsLine_of_ends {t : Token} (h : endsStatement t = false) : ¬ t.EndsLine := by
  intro hends
  rw [hends.endsStatement] at h
  cases h

theorem not_endsLine_of_isWord {t : Token} {w : String} (h : t.isWord w = true) : ¬ t.EndsLine := by
  simp [Token.EndsLine, (eq_of_isWord h).1]

namespace Within

variable {t : Token} {mid rest : List Token}

theorem refl (ts : List Token) : Within ts ts := ⟨[], rfl, by simp⟩

theorem suffix (h : Within ts rest) : rest <:+ ts := h.imp fun _ hused => hused.1.symm

theorem trans (h : Within ts mid) (h' : Within mid rest) : Within ts rest := by
  obtain ⟨used, rfl, hused⟩ := h
  obtain ⟨used', rfl, hused'⟩ := h'
  exact ⟨used ++ used', by rw [List.append_assoc], List.forall_mem_append.2 ⟨hused, hused'⟩⟩

/-- A token of the line. -/
theorem one (ht : ¬ t.EndsLine) (ts : List Token) : Within (t :: ts) ts := ⟨[t], rfl, List.forall_mem_singleton.2 ht⟩

/-- The end of the line. -/
theorem eq_dropWhile (h : Within ts rest) (hends : (rest.headD Token.endMark).EndsLine) :
    rest = ts.dropWhile fun t => !decide t.EndsLine := by
  obtain ⟨used, rfl, hused⟩ := h
  rw [List.dropWhile_append_of_pos (by simpa using hused)]
  cases rest with
  | nil => rfl
  | cons t r => rw [List.dropWhile_cons_of_neg (by simpa using hends)]

theorem dropWhile (ts : List Token) : Within ts (ts.dropWhile fun t => !endsStatement t) := by
  refine ⟨ts.takeWhile fun t => !endsStatement t, List.takeWhile_append_dropWhile.symm, fun u hu => ?_⟩
  have hends := List.all_eq_true.1 List.all_takeWhile u hu
  exact not_endsLine_of_ends (by simpa using hends)

end Within

theorem Taken.within {rest : List Token} (h : Taken ts rest) : Within ts rest := by
  obtain ⟨used, rfl, hused⟩ := h
  exact ⟨used, rfl, fun u hu => not_endsLine_of_ends (hused u hu).ends⟩

theorem Skipped.within {rest : List Token} (h : Skipped ts rest) : Within ts rest := by
  obtain ⟨kw, mid, htaken, hkind, -, rfl⟩ := h
  exact htaken.within.trans (.trans (.one (by simp [Token.EndsLine, hkind]) mid) (.dropWhile mid))

/-- **What is read ends on the line** that it starts on. A failure is found there or behind, is not about how labels
follow one another and, from tokens that stand in order in the source, rejects one of them. -/
def Reply.KeepsLine {α : Type} (source : List Char) (ts : List Token) (o : Reply α) : Prop :=
  match o with
  | .error f => f.Inside ∧ f.rest <:+ ts ∧ (InOrder source.length ts → f.Rejects)
  | .ok (_, rest) => Parse.Within ts rest

namespace Reply.KeepsLine

variable {α β : Type} {source : List Char} {o : Reply α} {mid : List Token}

theorem of_takes {V : α → Prop} (h : o.Takes V ts) : o.KeepsLine source ts := by
  rcases o with (⟨t, c, r⟩ | t) | ⟨a, rest⟩
  · exact ⟨h.1, h.2, fun _ => trivial⟩
  · exact h.1.elim
  · exact h.2.within

theorem rejected {t : Token} {c : Complaint} (h : ¬ c.OfOrder) (ts : List Token) :
    KeepsLine source ts (.error (.rejected t c ts) : Reply α) := ⟨h, List.suffix_refl ts, fun _ => trivial⟩

/-- What is read from a later place of the line. -/
theorem after (hmid : Parse.Within ts mid) (h : o.KeepsLine source mid) : o.KeepsLine source ts := by
  rcases o with f | ⟨a, rest⟩
  · exact ⟨h.1, h.2.1.trans hmid.suffix, fun horder => h.2.2 (horder.suffix hmid.suffix)⟩
  · exact hmid.trans h

theorem andThen {f : α → List Token → Reply β} (h : o.KeepsLine source ts)
    (hf : ∀ a rest, o = .ok (a, rest) → (f a rest).KeepsLine source rest) : (o.andThen f).KeepsLine source ts := by
  rcases o with f | ⟨a, rest⟩
  · exact h
  · exact after h (hf a rest rfl)

end Reply.KeepsLine

open Reply.KeepsLine (of_takes rejected)

variable (s : Setting)

/-- **A statement without a counterpart** lies in the source, like the tokens up to `last` that it starts with. -/
theorem unsupported_keepsLine {t last : Token} {used rest : List Token} (keyword : String) (hts : t :: ts = used ++ rest)
    (hlast : last ∈ used) (hline : Within (t :: ts) (rest.dropWhile fun u => !endsStatement u)) :
    (unsupported s t keyword last.stop rest).read.KeepsLine s.source (t :: ts) := by
  unfold unsupported
  split
  · exact ⟨id, ⟨used, hts.symm⟩, fun _ => trivial⟩
  dsimp only
  split
  · rename_i hslice
    refine ⟨trivial, hline.suffix, fun horder => ?_⟩
    -- what is cut out goes from the first token up to a later one
    obtain ⟨e, he, hstop⟩ : ∃ e ∈ t :: ts,
        ((rest.takeWhile fun u => !endsStatement u).getLast?.map Token.stop).getD last.stop = e.stop := by
      cases hl : (rest.takeWhile fun u => !endsStatement u).getLast? with
      | none => exact ⟨last, by rw [hts]; exact List.mem_append_left _ hlast, rfl⟩
      | some e =>
        have he : e ∈ rest := (List.takeWhile_sublist _).mem (List.mem_of_getLast? hl)
        exact ⟨e, by rw [hts]; exact List.mem_append_right _ he, rfl⟩
    have hfits := horder.fits t List.mem_cons_self
    have hend : t.pos ≤ e.stop ∧ e.stop ≤ s.source.length := by
      rcases List.mem_cons.1 he with rfl | he
      · exact ⟨hfits.width, hfits.inside⟩
      · exact horder.pos_le_stop he
    rw [hstop, slice?, if_pos ⟨hfits.start, hend⟩] at hslice
    cases hslice
  · exact hline

/-- A jump is a statement of its own. -/
theorem jump_keepsLine {kw : Token} (hkw : ¬ kw.EndsLine) (keyword : String) (ts : List Token) :
    Reply.KeepsLine s.source (kw :: ts)
      ((unsupported s kw keyword kw.stop ts).read.andThen fun st rest => .ok ([st], rest)) := by
  have hjump := unsupported_keepsLine s keyword (show kw :: ts = [kw] ++ ts from rfl) List.mem_cons_self
    (.trans (.one hkw ts) (.dropWhile ts))
  exact hjump.andThen fun _ rest _ => Within.refl rest

theorem simple_keepsLine (t : Token) (ts : List Token) : (simple s t ts).read.KeepsLine s.source (t :: ts) := by
  cases start_of_simple t ts with
  | unsupported keyword used rest last hts _ hlast hskip hstmt =>
    rw [hstmt]
    exact unsupported_keepsLine s keyword hts hlast hskip.within
  | data hword hstmt =>
    rw [hstmt]
    exact (of_takes (data_takes (K := Any) ts fun _ _ => trivial)).after (.one (not_endsLine_of_isWord hword) ts)
  | comment hkind hstmt =>
    rw [hstmt]
    exact Within.one (by simp [Token.EndsLine, hkind]) ts
  | plain o hstmt ho =>
    rw [hstmt]
    exact of_takes ho

mutual

/-- **The statements of a line or of a branch.** -/
theorem statements_keepLine (b : Bool) (ts : List Token) : (statements s b ts).read.KeepsLine s.source ts := by
  match ts with
  | [] =>
    rw [statements]
    exact Within.refl []
  | t :: r =>
    rw [read_statements]
    split
    · rename_i hcolon
      exact (statements_keepLine b r).after (.one (by simp [Token.EndsLine, hcolon]) r)
    split
    · exact Within.refl _
    split
    · split
      · exact Within.refl _
      · exact rejected id _
    · refine (statement_keepsLine t r).andThen fun st rest hread => ?_
      have hlen := (suffix_of_read hread).length_le
      split
      · exact (statements_keepLine b rest).andThen fun _ rest _ => Within.refl rest
      · exact rejected id _
termination_by ts.length * 4
decreasing_by
  all_goals simp only [List.length_cons]
  all_goals omega

/-- **A statement.** -/
theorem statement_keepsLine (t : Token) (ts : List Token) : (statement s t ts).read.KeepsLine s.source (t :: ts) := by
  rw [read_statement]
  split
  · rename_i hif
    refine .after (.one (not_endsLine_of_isWord hif) ts) ?_
    refine (of_takes (expressionOf_takes (K := Any) .number ts fun _ _ => trivial)).andThen fun cond rest hread => ?_
    have hlen := (suffix_of_read hread).length_le
    refine (consequence_keepsLine rest).andThen fun yes mid hreadYes => ?_
    split
    · rename_i helse
      cases mid with
      | nil => cases helse
      | cons kw r =>
        have hlt : r.length < rest.length := by
          rw [← Nat.succ_le_iff]
          simpa using (suffix_of_read hreadYes).length_le
        exact (alternative_keepsLine (not_endsLine_of_isWord helse) r).andThen fun _ rest _ => Within.refl rest
    · exact Within.refl mid
  · exact simple_keepsLine s t ts
termination_by ts.length * 4 + 3
decreasing_by all_goals omega

/-- **What an `IF` does** if its condition holds. -/
theorem consequence_keepsLine (ts : List Token) : (consequence s ts).read.KeepsLine s.source ts := by
  match ts with
  | [] =>
    rw [consequence]
    exact rejected id _
  | kw :: r =>
    rw [read_consequence]
    split
    · exact alternative_keepsLine (not_endsLine_of_isWord ‹_›) r
    split
    · exact jump_keepsLine s (not_endsLine_of_isWord ‹_›) kw.lexeme r
    · exact rejected id _
termination_by ts.length * 4 + 2
decreasing_by
  simp only [List.length_cons]
  omega

/-- **The body after a `THEN` or an `ELSE`.** -/
theorem alternative_keepsLine {kw : Token} (hkw : ¬ kw.EndsLine) (ts : List Token) :
    (alternative s kw ts).read.KeepsLine s.source (kw :: ts) := by
  rw [read_alternative]
  split
  · exact jump_keepsLine s hkw "GOTO" ts
  · exact (statements_keepLine true ts).after (.one hkw ts)
termination_by ts.length * 4 + 1
decreasing_by omega

end

/-! ## Lines -/

/-- The label of a line that starts with a token of a text. -/
theorem isLabel_of_lineLabel {seen : List Line} {t : Token} {ts : List Token} {label : Option String}
    (ht : t.kind = .number → Token.IsNumeral t.lexeme) (h : lineLabel seen t ts = .ok label) :
    ∀ l ∈ label, IsLabel l := by
  rcases lineLabel_eq_ok_iff.1 h with ⟨-, rfl⟩ | ⟨hk, l, hl, rfl, -⟩
  · simp
  · rintro _ ⟨⟩
    exact label?_isLabel hl (ht hk)

/-- **Where no lines are read**, a token is rejected. -/
theorem lines_refuses (seen : List Line) (last : Int) (ts : List Token) (h : InOrder s.source.length ts) (f : Failure)
    (hf : lines s seen last ts = .error f) : f.Rejects := by
  fun_induction lines s seen last ts with
  | case1 | case2 => cases hf
  | case3 seen last t r _ heol ih => exact ih (h.suffix (List.suffix_cons t r)) hf
  | case4 seen last t r _ _ e he =>
    cases hf
    obtain ⟨c, rest, rfl, -⟩ := lineLabel_error he
    trivial
  | case5 seen last t r _ _ label hl e he =>
    cases hf
    have hstmts := statements_keepLine s false (afterLabel label t r)
    rw [he] at hstmts
    exact hstmts.2.2 (h.suffix (afterLabel_suffix label t r))
  | case6 =>
    cases hf
    trivial
  | case7 seen last t r _ _ label hl q hq line hc ih =>
    refine ih (((h.suffix (afterLabel_suffix label t r)).suffix q.suffix).suffix (List.tail_suffix _)) ?_
    rcases hls : lines s (seen ++ [line]) ((label.map labelValue).getD last) q.rest.tail with e | ls <;>
      rw [hls] at hf <;> cases hf
    rfl

/-- **A program that is read from the tokens of its source** has sound lines with proper labels. -/
theorem program_sound {strict : Bool} {source : List Char} {p : Program}
    (h : Program.parse strict (Token.scan source).tokens source = .ok p) :
    ∀ l ∈ p.lines, (∀ s ∈ l.label, IsLabel s) ∧ Stmt.AllSound l.stmts := by
  have hfits := (Token.scan_inOrder source).fits
  intro l hl
  obtain ⟨t, r, hsuf, hline⟩ := lines_reads (Program.lines_of_parse h) l hl
  obtain ⟨seen, hlabel⟩ := hline.label
  obtain ⟨rest, hreads⟩ := hline.stmts
  have hspec := isLabel_of_lineLabel (hfits t (hsuf.subset List.mem_cons_self)).numeral hlabel
  refine ⟨hspec, hreads.sound (K := fun u => u ∈ (Token.scan source).tokens) ?_ fun u hu => ?_⟩
  · exact ⟨_, fun u hu => ⟨hfits u hu, Token.scan_legible source u hu⟩⟩
  · exact hsuf.subset ((afterLabel_suffix l.label t r).subset hu)

/-- **A program that is read from the tokens of its source** has proper lines with different
labels; and if it is not read, a token is to blame. -/
theorem program_proper (strict : Bool) (source : List Char) :
    match Program.parse strict (Token.scan source).tokens source with
    | .error f => f.Rejects
    | .ok p => p.Proper := by
  cases hp : Program.parse strict (Token.scan source).tokens source with
  | error f =>
    refine lines_refuses ⟨strict, Source.normalize source⟩ [] (-1) _ (Token.scan_inOrder source) f ?_
    unfold Program.parse at hp
    rcases hls : lines ⟨strict, Source.normalize source⟩ [] (-1) (Token.scan source).tokens with e | ls <;>
      rw [hls] at hp <;> cases hp
    rfl
  | ok p =>
    have hlabels := (lines_eq_ok_iff.1 (Program.lines_of_parse hp)).labels
    refine ⟨fun l hl => ?_, hlabels.1⟩
    obtain ⟨hlabel, hsound⟩ := program_sound hp l hl
    exact ⟨hlabel, hsound.proper, hsound.words⟩

/-- The lines of a program are counted from one. -/
theorem number_pos {strict : Bool} {source : List Char} {p : Program}
    (h : Program.parse strict (Token.scan source).tokens source = .ok p) : ∀ l ∈ p.lines, 0 < l.number := by
  intro l hl
  obtain ⟨t, r, hsuf, hline⟩ := lines_reads (Program.lines_of_parse h) l hl
  rw [hline.number]
  exact Token.scan_line source t (hsuf.subset List.mem_cons_self)

end Parse

end Locomotive
