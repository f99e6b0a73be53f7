import Locomotive.Proofs.Stmt.Seek
import Locomotive.Proofs.Token.Data

/-!
# The `DATA` statements of a text

The `DATA` statements of a program, those in branches included, are the `DATA` keywords of its text
outside of statements without a counterpart, and the items of each are those that stand behind the
keyword.

* `Parse.Gathers`: the lists of items between two places.
* `Parse.Reads.gathers`: whatever is read gathers the lists of its statements.
* `Program.dataLists_eq`: the lists of a program.
-/

namespace Locomotive

namespace Parse

open Parse.Parser

variable {ts : List Token}

/-! ## What is gathered -/

/-- The items after a `DATA` keyword of a text. -/
def itemsAt (source : List Char) (t : Token) : List DataItem := DataItem.split (Token.itemsFrom source t.stop.toNat)

/-- From the tokens up to the rest of them, these are the lists of the `DATA` keywords. -/
def Gathers (source : List Char) (skipping : Bool) (ts : List Token) (lists : List (List DataItem))
    (rest : List Token) : Prop :=
  ∃ ws, dataWords skipping ts = ws ++ dataWords false rest ∧ lists = ws.map (itemsAt source)

namespace Gathers

variable {source : List Char} {skipping : Bool} {ts mid rest : List Token} {lists lists' : List (List DataItem)}

theorem nothing (h : dataWords skipping ts = dataWords false rest) : Gathers source skipping ts [] rest :=
  ⟨[], h, rfl⟩

theorem trans (h : Gathers source skipping ts lists mid) (h' : Gathers source false mid lists' rest) :
    Gathers source skipping ts (lists ++ lists') rest := by
  obtain ⟨ws, hws, rfl⟩ := h
  obtain ⟨ws', hws', rfl⟩ := h'
  exact ⟨ws ++ ws', by rw [hws, hws', List.append_assoc], by rw [List.map_append]⟩

/-- Tokens that are passed over come before others. -/
theorem after {skipping' : Bool} (heq : dataWords skipping ts = dataWords skipping' mid)
    (h : Gathers source skipping' mid lists rest) : Gathers source skipping ts lists rest := by
  unfold Gathers
  rw [heq]
  exact h

end Gathers

variable {source : List Char} {s : Setting}

/-- **A statement without a counterpart** is skipped. -/
theorem gathers_unsupported {start : Token} {keyword : String} {stop : Int} {st : Stmt} {rest : List Token}
    (h : (unsupported s start keyword stop ts).read = .ok (st, rest)) : Gathers source true ts st.dataLists rest := by
  obtain ⟨⟨text, rfl⟩, rfl⟩ := of_unsupported h
  exact .nothing (dataWords_skip ts)

/-! ## Statements and lines -/

/-- **A `DATA` statement** has the items behind its keyword. -/
theorem gathers_data {t : Token} (hword : t.isWord "DATA" = true) (hfed : Token.Fed source (t :: ts)) {st : Stmt}
    {rest : List Token} (h : (data ts).read = .ok (st, rest)) : Gathers source false (t :: ts) st.dataLists rest := by
  have hitems := hfed.items t ts (List.suffix_refl _) hword
  obtain ⟨raw, mid, hexpect, h⟩ := read_bind_eq_ok h
  rw [read_expect] at hexpect
  split at hexpect
  · rename_i hkind
    cases hexpect
    cases h
    refine ⟨[t], ?_, ?_⟩
    · rw [dataWords, if_neg (by simp), if_pos hword, dataWords_taken (.head (inner_of_kind hkind (by decide)))]
      rfl
    · rw [hitems, String.toList_ofList]
      rfl
  · cases hexpect

/-- **A statement other than `IF`**, with its first token. -/
theorem gathers_simple {t : Token} (hfed : Token.Fed source (t :: ts)) {q : Parsed Stmt ts}
    (hq : simple s t ts = .ok q) : Gathers source false (t :: ts) q.value.dataLists q.rest := by
  cases of_simple hq with
  | unsupported _ _ _ _ _ _ _ _ hskip hvalue => rw [hvalue]; exact .nothing (dataWords_skipped hskip)
  | data _ hdata _ _ h => exact gathers_data hdata hfed h
  | comment hkind hvalue hrest =>
    rw [hvalue, hrest]
    exact .nothing (dataWords_of_kind (by rw [hkind]; decide) ts)
  | plain hsound htaken => rw [hsound.noData]; exact .nothing (dataWords_taken htaken)

/-- The body after a `THEN` or an `ELSE` is skipped if it is a label to jump to. -/
def Phase.skips (phase : Phase) (ts : List Token) : Bool :=
  match phase with
  | .body _ => (ts.headD Token.endMark).kind == .number
  | _ => false

/-- A `THEN` or an `ELSE`, and what follows it. -/
theorem dataWords_body {kw : Token} (h : kw.isWord "THEN" = true ∨ kw.isWord "ELSE" = true) (ts : List Token) :
    dataWords false (kw :: ts) = dataWords ((Phase.body kw).skips ts) ts := by
  have hlexeme : kw.lexeme = "THEN" ∨ kw.lexeme = "ELSE" :=
    h.imp (fun h => (eq_of_isWord h).2) fun h => (eq_of_isWord h).2
  have hdata : kw.isWord "DATA" = false := by
    rcases hlexeme with h | h <;> simp [Token.isWord, h]
  have hunsupported : Token.isUnsupported kw.lexeme = false := by
    rcases hlexeme with h | h <;> rw [h] <;> decide
  rw [dataWords_other hdata]
  rcases h with h | h <;> simp [opensSkipped, hunsupported, h, Phase.skips]

/-- An `IF` up to what follows its condition. -/
theorem dataWords_condition {t : Token} (hif : t.isWord "IF" = true) {c : Parsed Expr ts}
    (hc : expressionOf .number ts = .ok c) : dataWords false (t :: ts) = dataWords false c.rest := by
  obtain ⟨hkind, hlexeme⟩ := eq_of_isWord hif
  rw [dataWords_other (by simp [Token.isWord, hlexeme]), opensSkipped_eq_false fun _ => by rw [hlexeme]; decide]
  exact dataWords_taken (taken_of_expressionOf hc)

/-- **Whatever is read** gathers the lists of its statements. -/
theorem Reads.gathers {phase : Phase} {rest : List Token} {ss : List Stmt} (h : Reads s phase ts ss rest)
    (hfed : Token.Fed source ts) : Gathers source (phase.skips ts) ts (Stmt.dataListsOf ss) rest := by
  induction h with
  | nil | stop => exact .nothing rfl
  | colon hcolon hss ih =>
    refine .after (dataWords_of_kind (by rw [hcolon]; decide) _) ?_
    exact ih (hfed.suffix (List.suffix_cons _ _))
  | @simple b t ts rest ss q ht hif hq hend hss ih =>
    have hq' := q.suffix.trans (List.suffix_cons t ts)
    exact (gathers_simple hfed hq).trans (ih (hfed.suffix hq'))
  | @branch b t ts mid rest yes ss c ht hif hc hyes hnone hss ihyes ih =>
    have hcond := c.suffix.trans (List.suffix_cons t ts)
    have hmid := (suffix_of_reads hyes).trans hcond
    refine .after (dataWords_condition hif hc) ?_
    have hbranch := ihyes (hfed.suffix hcond)
    have hrest := ih (hfed.suffix hmid)
    show Gathers source false c.rest (Stmt.dataListsOf yes ++ [] ++ Stmt.dataListsOf ss) rest
    rw [List.append_nil]
    exact hbranch.trans hrest
  | @branchElse b t kw ts mid last rest yes no ss c ht hif hc hyes hkw hno hss ihyes ihno ih =>
    have hcond := c.suffix.trans (List.suffix_cons t ts)
    have helse := (suffix_of_reads hyes).trans hcond
    have hmid := (List.suffix_cons kw mid).trans helse
    have hlast := (suffix_of_reads hno).trans hmid
    refine .after (dataWords_condition hif hc) ?_
    have hbranch := ihyes (hfed.suffix hcond)
    have hother := Gathers.after (dataWords_body (.inr hkw) mid) (ihno (hfed.suffix hmid))
    have hrest := ih (hfed.suffix hlast)
    -- an `ELSE` without statements is left out, and has no lists
    have hlists : Stmt.dataListsElse (if no.isEmpty then none else some no) = Stmt.dataListsOf no := by
      cases no <;> rfl
    rw [Stmt.dataListsOf, Stmt.dataLists, hlists, List.append_assoc]
    exact hbranch.trans (hother.trans hrest)
  | @afterThen kw ts rest ss hkw hss ih =>
    refine .after (dataWords_body (.inl hkw) ts) ?_
    exact ih (hfed.suffix (List.suffix_cons kw ts))
  | @goto kw ts q hkw hq =>
    obtain ⟨hkind, hlexeme⟩ := eq_of_isWord hkw
    obtain ⟨⟨text, hvalue⟩, hrest⟩ := of_unsupported (read_eq_ok hq)
    have hskipped : Skipped (kw :: ts) q.rest := ⟨kw, ts, .refl _, hkind, by rw [hlexeme]; decide, hrest⟩
    show Gathers source false (kw :: ts) (q.value.dataLists ++ []) q.rest
    rw [List.append_nil, hvalue]
    exact .nothing (dataWords_skipped hskipped)
  | @jump kw ts q hnum hq =>
    have hskips : (Phase.body kw).skips ts = true := beq_iff_eq.2 hnum
    rw [hskips]
    simpa [Stmt.dataListsOf] using gathers_unsupported (read_eq_ok hq)
  | @body kw ts rest ss hnum hss ih =>
    have hskips : (Phase.body kw).skips ts = false := beq_eq_false_iff_ne.2 hnum
    rw [hskips]
    exact ih hfed

/-- The label of a line is passed over. -/
theorem dataWords_afterLabel {seen : List Line} {t : Token} {r : List Token} {label : Option String}
    (h : lineLabel seen t r = .ok label) : dataWords false (t :: r) = dataWords false (afterLabel label t r) := by
  rw [afterLabel_eq h]
  split
  · rename_i hkind
    exact dataWords_of_kind (by rw [hkind]; decide) r
  · rfl

/-- What ends a line is passed over. -/
theorem dataWords_endsLine {ts : List Token} (h : (ts.headD Token.endMark).EndsLine) :
    dataWords false ts = dataWords false ts.tail := by
  cases ts with
  | nil => rfl
  | cons t r =>
    rw [List.headD_cons] at h
    refine dataWords_of_kind ?_ r
    rcases h with h | h <;> rw [h] <;> decide

/-- **The lines of a program** have the lists of its text. -/
theorem ReadsLines.gathers {s : Setting} {seen : List Line} {last : Int} {ts : List Token} {ls : List Line}
    (h : ReadsLines s seen last ts ls) (hfed : Token.Fed source ts) :
    ls.flatMap (fun l => Stmt.dataListsOf l.stmts) = (dataWords false ts).map (itemsAt source) := by
  induction h with
  | nil => rfl
  | @stop _ _ t r ht =>
    rw [dataWords_of_kind (by rw [ht]; decide), hfed.last t r (List.suffix_refl _) ht]
    rfl
  | @skip _ _ t r _ ht _ ih =>
    rw [dataWords_of_kind (by rw [ht]; decide)]
    exact ih (hfed.suffix (List.suffix_cons t r))
  | @line _ _ t r mid label ss ls _ hlabel hss _ _ ih =>
    have hafter := afterLabel_suffix label t r
    have hmid := (suffix_of_reads hss).trans hafter
    obtain ⟨ws, hws, hlists⟩ := hss.gathers (hfed.suffix hafter)
    have ih := ih (hfed.suffix ((List.tail_suffix mid).trans hmid))
    rw [List.flatMap_cons, ih, dataWords_afterLabel hlabel, hlists, ← dataWords_endsLine hss.endsLine, ← List.map_append]
    exact congrArg _ hws.symm

end Parse

/-- **The `DATA` statements of a program** are those of its text, in order. -/
theorem Program.dataLists_eq {strict : Bool} {source : List Char} {p : Program}
    (h : Program.parse strict (Token.scan source).tokens source = .ok p) :
    p.lines.flatMap (fun l => Stmt.dataListsOf l.stmts) =
      (Parse.dataWords false (Token.scan source).tokens).map (Parse.itemsAt (Source.normalize source)) := by
  exact (Parse.lines_eq_ok_iff.1 (lines_of_parse h)).gathers (Token.scan_fed source)

end Locomotive
