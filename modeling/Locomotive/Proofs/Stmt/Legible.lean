import Locomotive.Proofs.Stmt.Sound

/-!
# What is read as a statement is legible

The text of a statement that has no counterpart is that of tokens of one line, so it holds no line break. Together with
what is known of names, numbers and comments, all that is shown of a statement can be read.

* `Stmt.AllLegible`: the property.
* `Parse.Reads.quotes`: whatever is read quotes nothing beyond a line.
* `Parse.program_legible`: the lines of a program are legible.
-/

namespace Locomotive

open Text (AllWithin Unbroken)

/-- **Legible statements.** -/
structure Stmt.AllLegible (ss : List Stmt) : Prop where
  words : AllSpelled Js.Plain ss
  remarks : AllWithin Unbroken (gatherOf remark? ss)
  quotes : AllWithin Unbroken (gatherOf unsupported? ss)

namespace Parse

variable {ts : List Token} {s : Setting}

/-- **A statement without a counterpart**, from the tokens of its line that are already taken. -/
theorem unsupported_quotes {t last : Token} {used rest left : List Token} {keyword : String} {st : Stmt}
    (h : Token.Laid s.source (t :: ts)) (hts : t :: ts = used ++ rest) (hline : ∀ u ∈ used, u.kind ≠ .eol)
    (hlast : last ∈ used) (hread : (unsupported s t keyword last.stop rest).read = .ok (st, left)) :
    AllWithin Unbroken (st.gather Stmt.unsupported?) := by
  unfold unsupported at hread
  split at hread
  · cases hread
  dsimp only at hread
  -- the tokens up to the end of the statement stand in the same line
  generalize hmore : (rest.takeWhile fun u => !endsStatement u) = more at hread
  have hmoreLine : ∀ u ∈ more, u.kind ≠ .eol := by
    rw [← hmore]
    intro u hu hk
    have hends := List.all_eq_true.1 List.all_takeWhile u hu
    simp [endsStatement, hk] at hends
  obtain ⟨e, he, hstop⟩ : ∃ e ∈ used ++ more, (more.getLast?.map Token.stop).getD last.stop = e.stop := by
    cases hl : more.getLast? with
    | none => exact ⟨last, List.mem_append_left _ hlast, rfl⟩
    | some e => exact ⟨e, List.mem_append_right _ (List.mem_of_getLast? hl), rfl⟩
  rw [hstop] at hread
  split at hread
  · cases hread
  · rename_i text hslice
    cases hread
    have hlaid : Token.Laid s.source ((used ++ more) ++ rest.dropWhile fun u => !endsStatement u) := by
      rw [← hmore, List.append_assoc, List.takeWhile_append_dropWhile, ← hts]
      exact h
    have hstart : t ∈ used ++ more := by
      cases used with
      | nil => cases hlast
      | cons u us =>
        cases hts
        exact List.mem_cons_self
    have hunbroken := hlaid.slice_unbroken hstart (List.forall_mem_append.2 ⟨hline, hmoreLine⟩) he hslice
    exact Text.allWithin_cons.2 ⟨Text.within_ofList.2 hunbroken, Text.allWithin_nil⟩

/-- A jump quotes its keyword and what follows it. -/
theorem jump_quotes {kw : Token} {keyword : String} {q : Parsed Stmt ts} (h : Token.Laid s.source (kw :: ts))
    (hkw : kw.kind = .keyword) (hq : unsupported s kw keyword kw.stop ts = .ok q) :
    AllWithin Unbroken (Stmt.gatherOf Stmt.unsupported? [q.value]) := by
  have hts : kw :: ts = [kw] ++ ts := rfl
  have hquote := unsupported_quotes h hts (by simp [hkw]) List.mem_cons_self (read_eq_ok hq)
  exact Text.allWithin_append.2 ⟨hquote, Text.allWithin_nil⟩

theorem simple_quotes {t : Token} (h : Token.Laid s.source (t :: ts)) {q : Parsed Stmt ts}
    (hq : simple s t ts = .ok q) : AllWithin Unbroken (q.value.gather Stmt.unsupported?) := by
  cases of_simple hq with
  | unsupported _ _ _ _ _ hts hline hlast _ _ hread => exact unsupported_quotes h hts hline hlast hread
  | data _ _ hvalue | comment _ hvalue => rw [hvalue]; exact Text.allWithin_nil
  | plain hsound => rw [hsound.noLack]; exact Text.allWithin_nil

/-- **Whatever is read** quotes nothing beyond a line. -/
theorem Reads.quotes {b : Bool} {rest : List Token} {ss : List Stmt} (h : Reads s (.stmts b) ts ss rest)
    (hlaid : Token.Laid s.source ts) : AllWithin Unbroken (Stmt.gatherOf Stmt.unsupported? ss) := by
  refine Reads.holds (Q := Token.Laid s.source) (fun hsuf => Token.Laid.suffix hsuf) Text.allWithin_nil
    (fun hts hq hss => Text.allWithin_append.2 ⟨simple_quotes hts hq, hss⟩) (fun {_ _ no _ _} _ _ hyes hno hss => ?_)
    (fun hkw hts hq => jump_quotes hts hkw hq) h hlaid
  refine Text.allWithin_append.2 ⟨Text.allWithin_append.2 ⟨hyes, ?_⟩, hss⟩
  cases no with
  | nil => exact Text.allWithin_nil
  | cons st more => exact hno

/-- **A program that is read from the tokens of its source** has legible lines. -/
theorem program_legible {strict : Bool} {source : List Char} {p : Program} (hscan : (Token.scan source).error = none)
    (h : Program.parse strict (Token.scan source).tokens source = .ok p) :
    ∀ l ∈ p.lines, Stmt.AllLegible l.stmts := by
  intro l hl
  have hsound := (program_sound h l hl).2
  obtain ⟨t, r, hsuf, hline⟩ := lines_reads (Program.lines_of_parse h) l hl
  obtain ⟨rest, hreads⟩ := hline.stmts
  have hlaid := Token.Laid.suffix ((afterLabel_suffix l.label t r).trans hsuf) (Token.scan_laid hscan)
  exact ⟨hsound.words, hsound.remarks, hreads.quotes hlaid⟩

end Parse

end Locomotive
