import Locomotive.Proofs.Comment

/-!
# The sections of the program

The generated program declares its variables and its data, then come the rows of its lines, and
last the helpers that it calls. Marks occur only in the rows, so the other sections stand in the
text as they are.

* `Tables.around`: the sections around the rows.
* `Stages.exists_body`: the text of a program, section by section.
-/

namespace Locomotive

open Js (Unmarked)

/-- **The text around the rows** of a program. A program of which nothing is left has one empty row. -/
def Tables.around (t : Tables) (body : String) : String :=
  (fun whole => if whole = "" then "\n" else whole) (t.globalText ++ t.dataText ++ body ++ t.helperText)

namespace Stages

variable {p : Program} {text : String}

/-- The text that stands for each reference. -/
def reference (o : Stages p text) : Nat → String := siteText (o.tables.functions o.async) o.tables.callSites

/-- The rows of the lines and of the functions, with marks. -/
def rowText (o : Stages p text) : String := String.join (o.rows.map Row.written)

/-- The text with marks, section by section. -/
theorem marked_eq_around (o : Stages p text) : o.marked = o.tables.around o.rowText := by
  have h := o.marked_eq
  unfold Tables.markedText? at h
  rw [o.rows_eq, Option.bind_eq_bind, Option.bind_some] at h
  obtain ⟨texts, htexts, h⟩ := Option.bind_eq_some_iff.1 h
  obtain ⟨rfl, -⟩ := mapM_text?_eq_some_iff.1 htexts
  exact (Option.some.inj h).symm

/-- **The sections of a program.** The marks in its rows are replaced, and nothing else. -/
theorem exists_body (o : Stages p text) (hp : p.Proper) : ∃ body : String,
    FilledChars o.reference o.rowText.toList body.toList ∧ text = o.tables.around body := by
  have hmarks := (o.finished hp).noMarks
  have hglobal : Unmarked o.tables.globalText := Tables.unmarked_globalText hmarks.vars
  have hdata : Unmarked o.tables.dataText := Tables.unmarked_dataText hmarks.data
  have hhelper : Unmarked o.tables.helperText := o.tables.unmarked_helperText
  have hwhole : Text.Whole o.rowText := whole_rows o.rows
  have hfilled : FilledChars o.reference o.marked.toList text.toList := o.filled
  rw [o.marked_eq_around] at hfilled
  unfold Tables.around at hfilled
  dsimp only at hfilled
  split at hfilled
  · -- nothing is left of the program
    rename_i hempty
    have hrows : o.rowText = "" := by
      simp only [String.append_eq_empty_iff] at hempty
      exact hempty.1.2
    refine ⟨"", by rw [hrows]; exact .nil, ?_⟩
    rw [hrows] at hempty
    have htext : text.toList = "\n".toList := hfilled.eq_of_clean (by decide)
    unfold Tables.around
    rw [hempty]
    exact String.toList_inj.1 htext
  · rename_i hne
    simp only [String.toList_append, List.append_assoc] at hfilled
    obtain ⟨rest, htext, hrest⟩ := hfilled.append_inv hglobal
    obtain ⟨rest', rfl, hrest'⟩ := hrest.append_inv hdata
    -- the rows end with a line feed, so no mark reaches out of them
    have hlast : o.rowText.toList = [] ∨ ∃ a x, o.rowText.toList = a ++ [x] ∧ Js.Clean x ∧ x.isDigit = false := by
      rcases hwhole with hnone | ⟨t, ht⟩
      · exact .inl (by rw [hnone]; rfl)
      · exact .inr ⟨t.toList, '\n', by rw [ht]; simp, by decide, by decide⟩
    obtain ⟨body, behind, rfl, hbody, hbehind⟩ := hrest'.append_split hlast
    rw [hbehind.eq_of_clean hhelper] at htext
    refine ⟨String.ofList body, by rwa [String.toList_ofList], ?_⟩
    have hsections : text = o.tables.globalText ++ o.tables.dataText ++ String.ofList body ++ o.tables.helperText := by
      apply String.toList_inj.1
      rw [htext]
      simp
    have hsome : o.tables.globalText ++ o.tables.dataText ++ String.ofList body ++ o.tables.helperText ≠ "" := by
      intro hnone
      simp only [String.append_eq_empty_iff] at hnone hne
      obtain ⟨⟨⟨hg, hd⟩, hb⟩, hh⟩ := hnone
      -- where there are rows there is at least a line feed
      rcases hwhole with hnorows | ⟨t, ht⟩
      · exact hne ⟨⟨⟨hg, hd⟩, hnorows⟩, hh⟩
      · have hfeed : '\n' ∈ body := hbody.mem (by decide) (by decide) (by rw [ht]; simp)
        have hnil : body = [] := by simpa using congrArg String.toList hb
        rw [hnil] at hfeed
        simp at hfeed
    exact hsections.trans (if_neg hsome).symm

end Stages

/-- **Where the data is declared**, if there is something to declare. -/
theorem Tables.around_data {t : Tables} (h : t.hasData = true) (body : String) :
    t.around body = t.globalText ++ ("const _data = [" ++ ", ".intercalate t.data ++ "];\nconst _restoreMap = \x7b" ++
      t.restoreEntries ++ "\x7d;\nlet _dataPtr = 0;\n") ++ body ++ t.helperText := by
  have hdata : t.dataText = "const _data = [" ++ ", ".intercalate t.data ++ "];\nconst _restoreMap = \x7b" ++
      t.restoreEntries ++ "\x7d;\nlet _dataPtr = 0;\n" := if_pos h
  unfold around
  dsimp only
  rw [← hdata]
  refine if_neg fun hempty => ?_
  simp only [String.append_eq_empty_iff, hdata] at hempty
  exact absurd hempty.1.1.2.2 (by decide)

end Locomotive
