import Locomotive.Text

/-!
# The pieces of a text

* `Text.splitAt_append`: a text is split at each of its separators.
* `Text.not_mem_of_mem_splitAt`: and no piece has one.
-/

namespace Locomotive.Text

variable {sep : Char}

theorem splitAt_self (sep : Char) (cs : List Char) : splitAt sep (sep :: cs) = [] :: splitAt sep cs := by
  rw [splitAt, if_pos rfl]

/-- A character that is no separator belongs to the first piece. -/
theorem splitAt_other {c : Char} (hc : c ≠ sep) (cs : List Char) :
    ∃ p ps, splitAt sep cs = p :: ps ∧ splitAt sep (c :: cs) = (c :: p) :: ps := by
  cases hpieces : splitAt sep cs with
  | nil =>
    -- every text has a first piece
    cases cs with
    | nil => cases hpieces
    | cons d cs =>
      rw [splitAt] at hpieces
      split at hpieces
      · cases hpieces
      · split at hpieces <;> cases hpieces
  | cons p ps =>
    refine ⟨p, ps, rfl, ?_⟩
    rw [splitAt, if_neg hc, hpieces]

theorem splitAt_append (sep : Char) (as bs : List Char) :
    splitAt sep (as ++ sep :: bs) = splitAt sep as ++ splitAt sep bs := by
  induction as with
  | nil => exact splitAt_self sep bs
  | cons c as ih =>
    by_cases hc : c = sep
    · rw [hc, List.cons_append, splitAt_self, splitAt_self, ih, List.cons_append]
    · obtain ⟨p, ps, hp, hcp⟩ := splitAt_other hc as
      obtain ⟨q, qs, hq, hcq⟩ := splitAt_other hc (as ++ sep :: bs)
      rw [ih, hp, List.cons_append] at hq
      obtain ⟨rfl, rfl⟩ := List.cons.inj hq
      rw [List.cons_append, hcq, hcp, List.cons_append]

theorem splitAt_of_not_mem {cs : List Char} (h : sep ∉ cs) : splitAt sep cs = [cs] := by
  induction cs with
  | nil => rfl
  | cons c cs ih =>
    obtain ⟨hc, hcs⟩ := not_or.1 (mt List.mem_cons.2 h)
    rw [splitAt, if_neg (Ne.symm hc), ih hcs]

theorem not_mem_of_mem_splitAt {p cs : List Char} (h : p ∈ splitAt sep cs) : sep ∉ p := by
  induction cs generalizing p with
  | nil =>
    rw [List.mem_singleton.1 h]
    exact List.not_mem_nil
  | cons c cs ih =>
    by_cases hc : c = sep
    · rw [hc, splitAt_self] at h
      obtain rfl | h := List.mem_cons.1 h
      · exact List.not_mem_nil
      · exact ih h
    · obtain ⟨q, qs, hq, hcq⟩ := splitAt_other hc cs
      rw [hcq] at h
      rw [hq] at ih
      obtain rfl | h := List.mem_cons.1 h
      · exact List.not_mem_cons_of_ne_of_not_mem (Ne.symm hc) (ih List.mem_cons_self)
      · exact ih (List.mem_cons_of_mem q h)

end Locomotive.Text
