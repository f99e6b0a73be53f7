import Locomotive.Proofs.Js.Alphabet
import Locomotive.Proofs.Js.Value

/-!
# String literals

The literal of a text is read as this text, and nothing in it can end it early or break the line that it
stands on.

* `bareQuotes`: the quotes of a text that no backslash escapes.
* `quote_closed`: they are the first and the last character of a string literal.
-/

namespace Locomotive.Js

/-- **The quotes that no backslash escapes**, by their positions; `i` is the position of the first
character. A backslash takes the next character with it. -/
def bareQuotes (i : Nat) : List Char → List Nat
  | [] => []
  | '\\' :: _ :: cs => bareQuotes (i + 2) cs
  | c :: cs => if c = '"' then i :: bareQuotes (i + 1) cs else bareQuotes (i + 1) cs

theorem bareQuotes_cons {c : Char} (h : c ≠ '\\') (i : Nat) (cs : List Char) :
    bareQuotes i (c :: cs) = if c = '"' then i :: bareQuotes (i + 1) cs else bareQuotes (i + 1) cs := by
  rw [bareQuotes]
  rintro d ds rfl -
  exact h rfl

/-- Characters that are neither quotes nor backslashes. -/
theorem bareQuotes_append {cs : List Char} (h : ∀ c ∈ cs, c ≠ '"' ∧ c ≠ '\\') (i : Nat) (rest : List Char) :
    bareQuotes i (cs ++ rest) = bareQuotes (i + cs.length) rest := by
  induction cs generalizing i with
  | nil => rfl
  | cons c cs ih =>
    obtain ⟨hc, hcs⟩ := List.forall_mem_cons.1 h
    rw [List.cons_append, bareQuotes_cons hc.2, if_neg hc.1, ih hcs, List.length_cons]
    congr 1
    omega

/-- What follows the letter of an escape. -/
theorem bareQuotes_escape {cs : List Char} (h : ∀ c ∈ cs, c ≠ '"' ∧ c ≠ '\\') (x : Char) (i : Nat) (rest : List Char) :
    bareQuotes i ('\\' :: x :: cs ++ rest) = bareQuotes (i + ('\\' :: x :: cs).length) rest := by
  rw [List.cons_append, List.cons_append, bareQuotes, bareQuotes_append h, List.length_cons, List.length_cons]
  congr 1
  omega

theorem ne_of_digitValue {c : Char} (h : Text.digitValue c < 16) : c ≠ '"' ∧ c ≠ '\\' := by
  constructor <;> rintro rfl <;> exact absurd h (by decide)

/-- **One character** of a literal has no bare quote, and ends no escape that it does not start. -/
theorem bareQuotes_quoteChar (c : Char) (i : Nat) (rest : List Char) :
    bareQuotes i (quoteChar c ++ rest) = bareQuotes (i + (quoteChar c).length) rest := by
  unfold quoteChar
  -- only a quote and a backslash escape themselves, so no other case holds one
  split
  · exact bareQuotes_escape (by simp) c i rest
  rename_i hq
  split
  · exact bareQuotes_escape (by simp) 'n' i rest
  split
  · exact bareQuotes_escape (by simp) 'r' i rest
  split
  · exact bareQuotes_escape (by simp) 't' i rest
  split
  · exact bareQuotes_escape (fun d hd => ne_of_digitValue ((Text.isNumberIn_hexDigits 3 _).2 d hd)) 'u' i rest
  split
  · have hbraces : ∀ d ∈ '\x7b' :: (Nat.toDigits 16 c.toNat ++ ['\x7d']), d ≠ '"' ∧ d ≠ '\\' := by
      refine List.forall_mem_cons.2 ⟨by decide, List.forall_mem_append.2 ⟨fun d hd => ?_, by simp⟩⟩
      exact ne_of_digitValue ((Text.isNumberIn_toDigits _).1.2 d hd)
    exact bareQuotes_escape hbraces 'u' i rest
  · simp only [Bool.or_eq_true, beq_iff_eq, not_or] at hq
    exact bareQuotes_append (by simpa using hq) i rest

theorem bareQuotes_quoted (cs : List Char) (i : Nat) (rest : List Char) :
    bareQuotes i (cs.flatMap quoteChar ++ rest) = bareQuotes (i + (cs.flatMap quoteChar).length) rest := by
  induction cs generalizing i with
  | nil => rfl
  | cons c cs ih =>
    rw [List.flatMap_cons, List.append_assoc, bareQuotes_quoteChar, ih, List.length_append, Nat.add_assoc]

/-- **A string literal is lossless and closed.** Read as a literal, all of it is taken and gives the text
back. Its characters are printed on one line: no control character, no line separator and nothing of the
private-use area is among them. The only quotes in it that are not escaped are its first and its last
character. -/
theorem quote_closed (s : String) :
    literal? (quote s) = some (.text s) ∧
      (∀ c ∈ (quote s).toList, c ∉ ['\n', '\r', '\u2028', '\u2029'] ∧ 0x20 ≤ c.toNat ∧ c.toNat ≠ 0x7F ∧
        ¬ (0xE000 ≤ c.toNat ∧ c.toNat ≤ 0xF8FF)) ∧
      bareQuotes 0 (quote s).toList = [0, (quote s).toList.length - 1] := by
  refine ⟨literal?_quote s, fun c hc => ?_, ?_⟩
  · obtain ⟨hlow, hdel, hprivate, hline, hparagraph⟩ := plain_iff.1 (plain_quote s c hc)
    refine ⟨fun hmem => ?_, hlow, hdel, by omega⟩
    simp only [List.mem_cons, List.not_mem_nil, or_false] at hmem
    rcases hmem with rfl | rfl | rfl | rfl
    · exact absurd hlow (by decide)
    · exact absurd hlow (by decide)
    · exact hline rfl
    · exact hparagraph rfl
  · rw [quote, String.toList_ofList, List.cons_append, bareQuotes_cons (by decide), if_pos rfl, bareQuotes_quoted]
    have hlast : ∀ i, bareQuotes i ['"'] = [i] := fun i => bareQuotes_cons (by decide) i []
    rw [hlast, List.length_cons, List.length_append, List.length_singleton, Nat.add_sub_cancel, Nat.zero_add,
      Nat.add_comm]

end Locomotive.Js
