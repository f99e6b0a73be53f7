import Locomotive.Proofs.Js.Word

/-!
# Texts with marks

The text of the program is made of characters that belong to no mark and of whole marks, each
with the number of a reference. So is every text that is put together from such texts.

* `HasMarks`: the marks of a text, in order.
* `Marked`: the marks are those of the first references.
* `Tidy`: code whose words hold no marks.
-/

namespace Locomotive.Js

/-- Characters that belong to no mark, and whole marks with the given numbers, in order. -/
inductive MarkChars : List Char → List Nat → Prop
  | nil : MarkChars [] []
  | char {c : Char} {cs : List Char} {ns : List Nat} : Clean c → MarkChars cs ns → MarkChars (c :: cs) ns
  | mark {i : Nat} {cs : List Char} {ns : List Nat} : MarkChars cs ns → MarkChars ((siteMark i).toList ++ cs) (i :: ns)

/-- **The marks of a text**, in order. -/
def HasMarks (s : String) (ns : List Nat) : Prop := MarkChars s.toList ns

theorem MarkChars.append {a b : List Char} {ns ms : List Nat} (ha : MarkChars a ns) (hb : MarkChars b ms) :
    MarkChars (a ++ b) (ns ++ ms) := by
  induction ha with
  | nil => exact hb
  | char hc _ ih => exact .char hc ih
  | mark _ ih =>
    rw [List.append_assoc]
    exact .mark ih

theorem MarkChars.of_clean {cs : List Char} (h : ∀ c ∈ cs, Clean c) : MarkChars cs [] := by
  induction cs with
  | nil => exact .nil
  | cons c cs ih =>
    obtain ⟨hc, hcs⟩ := List.forall_mem_cons.1 h
    exact .char hc (ih hcs)

theorem Unmarked.hasMarks {s : String} (h : Unmarked s) : HasMarks s [] := MarkChars.of_clean h

namespace HasMarks

variable {s a b : String} {ns ms : List Nat}

theorem append (ha : HasMarks a ns) (hb : HasMarks b ms) : HasMarks (a ++ b) (ns ++ ms) := by
  unfold HasMarks
  rw [String.toList_append]
  exact MarkChars.append ha hb

theorem site (i : Nat) : HasMarks (siteMark i) [i] := by
  have := MarkChars.mark (i := i) .nil
  rwa [List.append_nil] at this

/-- A text that starts and ends like the given ones. -/
theorem between (hs : HasMarks s ns) (ha : Unmarked a) (hb : Unmarked b) : HasMarks (a ++ s ++ b) ns := by
  have := (ha.hasMarks.append hs).append hb.hasMarks
  rwa [List.nil_append, List.append_nil] at this

end HasMarks

theorem unmarked_textClass : TextClass Unmarked := ⟨unmarked_of_plain, fun ha hb => unmarked_append.2 ⟨ha, hb⟩⟩

/-- **A text with marks** of the first `n` references and no others. -/
def Marked (n : Nat) (s : String) : Prop := ∃ ns, HasMarks s ns ∧ ∀ i ∈ ns, i < n

variable {n : Nat}

theorem Unmarked.marked {s : String} (h : Unmarked s) : Marked n s := ⟨[], h.hasMarks, by simp⟩

namespace Marked

theorem append {a b : String} (ha : Marked n a) (hb : Marked n b) : Marked n (a ++ b) := by
  obtain ⟨ns, ha, hns⟩ := ha
  obtain ⟨ms, hb, hms⟩ := hb
  exact ⟨ns ++ ms, ha.append hb, List.forall_mem_append.2 ⟨hns, hms⟩⟩

theorem textClass (n : Nat) : TextClass (Marked n) := ⟨fun h => (unmarked_of_plain h).marked, append⟩

/-- A text that starts and ends like the given ones. -/
theorem between {a b s : String} (hs : Marked n s) (ha : Unmarked a) (hb : Unmarked b) : Marked n (a ++ s ++ b) :=
  (ha.marked.append hs).append hb.marked

end Marked

/-- **Code without marks** but those of its references: its words, remarks and comments hold none. -/
structure Tidy (ss : List Stmt) : Prop where
  words : ∀ w ∈ Stmt.wordsOf ss, Unmarked w
  notes : ∀ t ∈ Stmt.notesOf ss, Unmarked t
  comments : ∀ t ∈ Stmt.commentsOf ss, Unmarked t

end Locomotive.Js
