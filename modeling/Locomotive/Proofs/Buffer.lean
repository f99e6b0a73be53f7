import Locomotive.Console.Buffer
import Locomotive.Proofs.Program.Numbered

/-!
# The program in a buffer

A buffer holds its lines in the order of their numbers, with one line for each number and the number in front of the
line. This is kept by whatever is entered, so the text of a buffer can be read as a program whose labels are those
numbers, however they are written.

* `Buffer.ofLines`: the buffer after some lines are entered.
* `Buffer.Ordered`: the invariant, which `Buffer.Ordered.enter` keeps.
* `Buffer.ofLines_legible`: the program of a buffer.
-/

namespace Locomotive

/-- A number in digits alone is not negative. -/
theorem Text.integerOf?_digits {cs : List Char} (h : ∀ c ∈ cs, c.isDigit = true) {v : Int}
    (hv : integerOf? cs = some v) : v = v.toNat := by
  obtain ⟨hsigned, -⟩ := Option.filter_eq_some_iff.1 hv
  have hne : cs ≠ [] := by
    rintro rfl
    cases hsigned
  rw [signed?_digits hne h] at hsigned
  have := Option.some.inj hsigned
  omega

/-- A program is nothing but its lines. -/
theorem Program.map_lines_parse (strict : Bool) (tokens : List Token) (source : List Char) :
    (Program.parse strict tokens source).map Program.lines =
      Parse.lines ⟨strict, Source.normalize source⟩ [] (-1) tokens := by
  unfold Program.parse
  cases Parse.lines ⟨strict, Source.normalize source⟩ [] (-1) tokens <;> rfl

namespace Buffer

/-- **The buffer after some lines are entered.** One that is refused changes nothing. -/
def ofLines (ls : List String) : Buffer := ls.foldl (fun b l => (b.enter? l).getD b) {}

/-- **The lines ascend**, each with its number in front. -/
structure Ordered (b : Buffer) : Prop where
  ascending : b.lines.Pairwise fun l k => l.1 < k.1
  numbered : ∀ l ∈ b.lines, Text.NumberedLine l.1 l.2.toList

/-! ## Entering lines -/

section

variable {n : Nat} {text : String}

theorem mem_insert {ls : List (Nat × String)} {l : Nat × String} (h : l ∈ insert n text ls) :
    l = (n, text) ∨ l ∈ ls := by
  induction ls with
  | nil => exact .inl (List.mem_singleton.1 h)
  | cons k ls ih =>
    unfold insert at h
    split at h
    · exact List.mem_cons.1 h
    split at h
    · exact (List.mem_cons.1 h).imp_right (List.mem_cons_of_mem k)
    · rcases List.mem_cons.1 h with rfl | h
      · exact .inr List.mem_cons_self
      · exact (ih h).imp_right (List.mem_cons_of_mem k)

/-- A line that is put in its place leaves the others in order. -/
theorem insert_ascending {ls : List (Nat × String)} (h : ls.Pairwise fun l k => l.1 < k.1) :
    (insert n text ls).Pairwise fun l k => l.1 < k.1 := by
  induction ls with
  | nil => exact List.pairwise_singleton _ _
  | cons k ls ih =>
    obtain ⟨hfirst, hrest⟩ := List.pairwise_cons.1 h
    unfold insert
    split
    · rename_i hlt
      refine List.pairwise_cons.2 ⟨fun l hl => ?_, h⟩
      rcases List.mem_cons.1 hl with rfl | hl
      · exact hlt
      · exact Nat.lt_trans hlt (hfirst l hl)
    rename_i hlt
    split
    · rename_i heq
      exact List.pairwise_cons.2 ⟨fun l hl => heq ▸ hfirst l hl, hrest⟩
    · rename_i hne
      refine List.pairwise_cons.2 ⟨fun l hl => ?_, ih hrest⟩
      rcases mem_insert hl with rfl | hl
      · show k.1 < n
        omega
      · exact hfirst l hl

namespace Ordered

variable {b : Buffer}

theorem empty : Ordered {} := ⟨.nil, by simp⟩

theorem put (h : b.Ordered) (htext : Text.NumberedLine n text.toList) : (b.put n text).Ordered := by
  refine ⟨insert_ascending h.ascending, fun l hl => ?_⟩
  rcases mem_insert hl with rfl | hl
  · exact htext
  · exact h.numbered l hl

theorem erase (h : b.Ordered) (n : Nat) : (b.erase n).Ordered :=
  ⟨h.ascending.sublist List.filter_sublist, fun l hl => h.numbered l (List.mem_of_mem_filter hl)⟩

/-- **Whatever line is entered** leaves a buffer in order. -/
theorem enter (h : b.Ordered) {line : String} (hline : Text.OneLine line.toList) {b' : Buffer}
    (hb : b.enter? line = some b') : b'.Ordered := by
  unfold enter? at hb
  dsimp only at hb
  split at hb
  · cases hb
  rename_i label hlabel
  split at hb
  · cases hb
    exact h.erase _
  · cases hb
    refine h.put ⟨?_, ?_⟩
    · have hdigits : ∀ c ∈ (Text.trimChars line.toList).takeWhile Char.isDigit, c.isDigit = true := fun c hc =>
        List.all_eq_true.1 List.all_takeWhile c hc
      rw [String.toList_ofList, ← Text.integerOf?_digits hdigits hlabel]
      exact hlabel
    · rw [String.toList_ofList]
      have htrim := Token.trimChars_subset line.toList
      exact ⟨fun hmem => hline.1 (htrim _ hmem), fun hmem => hline.2 (htrim _ hmem)⟩

end Ordered

end

/-- **Every buffer that is reached** by entering lines is in order. -/
theorem ordered_ofLines {ls : List String} (h : ∀ l ∈ ls, Text.OneLine l.toList) : (ofLines ls).Ordered := by
  have hrun : ∀ (ls : List String) (b : Buffer), (∀ l ∈ ls, Text.OneLine l.toList) → b.Ordered →
      (ls.foldl (fun b l => (b.enter? l).getD b) b).Ordered := by
    intro ls
    induction ls with
    | nil => exact fun b _ hb => hb
    | cons l ls ih =>
      intro b hls hb
      obtain ⟨hl, hls⟩ := List.forall_mem_cons.1 hls
      have hstep : ((b.enter? l).getD b).Ordered := by
        cases henter : b.enter? l with
        | none => exact hb
        | some b' => exact hb.enter hl henter
      exact ih _ hls hstep
  exact hrun ls {} h .empty

/-! ## Reading a buffer -/

/-- The numbers of the lines. -/
def numbers (b : Buffer) : List Nat := b.lines.map Prod.fst

theorem toList_source (b : Buffer) :
    b.source.toList = Token.numberedText (b.lines.map fun l => (l.1, l.2.toList)) := by
  unfold source
  induction b.lines with
  | nil => rfl
  | cons l ls ih =>
    rw [List.map_cons, String.join_cons, String.toList_append, ih, List.map_cons, Token.numberedText_cons,
      String.toList_append, List.append_assoc]
    rfl

/-- **How a buffer is read**: if its text can be scanned, it is a program under the numbers of the lines, or something
else is wrong than how labels follow one another. -/
structure Legible (b : Buffer) : Prop where
  /-- The numbers ascend, so there is one line for each. -/
  ascending : b.numbers.Pairwise (· < ·)
  /-- A program has a line for each number, with the number in decimal digits as its label. -/
  labels : ∀ strict p, (Token.scan b.source.toList).error = none →
    Program.parse strict (Token.scan b.source.toList).tokens b.source.toList = .ok p →
    p.lines.map Line.label = b.numbers.map fun n => some (toString n)
  /-- No label is missing, used twice, or not greater than the one before. -/
  complaints : ∀ strict blamed complaint rest, (Token.scan b.source.toList).error = none →
    Program.parse strict (Token.scan b.source.toList).tokens b.source.toList = .error (.rejected blamed complaint rest) →
    ¬ complaint.OfOrder

/-- **A buffer in order** is read under its numbers. -/
theorem Ordered.labelled {b : Buffer} (h : b.Ordered) (strict : Bool)
    (hscan : (Token.scan b.source.toList).error = none) :
    Parse.Labelled b.numbers
      ((Program.parse strict (Token.scan b.source.toList).tokens b.source.toList).map Program.lines) := by
  have hlines : ∀ l ∈ b.lines.map fun l => (l.1, l.2.toList), Text.NumberedLine l.1 l.2 := by
    intro l hl
    obtain ⟨k, hk, rfl⟩ := List.mem_map.1 hl
    exact h.numbered k hk
  have hnumbers : (b.lines.map fun l => (l.1, l.2.toList)).map Prod.fst = b.numbers := by
    rw [List.map_map]
    rfl
  have hnormal : Source.normalize b.source.toList = Token.numberedText (b.lines.map fun l => (l.1, l.2.toList)) := by
    rw [toList_source, Token.normalize_numberedText hlines]
  unfold Token.scan at hscan ⊢
  rw [Program.map_lines_parse]
  rw [hnormal] at hscan ⊢
  have htokens := (Token.scanned _ 0 1).numbered hlines hscan
  rw [hnumbers] at htokens
  refine Parse.lines_numbered _ htokens (List.pairwise_map.2 h.ascending) [] (-1) (fun n _ => by omega) fun n _ => ?_
  simp [labelsOf]

/-- **A buffer holds a program in the order of its labels**, whatever lines have been entered. -/
theorem ofLines_legible (ls : List String) (h : ∀ l ∈ ls, Text.OneLine l.toList) : (ofLines ls).Legible := by
  have hordered := ordered_ofLines h
  refine ⟨List.pairwise_map.2 hordered.ascending, ?_, ?_⟩
  · intro strict p hscan hp
    have hlabelled := hordered.labelled strict hscan
    rw [hp] at hlabelled
    exact hlabelled
  · intro strict blamed complaint rest hscan hp
    have hlabelled := hordered.labelled strict hscan
    rw [hp] at hlabelled
    exact hlabelled

/-- Lines in no order, one of them with leading zeros, one replaced, one taken out and one refused. -/
theorem ofLines_legible_mixed :
    (∀ l ∈ ["20 END", "007 CLS", "30 CLS", "PRINT", "30", "20 RETURN"], Text.OneLine l.toList) ∧
    (ofLines ["20 END", "007 CLS", "30 CLS", "PRINT", "30", "20 RETURN"]).source = "007 CLS\n20 RETURN\n" ∧
    ∃ p, Program.parse true (Token.scan "007 CLS\n20 RETURN\n".toList).tokens "007 CLS\n20 RETURN\n".toList = .ok p ∧
      p.lines.map Line.label = [some "7", some "20"] := by
  have hlines : ∀ l ∈ ["20 END", "007 CLS", "30 CLS", "PRINT", "30", "20 RETURN"], Text.OneLine l.toList := by
    decide +kernel
  have hsource : (ofLines ["20 END", "007 CLS", "30 CLS", "PRINT", "30", "20 RETURN"]).source =
      "007 CLS\n20 RETURN\n" := by
    decide +kernel
  have hnumbers : (ofLines ["20 END", "007 CLS", "30 CLS", "PRINT", "30", "20 RETURN"]).numbers = [7, 20] := by
    decide +kernel
  have hread : (Program.parse true (Token.scan "007 CLS\n20 RETURN\n".toList).tokens
      "007 CLS\n20 RETURN\n".toList).toOption.isSome = true := by
    decide +kernel
  have hlegible := ofLines_legible _ hlines
  obtain ⟨p, hp⟩ := exists_ok_of_isSome hread
  have hlabels := hlegible.labels true p
  rw [hsource, hnumbers] at hlabels
  exact ⟨hlines, hsource, p, hp, hlabels (by decide +kernel) hp⟩

end Buffer

end Locomotive
