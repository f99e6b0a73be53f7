import Locomotive.Proofs.Layout.Line
import Locomotive.Proofs.Mark

/-!
# What is shown of the source

Comments, and statements that have no counterpart, are shown in the generated program. A line of the source
holds no line feed and no carriage return, so the line that is generated for it holds none either,
and nothing that is shown in a remark ends it. The separators U+2028 and U+2029 end a line of
JavaScript, but not of the source: they are kept in what is shown, and occur nowhere else.

* `FilledChars.split`: replacing the marks of two texts side by side.
* `not_infix_keepOpen`: the text of a remark does not end it.
* `compile_shows_source`: the lines of a program, and what is shown in them.
-/

namespace Locomotive

open Js (Unmarked siteMark Clean)
open Text (Within AllWithin Unbroken)

/-- The characters that end a line of JavaScript but not of a source text. -/
def Js.separators : List Char := [Char.ofNat 0x2028, Char.ofNat 0x2029]

theorem Js.not_plain_of_separator {x : Char} (h : x ∈ Js.separators) : ¬ Js.Plain x := by
  simp only [Js.separators, List.mem_cons, List.not_mem_nil, or_false] at h
  rcases h with rfl | rfl <;> decide

/-- Separators belong to no mark. -/
theorem Js.clean_of_separator {x : Char} (h : x ∈ Js.separators) : Clean x ∧ x.isDigit = false := by
  simp only [Js.separators, List.mem_cons, List.not_mem_nil, or_false] at h
  rcases h with rfl | rfl <;> decide

/-! ## Replacing marks, part by part -/

/-- A mark is made of digits and of its own characters. -/
theorem not_mem_siteMark {c : Char} (hc : Clean c) (hd : c.isDigit = false) (i : Nat) : c ∉ (siteMark i).toList := by
  intro h
  have hparts : c = Js.markOpen ∨ c ∈ (toString i).toList ∨ c = Js.markClose := by simpa [siteMark] using h
  rcases hparts with h | h | h
  · exact hc.1 h
  · rw [isDigit_of_mem_toString h] at hd
    cases hd
  · exact hc.2 h

namespace FilledChars

variable {ref : Nat → String} {a b cs out : List Char}

/-- **A character of no mark parts a text**, and its marks are replaced on both sides. -/
theorem split {c : Char} (hc : Clean c) (hd : c.isDigit = false) (h : FilledChars ref (a ++ c :: b) out) :
    ∃ x y, out = x ++ c :: y ∧ FilledChars ref a x ∧ FilledChars ref b y := by
  generalize hall : a ++ c :: b = cs at h
  induction h generalizing a with
  | nil => simp at hall
  | @char d cs out hd' hrest ih =>
    cases a with
    | nil =>
      obtain ⟨rfl, rfl⟩ := List.cons.inj hall
      exact ⟨[], out, rfl, .nil, hrest⟩
    | cons e a =>
      obtain ⟨rfl, htail⟩ := List.cons.inj hall
      obtain ⟨x, y, rfl, hx, hy⟩ := ih htail
      exact ⟨e :: x, y, rfl, .char hd' hx, hy⟩
  | @mark i cs out hrest ih =>
    -- the character is not in the mark, so it stands behind it
    obtain ⟨a', rfl, hcs⟩ : ∃ a', a = (siteMark i).toList ++ a' ∧ a' ++ c :: b = cs := by
      rcases List.append_eq_append_iff.1 hall with ⟨m, hm, hcs⟩ | ⟨a', ha, hcs⟩
      · cases m with
        | nil => exact ⟨[], by simpa using hm.symm, by simpa using hcs⟩
        | cons d m =>
          have hdc : c = d := (List.cons.inj hcs).1
          have hmem : c ∈ (siteMark i).toList := by rw [hm, hdc]; simp
          exact absurd hmem (not_mem_siteMark hc hd i)
      · exact ⟨a', ha, hcs.symm⟩
    obtain ⟨x, y, rfl, hx, hy⟩ := ih hcs
    exact ⟨(ref i).toList ++ x, y, by simp, .mark hx, hy⟩

/-- A character of no mark is kept. -/
theorem mem {c : Char} (hc : Clean c) (hd : c.isDigit = false) (h : FilledChars ref cs out) (hmem : c ∈ cs) :
    c ∈ out := by
  obtain ⟨a, b, rfl⟩ := List.append_of_mem hmem
  obtain ⟨x, y, rfl, -, -⟩ := h.split hc hd
  simp

/-- A text without marks stays as it is. -/
theorem eq_of_clean (hcs : ∀ c ∈ cs, Clean c) (h : FilledChars ref cs out) : out = cs := by
  rw [← List.append_nil cs] at h
  obtain ⟨rest, rfl, hrest⟩ := h.append_inv hcs
  rw [hrest.nil_inv, List.append_nil]

/-- A text without marks that starts with a sign stands in the other text too. -/
theorem infix_of_clean {c : Char} {w : List Char} (hc : Clean c) (hd : c.isDigit = false) (hw : ∀ x ∈ w, Clean x)
    (h : FilledChars ref cs out) (hstands : c :: w <:+: cs) : c :: w <:+: out := by
  obtain ⟨a, b, rfl⟩ := hstands
  rw [List.append_assoc, List.cons_append] at h
  obtain ⟨x, y, rfl, -, hy⟩ := h.split hc hd
  obtain ⟨z, rfl, -⟩ := hy.append_inv hw
  exact ⟨x, z, by simp⟩

/-- What stands behind a whole line is replaced on its own. -/
theorem append_split (ha : a = [] ∨ ∃ a' c, a = a' ++ [c] ∧ Clean c ∧ c.isDigit = false)
    (h : FilledChars ref (a ++ b) out) : ∃ x y, out = x ++ y ∧ FilledChars ref a x ∧ FilledChars ref b y := by
  rcases ha with rfl | ⟨a', c, rfl, hc, hd⟩
  · exact ⟨[], out, rfl, .nil, h⟩
  · rw [List.append_assoc, List.singleton_append] at h
    obtain ⟨x, y, rfl, hx, hy⟩ := h.split hc hd
    refine ⟨x ++ [c], y, by simp, ?_, hy⟩
    -- the character joins what stands before it
    have hsnoc : ∀ {cs out : List Char}, FilledChars ref cs out → FilledChars ref (cs ++ [c]) (out ++ [c]) := by
      intro cs out h
      induction h with
      | nil => exact .char hc .nil
      | char hd _ ih => exact .char hd ih
      | mark _ ih =>
        rw [List.append_assoc, List.append_assoc]
        exact .mark ih
    exact hsnoc hx

/-- The characters are those of the text and of the references. -/
theorem within {P : Char → Prop} (h : FilledChars ref cs out) (hcs : ∀ c ∈ cs, P c) (href : ∀ i, Within P (ref i)) :
    ∀ c ∈ out, P c := by
  induction h with
  | nil => simp
  | char _ _ ih =>
    obtain ⟨hc, hcs⟩ := List.forall_mem_cons.1 hcs
    exact List.forall_mem_cons.2 ⟨hc, ih hcs⟩
  | @mark i cs out _ ih =>
    exact List.forall_mem_append.2 ⟨href i, ih fun c hc => hcs c (List.mem_append_right _ hc)⟩

end FilledChars

/-! ## Remarks -/

namespace Js

theorem head?_keepOpen (cs : List Char) : (keepOpen cs).head? = cs.head? := by
  fun_cases keepOpen cs <;> rfl

/-- **The text of a remark does not end it.** -/
theorem not_infix_keepOpen (cs : List Char) : ¬ ['*', '/'] <:+: keepOpen cs := by
  fun_induction keepOpen cs with
  | case1 cs ih => simpa [List.infix_cons_iff, List.cons_prefix_cons] using ih
  | case2 c cs hopen ih =>
    rw [List.infix_cons_iff, not_or]
    refine ⟨fun hfront => ?_, ih⟩
    obtain ⟨rfl, hrest⟩ := List.cons_prefix_cons.1 hfront
    -- the next character is that of the text, and no slash
    have hhead : cs.head? = some '/' := by
      rw [← head?_keepOpen]
      obtain ⟨r, hr⟩ := hrest
      rw [← hr]
      rfl
    obtain ⟨r, rfl⟩ : ∃ r, cs = '/' :: r := by
      cases cs with
      | nil => simp at hhead
      | cons d r => exact ⟨r, by simpa using hhead⟩
    exact hopen r rfl rfl
  | case3 => simp

/-- A character other than a slash ends no remark. -/
theorem not_infix_concat {cs : List Char} (h : ¬ ['*', '/'] <:+: cs) {x : Char} (hx : x ≠ '/') :
    ¬ ['*', '/'] <:+: cs ++ [x] := by
  rw [List.infix_concat_iff, not_or]
  refine ⟨fun hend => ?_, h⟩
  have hlast := hend.getLast (by simp)
  rw [List.getLast_concat] at hlast
  exact hx hlast.symm

/-- **A remark ends with its closing sign only.** -/
theorem note_closed (text : String) {a b : List Char}
    (h : ("/* " ++ unsupportedNote text ++ " */").toList = a ++ ['*', '/'] ++ b) : b = [] := by
  have hsplit : ("/* " ++ unsupportedNote text ++ " */").toList =
      "/* UNSUPPORTED: ".toList ++ keepOpen (stripMarks text).toList ++ [' '] ++ ['*'] ++ ['/'] := by
    have hfront : "/* UNSUPPORTED: ".toList = "/* ".toList ++ "UNSUPPORTED: ".toList := by decide
    rw [hfront]
    simp [unsupportedNote]
  -- nothing in front of the closing sign ends the remark
  have hbody : ¬ ['*', '/'] <:+: "/* UNSUPPORTED: ".toList ++ keepOpen (stripMarks text).toList ++ [' '] ++ ['*'] := by
    refine not_infix_concat (not_infix_concat ?_ (by decide)) (by decide)
    have hfront : "/* UNSUPPORTED: ".toList =
        ['/', '*', ' ', 'U', 'N', 'S', 'U', 'P', 'P', 'O', 'R', 'T', 'E', 'D', ':', ' '] := by decide
    rw [hfront]
    simpa [List.infix_cons_iff, List.cons_prefix_cons] using not_infix_keepOpen (stripMarks text).toList
  rw [hsplit] at h
  rcases List.eq_nil_or_concat b with hb | ⟨b', z, hb⟩
  · exact hb
  · refine absurd ?_ hbody
    rw [hb, List.concat_eq_append, ← List.append_assoc] at h
    exact ⟨a, b', ((List.append_inj' h rfl).1).symm⟩

end Js

/-! ## Shown texts -/

theorem mem_of_mem_stripMarks {s : String} {c : Char} (h : c ∈ (Js.stripMarks s).toList) : c ∈ s.toList := by
  rw [Js.stripMarks, String.toList_ofList] at h
  exact (List.mem_filter.1 h).1

/-- What keeps a remark open is a blank. -/
theorem mem_of_mem_keepOpen {cs : List Char} {c : Char} (h : c ∈ Js.keepOpen cs) : c ∈ cs ∨ c = ' ' := by
  fun_induction Js.keepOpen cs with
  | case1 cs ih =>
    simp only [List.mem_cons] at h ⊢
    rcases h with h | h | h | h
    · exact .inl (.inl h)
    · exact .inr h
    · exact .inl (.inr (.inl h))
    · exact (ih h).imp_left fun h => .inr (.inr h)
  | case2 d cs _ ih =>
    rcases List.mem_cons.1 h with h | h
    · exact .inl (List.mem_cons.2 (.inl h))
    · exact (ih h).imp_left fun h => List.mem_cons_of_mem d h
  | case3 => simp at h

theorem Js.Plain.unbroken {c : Char} (h : Js.Plain c) : Unbroken c := by
  constructor <;> rintro rfl <;> exact absurd h (by decide)

/-- **Shown comments** hold no line break. -/
theorem unbroken_shownComments {ss : List Stmt} (h : Stmt.AllLegible ss) :
    AllWithin Unbroken (Emit.shownComments ss) := by
  intro t ht
  obtain ⟨text, htext, rfl⟩ := List.mem_map.1 ht
  intro c hc
  have hc := mem_of_mem_stripMarks hc
  rw [Text.trim, String.toList_ofList] at hc
  exact h.remarks text htext c (Token.trimChars_subset _ c hc)

/-- **Shown remarks** hold no line break. -/
theorem unbroken_shownNotes {ss : List Stmt} (h : Stmt.AllLegible ss) : AllWithin Unbroken (Emit.shownNotes ss) := by
  intro t ht
  obtain ⟨text, htext, rfl⟩ := List.mem_map.1 ht
  refine Text.within_append.2 ⟨?_, Text.within_ofList.2 fun c hc => ?_⟩
  · exact Within.mono (show Within Js.Plain "UNSUPPORTED: " by decide) fun _ => Js.Plain.unbroken
  · rcases mem_of_mem_keepOpen hc with hc | rfl
    · exact h.quotes text htext c (mem_of_mem_stripMarks hc)
    · exact ⟨by decide, by decide⟩

/-- The character breaks no line of the source; and if it is a separator, something that is shown of the
statements holds it. -/
def Stmt.Showable (ss : List Stmt) (x : Char) : Prop :=
  Unbroken x ∧ (x ∈ Js.separators → ∃ t ∈ Emit.shownComments ss ++ Emit.shownNotes ss, x ∈ t.toList)

namespace Stmt

theorem covers_showable (ss : List Stmt) : Js.Covers (Showable ss) := fun _ hx =>
  ⟨hx.unbroken, fun hsep => absurd hx (Js.not_plain_of_separator hsep)⟩

theorem showable_siteMark (ss : List Stmt) (i : Nat) : Within (Showable ss) (siteMark i) := by
  intro x hx
  have hparts : x = Js.markOpen ∨ x ∈ (toString i).toList ∨ x = Js.markClose := by simpa [siteMark] using hx
  rcases hparts with rfl | hx | rfl
  · exact ⟨⟨by decide, by decide⟩, fun h => absurd h (by decide)⟩
  · exact covers_showable ss x (Js.plain_toString i x hx)
  · exact ⟨⟨by decide, by decide⟩, fun h => absurd h (by decide)⟩

theorem showable_comments {ss : List Stmt} (h : AllLegible ss) : AllWithin (Showable ss) (Emit.shownComments ss) :=
  fun t ht x hx => ⟨unbroken_shownComments h t ht x hx, fun _ => ⟨t, List.mem_append_left _ ht, hx⟩⟩

theorem showable_notes {ss : List Stmt} (h : AllLegible ss) : AllWithin (Showable ss) (Emit.shownNotes ss) :=
  fun t ht x hx => ⟨unbroken_shownNotes h t ht x hx, fun _ => ⟨t, List.mem_append_right _ ht, hx⟩⟩

end Stmt

/-- **The characters of the code of a line** break no line, and separators are shown. -/
theorem Composed.showable {ss : List Stmt} {code : List Js.Stmt} (hss : Stmt.AllLegible ss)
    (h : Composed Js.Plain (Emit.shownComments ss) (Emit.shownNotes ss) code) :
    Within (Stmt.Showable ss) (Js.lineText code) := by
  have hcovers := Stmt.covers_showable ss
  refine Js.Stmt.lineText_of (.within hcovers) (h.words.mono hcovers) (fun i _ => Stmt.showable_siteMark ss i) ?_ ?_
  · rw [h.notes]
    exact Stmt.showable_notes hss
  · rw [h.comments]
    exact Stmt.showable_comments hss

/-! ## Rows -/

/-- The text is made of whole lines. -/
def Text.Whole (s : String) : Prop := s = "" ∨ ∃ t, s = t ++ "\n"

theorem Text.Whole.append {a b : String} (ha : Text.Whole a) (hb : Text.Whole b) : Text.Whole (a ++ b) := by
  rcases hb with rfl | ⟨t, rfl⟩
  · simpa using ha
  · exact .inr ⟨a ++ t, (String.append_assoc ..).symm⟩

/-- The text holds `line` in a line of its own, behind tabs. -/
def Text.HasLine (text line : String) : Prop :=
  ∃ front tabs behind, Text.Whole front ∧ (∀ x ∈ tabs.toList, x = '\t') ∧ text = front ++ tabs ++ line ++ "\n" ++ behind

/-- Whole lines stay whole lines. -/
theorem FilledChars.whole {ref : Nat → String} {front : String} {x : List Char} (hf : Text.Whole front)
    (h : FilledChars ref front.toList x) : Text.Whole (String.ofList x) := by
  rcases hf with rfl | ⟨t, rfl⟩
  · rw [FilledChars.nil_inv h]
    exact .inl rfl
  · rw [String.toList_append] at h
    obtain ⟨u, v, rfl, -, hv⟩ := FilledChars.split (c := '\n') (by decide) (by decide) h
    rw [hv.nil_inv]
    exact .inr ⟨String.ofList u, String.toList_inj.1 (by simp)⟩

/-- **A line of a text with marks** is a line of the other text, with its own marks replaced. -/
theorem FilledChars.hasLine {ref : Nat → String} {marked text line : String}
    (h : FilledChars ref marked.toList text.toList) (hline : Text.HasLine marked line) :
    ∃ out : String, FilledChars ref line.toList out.toList ∧ Text.HasLine text out := by
  obtain ⟨front, tabs, behind, hfront, htabs, rfl⟩ := hline
  simp only [String.toList_append, List.append_assoc] at h
  have hclean : ∀ x ∈ tabs.toList, Clean x := by
    intro x hx
    rw [htabs x hx]
    decide
  -- whole lines do not end with a part of a mark
  have hlines : front.toList = [] ∨ ∃ a x, front.toList = a ++ [x] ∧ Clean x ∧ x.isDigit = false := by
    rcases hfront with rfl | ⟨t, rfl⟩
    · exact .inl rfl
    · exact .inr ⟨t.toList, '\n', by simp, by decide, by decide⟩
  obtain ⟨x, rest, htext, hx, hrest⟩ := h.append_split hlines
  obtain ⟨own, rfl, hown⟩ := hrest.append_inv hclean
  obtain ⟨y, z, rfl, hy, -⟩ := FilledChars.split (c := '\n') (by decide) (by decide) hown
  refine ⟨String.ofList y, by rwa [String.toList_ofList], ?_⟩
  refine ⟨String.ofList x, tabs, String.ofList z, hx.whole hfront, htabs, ?_⟩
  apply String.toList_inj.1
  rw [htext]
  simp

theorem whole_rows (rows : List Row) : Text.Whole (String.join (rows.map Row.written)) := by
  induction rows with
  | nil => exact .inl rfl
  | cons r rows ih =>
    have hjoin : String.join ((r :: rows).map Row.written) = r.written ++ String.join (rows.map Row.written) := by
      simp
    rw [hjoin]
    exact Text.Whole.append (.inr ⟨_, rfl⟩) ih

theorem Tables.whole_globalText (t : Tables) : Text.Whole t.globalText := by
  unfold Tables.globalText
  split
  · exact .inr ⟨_, rfl⟩
  · exact .inl rfl

theorem Tables.whole_dataText (t : Tables) : Text.Whole t.dataText := by
  unfold Tables.dataText
  split
  · have hend : "\x7d;\nlet _dataPtr = 0;\n" = "\x7d;\nlet _dataPtr = 0;" ++ "\n" := by decide
    rw [hend, ← String.append_assoc]
    exact .inr ⟨_, rfl⟩
  · exact .inl rfl

namespace Draft

variable {p : Program} {text : String} {after : Tables}

/-- The stages of a program are those of its draft, so its marks are replaced. -/
theorem filled (o : Draft p text after) (s : Stages p text) :
    FilledChars (siteText (o.tables.functions o.async) o.tables.callSites) o.marked.toList text.toList := by
  obtain ⟨t, hrun, htables⟩ := o.lines_eq
  obtain ⟨t', hrun', htables'⟩ := s.lines_eq
  rw [hrun] at hrun'
  obtain ⟨hcodes, ht⟩ := Prod.mk.inj hrun'
  have hcodes : o.codes = s.codes := Except.ok.inj hcodes
  have htab : s.tables = o.tables := by rw [htables', htables, ht]
  have hasync : s.async = o.async := by
    have := s.async_eq
    rw [htab, ← hcodes, o.async_eq] at this
    exact (Option.some.inj this).symm
  have hmarked : s.marked = o.marked := by
    have := s.marked_eq
    rw [htab, hasync, ← hcodes, o.marked_eq] at this
    exact (Option.some.inj this).symm
  have hfilled := s.filled
  rwa [htab, hasync, hmarked] at hfilled

/-- **A line that has code has a row**, which stands in a line of its own. -/
theorem row_of_line (o : Draft p text after) {k : Nat} {c : LineCode} (hk : o.codes[k]? = some c)
    (hne : c.fragment.text ≠ "") : Text.HasLine o.marked c.fragment.text := by
  have h := o.assembled
  have hfrag : (o.codes.map LineCode.fragment)[k]? = some c.fragment := by rw [List.getElem?_map, hk]; rfl
  have hlt : k < p.lines.length := by
    rw [← h.count]
    exact (List.getElem?_eq_some_iff.1 hfrag).1
  -- the row of the line stands among those that belong to it
  obtain ⟨indent, hrow⟩ : ∃ indent, lineRow after.subroutines (o.codes.map LineCode.fragment) k =
      [⟨indent, c.fragment.text⟩] := by
    unfold lineRow
    rw [hfrag, Option.bind_some, Fragment.row?, if_neg hne]
    exact ⟨_, rfl⟩
  have hmem : ⟨indent, c.fragment.text⟩ ∈ (List.range p.lines.length).flatMap (rowsAt o.tables.vars o.async
      after.subroutines (o.codes.map LineCode.fragment) after.subroutines) := by
    refine List.mem_flatMap.2 ⟨k, List.mem_range.2 hlt, ?_⟩
    unfold rowsAt
    rw [hrow]
    simp
  obtain ⟨rows, rows', hrows⟩ := List.append_of_mem hmem
  refine ⟨o.tables.globalText ++ o.tables.dataText ++ String.join (rows.map Row.written),
    String.ofList (List.replicate indent.toNat '\t'), String.join (rows'.map Row.written) ++ o.tables.helperText,
    ?_, ?_, ?_⟩
  · exact ((Tables.whole_globalText _).append (Tables.whole_dataText _)).append (whole_rows rows)
  · intro x hx
    rw [String.toList_ofList] at hx
    exact List.eq_of_mem_replicate hx
  · have hbody := h.body
    rw [hrows] at hbody
    have hwhole : o.tables.globalText ++ o.tables.dataText ++ String.join ((rows ++ (⟨indent, c.fragment.text⟩ : Row) ::
        rows').map Row.written) ++ o.tables.helperText = o.tables.globalText ++ o.tables.dataText ++
        String.join (rows.map Row.written) ++ String.ofList (List.replicate indent.toNat '\t') ++ c.fragment.text ++
          "\n" ++ (String.join (rows'.map Row.written) ++ o.tables.helperText) := by
      apply String.toList_inj.1
      simp [Row.written]
    rw [hwhole] at hbody
    rw [hbody]
    refine if_neg fun hempty => ?_
    have := congrArg String.length hempty
    simp at this

/-! ## Lines -/

/-- **What is generated for a line**, and what it shows of the source. -/
structure Shows (o : Draft p text after) (l : Line) (c : LineCode) (out : String) : Prop where
  /-- It is the code of the line, with the marks replaced. -/
  filled : FilledChars (siteText (o.tables.functions o.async) o.tables.callSites) c.fragment.text.toList out.toList
  /-- It stands in a line of its own of the program, behind tabs, unless there is nothing to write. -/
  written : c.fragment.text = "" ∧ out = "" ∨ Text.HasLine text out
  /-- It holds no line feed and no carriage return. -/
  unbroken : Within Unbroken out
  /-- It holds a separator exactly if something that it shows does. -/
  separators : ∀ x ∈ Js.separators,
    (x ∈ out.toList ↔ ∃ t ∈ Emit.shownComments l.stmts ++ Emit.shownNotes l.stmts, x ∈ t.toList)
  /-- Its comments stand at its end. -/
  comments : Emit.shownComments l.stmts ≠ [] →
    ∃ code, out = code ++ "// " ++ " // ".intercalate (Emit.shownComments l.stmts)
  /-- It holds each of its remarks, which ends with its closing sign and not before. -/
  notes : ∀ t ∈ Emit.shownNotes l.stmts, ("/* " ++ t ++ " */").toList <:+: out.toList ∧
    ∀ a b, ("/* " ++ t ++ " */").toList = a ++ ['*', '/'] ++ b → b = []

/-- Where a line is written, with its marks replaced. -/
theorem exists_written (o : Draft p text after) (s : Stages p text) {k : Nat} {c : LineCode}
    (hk : o.codes[k]? = some c) : ∃ out : String,
      FilledChars (siteText (o.tables.functions o.async) o.tables.callSites) c.fragment.text.toList out.toList ∧
      (c.fragment.text = "" ∧ out = "" ∨ Text.HasLine text out) := by
  by_cases hne : c.fragment.text = ""
  · refine ⟨"", ?_, .inl ⟨hne, rfl⟩⟩
    rw [hne]
    exact .nil
  · obtain ⟨out, hout, hline⟩ := (o.filled s).hasLine (o.row_of_line hk hne)
    exact ⟨out, hout, .inr hline⟩

/-- The comments of a line stand at its end, also after its marks are replaced. -/
theorem comments_last {ref : Nat → String} {code : List Js.Stmt} {comments : List String} {out : String}
    (h : FilledChars ref (Js.lineText code).toList out.toList) (hcode : Js.Stmt.commentsOf code = comments)
    (hne : comments ≠ []) (hclean : ∀ t ∈ comments, Unmarked t) :
    ∃ front, out = front ++ "// " ++ " // ".intercalate comments := by
  obtain ⟨before, htext⟩ : ∃ before, Js.lineText code = before ++ ("// " ++ " // ".intercalate comments) := by
    unfold Js.lineText
    dsimp only
    rw [hcode, if_neg (by simpa using hne), String.append_assoc]
    exact ⟨_, rfl⟩
  have hrest : Unmarked ("/ " ++ " // ".intercalate comments) := by
    have hlist : Unmarked (" // ".intercalate comments) := Within.intercalate (show Unmarked " // " by decide) hclean
    exact Js.unmarked_append.2 ⟨by decide, hlist⟩
  have hsplit : (Js.lineText code).toList =
      before.toList ++ '/' :: ("/ " ++ " // ".intercalate comments).toList := by
    rw [htext]
    simp
  rw [hsplit] at h
  obtain ⟨x, y, hout, -, hy⟩ := h.split (by decide) (by decide)
  rw [hy.eq_of_clean hrest] at hout
  refine ⟨String.ofList x, String.toList_inj.1 ?_⟩
  rw [hout]
  simp

/-- **Every line of a program shows its source safely**, but for separators. -/
theorem exists_shows (o : Draft p text after) (s : Stages p text)
    (hlegible : ∀ l ∈ p.lines, Stmt.AllLegible l.stmts) {k : Nat} {l : Line} {c : LineCode}
    (hl : p.lines[k]? = some l) (hk : o.codes[k]? = some c) : ∃ out, o.Shows l c out := by
  obtain ⟨out, hfilled, hwritten⟩ := o.exists_written s hk
  have hwords : ∀ l ∈ p.lines, Stmt.AllSpelled Js.Plain l.stmts := fun l hl => (hlegible l hl).words
  obtain ⟨-, hsites, hcodes⟩ := o.lined Js.alphabet_plain hwords
  obtain ⟨l', hl', hcomposed⟩ := hcodes.get hk
  rw [hl, Option.some.injEq] at hl'
  subst hl'
  have hline := hlegible l (List.mem_of_getElem? hl)
  have hcovers := Stmt.covers_showable l.stmts
  have hall : Within (Stmt.Showable l.stmts) out :=
    hfilled.within (hcomposed.showable hline) fun i =>
      within_siteText hcovers _ (fun u hu => (hsites u hu).mono hcovers) i
  refine ⟨out, hfilled, hwritten, fun x hx => (hall x hx).1, fun x hsep => ⟨fun hx => (hall x hx).2 hsep, ?_⟩, ?_, ?_⟩
  · rintro ⟨t, ht, hx⟩
    obtain ⟨hclean, hdigit⟩ := Js.clean_of_separator hsep
    refine hfilled.mem hclean hdigit ?_
    rcases List.mem_append.1 ht with ht | ht
    · exact (Js.Stmt.infix_of_comment (hcomposed.comments ▸ ht)).mem hx
    · refine (Js.Stmt.infix_of_note (hcomposed.notes ▸ ht)).mem ?_
      simp [hx]
  · intro hne
    refine comments_last hfilled hcomposed.comments hne fun t ht => ?_
    obtain ⟨source, -, rfl⟩ := List.mem_map.1 ht
    exact unmarked_stripMarks _
  · intro t ht
    obtain ⟨source, -, rfl⟩ := List.mem_map.1 ht
    refine ⟨?_, fun a b hab => Js.note_closed source hab⟩
    have hstands := Js.Stmt.infix_of_note (hcomposed.notes ▸ ht)
    have hsign : ("/* " ++ Js.unsupportedNote source ++ " */").toList =
        '/' :: ("* " ++ Js.unsupportedNote source ++ " */").toList := by
      simp
    have hclean : Unmarked ("* " ++ Js.unsupportedNote source ++ " */") :=
      Js.unmarked_append.2 ⟨Js.unmarked_append.2 ⟨by decide, unmarked_unsupportedNote source⟩, by decide⟩
    rw [hsign] at hstands ⊢
    exact hfilled.infix_of_clean (by decide) (by decide) hclean hstands

end Draft

/-- **What is shown of the source** in every program that is generated. No line of the source breaks the line
that is generated for it, and no remark ends early; separators are kept where they are shown. -/
theorem compile_shows_source (strict : Bool) (source : List Char) :
    match (compile strict source).result with
    | .error _ => True
    | .ok text => ∃ (p : Program) (o : Draft p text (compile strict source).tables),
      Program.parse strict (Token.scan source).tokens source = .ok p ∧ o.codes.length = p.lines.length ∧
      ∀ {k : Nat} {l : Line} {c : LineCode}, p.lines[k]? = some l → o.codes[k]? = some c → ∃ out, o.Shows l c out := by
  rcases hresult : (compile strict source).result with why | text
  · trivial
  · obtain ⟨p, ⟨s⟩, h⟩ := compile_accepted hresult
    have hlegible := Parse.program_legible (scan_of_compile hresult) h.parsed
    have hgenerate : p.generate = (.ok text, (compile strict source).tables) := by
      rw [h.tables, ← h.generated]
    obtain ⟨o⟩ := Program.exists_draft hgenerate
    exact ⟨p, o, h.parsed, o.length_codes, fun hl hc => o.exists_shows s hlegible hl hc⟩

/-- A separator in a comment of the source is kept in the program. What stands behind it in the comment
stands in a line of its own for JavaScript. -/
theorem comment_keeps_separator : ∃ text : String,
    (compile false "10 REM a\u2028CLS".toList).result = .ok text ∧ text = "// a" ++ "\u2028" ++ "CLS\n" ∧
      ∃ x ∈ Js.separators, x ∈ text.toList := by
  refine ⟨"// a\u2028CLS\n", ?_, by decide, Char.ofNat 0x2028, by decide, by decide⟩
  have hrun : (compile false "10 REM a\u2028CLS".toList).result.toOption = some "// a\u2028CLS\n" := by
    decide +kernel
  rcases hresult : (compile false "10 REM a\u2028CLS".toList).result with why | text <;> rw [hresult] at hrun
  · cases hrun
  · rw [Option.some.inj hrun]

end Locomotive
