import Locomotive.Proofs.Token.Data

/-!
# Tokens tile their text

A text that is scanned to its end is made of its tokens and of spaces and tabs between them: no character is
lost and none is taken twice. `Tiles` says so from left to right; the other facts are read off from it.
The text of each token is its stretch of the source in the normal form of its kind.

* `Tiles`: a text as tokens with gaps between them.
* `Tiled`: where the tokens of a text stand, and which follow which.
* `scan_tiled`: every source text that is scanned to its end is tiled so.
-/

namespace Locomotive.Token

/-! ## Tiling -/

/-- The token stands over the stretch `span` of a text, which starts at `start` on line `row`. -/
structure Over (start row : Nat) (span : List Char) (t : Token) : Prop where
  line : t.line = row
  pos : t.pos = start
  stop : t.stop = start + span.length
  spelled : Spelled t.kind span t.lexeme

/-- **A text as tokens with gaps between them**: from `pos` on line `line` on it is made of the spans of the
tokens and of spaces and tabs, up to the token that ends it. -/
inductive Tiles : Nat → Nat → List Char → List Token → Prop
  | done {pos line : Nat} {t : Token} (ht : t.Over pos line []) (hend : t.kind = .eof) : Tiles pos line [] [t]
  | gap {pos line : Nat} {c : Char} {cs : List Char} {ts : List Token} (hgap : isGap c = true)
      (rest : Tiles (pos + 1) line cs ts) : Tiles pos line (c :: cs) ts
  | token {pos line : Nat} {span cs : List Char} {t : Token} {ts : List Token} (ht : t.Over pos line span)
      (hkind : t.kind ∉ [.eof, .dataItems]) (hword : t.isWord "DATA" = false)
      (rest : Tiles (pos + span.length) (line + span.count '\n') cs ts) : Tiles pos line (span ++ cs) (t :: ts)
  | data {pos line : Nat} {span blanks items cs : List Char} {t d : Token} {ts : List Token}
      (ht : t.Over pos line span) (hword : t.isWord "DATA" = true) (hblanks : ∀ c ∈ blanks, isGap c = true)
      (hd : d.Over (pos + (span ++ blanks).length) line items) (hitems : d.kind = .dataItems)
      (hline : '\n' ∉ span ++ blanks ++ items)
      (rest : Tiles (pos + (span ++ blanks ++ items).length) line cs ts) :
      Tiles pos line (span ++ blanks ++ items ++ cs) (t :: d :: ts)

/-- A piece stands over its characters. -/
theorem piece_over {c : Char} {cs : List Char} {p : Piece} (hp : piece c cs = .ok p) (pos line : Nat) :
    (p.token pos line).Over pos line (c :: p.tail) := by
  refine ⟨rfl, rfl, ?_, (piece_laid hp).spelled⟩
  simp only [Piece.token, List.length_cons]
  omega

/-- A line ends with the character that ends it. -/
theorem count_break_piece {c : Char} {cs : List Char} {p : Piece} (hp : piece c cs = .ok p) (line : Nat) :
    line + (c :: p.tail).count '\n' = if p.kind = .eol then line + 1 else line := by
  have hlaid := piece_laid hp
  split
  · rename_i heol
    obtain ⟨rfl, htail⟩ := hlaid.eol heol
    rw [htail]
    rfl
  · rename_i hother
    rw [List.count_eq_zero.2 (hlaid.inLine hother)]
    rfl

/-- **Scanning tiles the text**, unless it stops early. -/
theorem Scanned.tiles {cs : List Char} {pos line : Nat} {s : Scan} (h : Scanned cs pos line s) (hs : s.error = none) :
    Tiles pos line cs s.tokens := by
  induction h with
  | done => exact .done ⟨rfl, rfl, by simp, rfl⟩ rfl
  | blank hgap run ih => exact .gap hgap (ih hs)
  | failed hgap he => cases hs
  | @token c rest p pos line s hgap hp hdata run ih =>
    rw [← List.cons_append]
    refine .token (piece_over hp pos line) (piece_laid hp).kind hdata ?_
    rw [count_break_piece hp, List.length_cons, Nat.add_comm p.tail.length, ← Nat.add_assoc]
    exact ih hs
  | @data c blanks items rest p pos line s hgap hp hdata hblanks hitems run ih =>
    have hkind : p.kind = .keyword := beq_iff_eq.1 (Bool.and_eq_true_iff.1 hdata).1
    have hgaps : ∀ d ∈ blanks, isGap d = true := by
      rw [← hblanks]
      exact List.all_eq_true.1 List.all_takeWhile
    have hline : '\n' ∉ (c :: p.tail) ++ blanks ++ items := by
      have hspan := (piece_laid hp).inLine (by rw [hkind]; decide)
      have hitem : '\n' ∉ items := hitems ▸ (itemList_spec false _).2
      simp only [List.mem_append, not_or]
      exact ⟨⟨hspan, fun h => absurd (hgaps _ h) (by decide)⟩, hitem⟩
    have hstart : pos + ((c :: p.tail) ++ blanks).length = pos + 1 + p.tail.length + blanks.length := by
      simp only [List.length_append, List.length_cons]
      omega
    have hnext : pos + ((c :: p.tail) ++ blanks ++ items).length =
        pos + 1 + p.tail.length + blanks.length + items.length := by
      rw [List.length_append, ← Nat.add_assoc, hstart]
    have htext : c :: (p.tail ++ (blanks ++ (items ++ rest))) = (c :: p.tail) ++ blanks ++ items ++ rest := by
      simp only [List.append_assoc, List.cons_append]
    rw [htext]
    refine .data (piece_over hp pos line) hdata hgaps ?_ rfl hline ?_
    · rw [hstart]
      exact ⟨rfl, rfl, rfl, rfl⟩
    · rw [hnext]
      exact ih hs

namespace Tiles

variable {pos line : Nat} {cs : List Char} {ts : List Token}

/-- Every token stands over a stretch of the text, on the line that the line breaks before it make. -/
theorem stretch (h : Tiles pos line cs ts) : ∀ t ∈ ts, ∃ before span after, cs = before ++ span ++ after ∧
    t.Over (pos + before.length) (line + before.count '\n') span := by
  -- a part of the text in front moves the stretch, and the line by its line breaks
  have hmove : ∀ (front : List Char) {pos line : Nat} {rest : List Char} {t : Token},
      (∃ before span after, rest = before ++ span ++ after ∧
        t.Over (pos + front.length + before.length) (line + front.count '\n' + before.count '\n') span) →
      ∃ before span after, front ++ rest = before ++ span ++ after ∧
        t.Over (pos + before.length) (line + before.count '\n') span := by
    rintro front pos line rest t ⟨before, span, after, rfl, hover⟩
    refine ⟨front ++ before, span, after, by simp only [List.append_assoc], ?_⟩
    rw [List.length_append, List.count_append, ← Nat.add_assoc, ← Nat.add_assoc]
    exact hover
  induction h with
  | done ht hend =>
    intro t hmem
    rw [List.mem_singleton.1 hmem]
    exact ⟨[], [], [], rfl, ht⟩
  | @gap pos line c cs ts hgap rest ih =>
    intro t hmem
    have hne : [c].count '\n' = 0 := by
      rw [List.count_eq_zero, List.mem_singleton]
      rintro rfl
      exact absurd hgap (by decide)
    exact hmove [c] (by rw [hne]; exact ih t hmem)
  | @token pos line span cs t ts ht hkind hword rest ih =>
    intro u hmem
    rcases List.mem_cons.1 hmem with rfl | hmem
    · exact ⟨[], span, cs, rfl, ht⟩
    · exact hmove span (ih u hmem)
  | @data pos line span blanks items cs t d ts ht hword hblanks hd hitems hline rest ih =>
    intro u hmem
    have hcount : ∀ front, front <:+: span ++ blanks ++ items → front.count '\n' = 0 := by
      intro front hfront
      exact List.count_eq_zero.2 fun h => hline (hfront.subset h)
    rcases List.mem_cons.1 hmem with rfl | hmem
    · exact ⟨[], span, blanks ++ items ++ cs, by simp only [List.append_assoc, List.nil_append], ht⟩
    rcases List.mem_cons.1 hmem with rfl | hmem
    · refine ⟨span ++ blanks, items, cs, rfl, ?_⟩
      rw [hcount _ (List.prefix_append _ _).isInfix]
      exact hd
    · refine hmove (span ++ blanks ++ items) ?_
      rw [hcount _ (List.infix_refl _)]
      exact ih u hmem

/-- A character that no token takes is a space or a tab. -/
theorem isGap_of_outside (h : Tiles pos line cs ts) {j : Nat} {c : Char} (hc : cs[j]? = some c)
    (hout : ∀ t ∈ ts, ¬ (t.pos ≤ (pos + j : Nat) ∧ ((pos + j : Nat) : Int) < t.stop)) : isGap c = true := by
  induction h generalizing j with
  | done ht hend => cases hc
  | @gap pos line d cs ts hgap rest ih =>
    cases j with
    | zero =>
      obtain rfl : d = c := by simpa using hc
      exact hgap
    | succ j =>
      refine ih (j := j) (by simpa using hc) fun t ht => ?_
      have := hout t ht
      rwa [← Nat.add_assoc, Nat.add_right_comm] at this
  | @token pos line span cs t ts ht hkind hword rest ih =>
    by_cases hj : j < span.length
    · refine absurd ⟨?_, ?_⟩ (hout t List.mem_cons_self)
      · rw [ht.pos]; omega
      · rw [ht.stop]; omega
    · have hpos : pos + span.length + (j - span.length) = pos + j := by omega
      rw [List.getElem?_append_right (by omega)] at hc
      refine ih hc fun u hu => ?_
      rw [hpos]
      exact hout u (List.mem_cons_of_mem t hu)
  | @data pos line span blanks items cs t d ts ht hword hblanks hd hitems hline rest ih =>
    -- in the word, in the blanks, in the items, or behind them
    by_cases hword : j < span.length
    · refine absurd ⟨?_, ?_⟩ (hout t List.mem_cons_self)
      · rw [ht.pos]; omega
      · rw [ht.stop]; omega
    by_cases hblank : j < (span ++ blanks).length
    · rw [List.append_assoc, List.getElem?_append_left hblank, List.getElem?_append_right (by omega)] at hc
      exact hblanks c (List.mem_of_getElem? hc)
    have hlen : (span ++ blanks ++ items).length = (span ++ blanks).length + items.length := List.length_append
    by_cases hitem : j < (span ++ blanks ++ items).length
    · refine absurd ⟨?_, ?_⟩ (hout d (by simp))
      · rw [hd.pos]; omega
      · rw [hd.stop]; omega
    · have hpos : pos + (span ++ blanks ++ items).length + (j - (span ++ blanks ++ items).length) = pos + j := by omega
      rw [List.getElem?_append_right (by omega)] at hc
      refine ih hc fun u hu => ?_
      rw [hpos]
      exact hout u (by simp [hu])

/-- The items of data are never the first token. -/
theorem head_ne_dataItems (h : Tiles pos line cs ts) : ∀ t ∈ ts.head?, t.kind ≠ .dataItems := by
  induction h with
  | done ht hend =>
    intro u hu heq
    obtain rfl := Option.some.inj hu
    rw [hend] at heq
    cases heq
  | gap hgap rest ih => exact ih
  | token ht hkind hword rest ih =>
    intro u hu heq
    obtain rfl := Option.some.inj hu
    exact hkind (by simp [heq])
  | data ht hword hblanks hd hitems hline rest ih =>
    intro u hu heq
    obtain rfl := Option.some.inj hu
    rw [isWord, heq] at hword
    cases hword

/-- **The items of data** are the token behind the keyword, and nothing else is. -/
theorem data_iff_items (h : Tiles pos line cs ts) (i : Nat) :
    (∃ t, ts[i]? = some t ∧ t.isWord "DATA" = true) ↔ ∃ d, ts[i + 1]? = some d ∧ d.kind = .dataItems := by
  -- what stands behind a token that is not the keyword is the first token of a tiled text
  have hfirst : ∀ {pos line : Nat} {cs : List Char} {ts : List Token} {t : Token}, Tiles pos line cs ts →
      t.isWord "DATA" = false →
      ((∃ u, (t :: ts)[0]? = some u ∧ u.isWord "DATA" = true) ↔ ∃ d, (t :: ts)[1]? = some d ∧ d.kind = .dataItems) := by
    intro pos line cs ts t hrest hword
    constructor
    · rintro ⟨u, hu, hdata⟩
      obtain rfl := Option.some.inj hu
      rw [hword] at hdata
      cases hdata
    · rintro ⟨d, hd, hitems⟩
      rw [List.getElem?_cons_succ, ← List.head?_eq_getElem?] at hd
      exact absurd hitems (hrest.head_ne_dataItems d hd)
  induction h generalizing i with
  | @done pos line t ht hend =>
    constructor
    · rintro ⟨u, hu, hdata⟩
      obtain rfl : t = u := (List.mem_singleton.1 (List.mem_of_getElem? hu)).symm
      rw [isWord, hend] at hdata
      cases hdata
    · rintro ⟨d, hd, -⟩
      cases hd
  | gap hgap rest ih => exact ih i
  | token ht hkind hword rest ih =>
    cases i with
    | zero => exact hfirst rest hword
    | succ i => exact ih i
  | @data pos line span blanks items cs t d ts ht hword hblanks hd hitems hline rest ih =>
    rcases i with _ | _ | i
    · exact ⟨fun _ => ⟨d, rfl, hitems⟩, fun _ => ⟨t, rfl, hword⟩⟩
    · exact hfirst rest (by rw [isWord, hitems]; rfl)
    · exact ih i

/-- The end of the text is the last token, and only that. -/
theorem last (h : Tiles pos line cs ts) : ∃ (init : List Token) (e : Token), ts = init ++ [e] ∧ e.kind = .eof ∧
    e.pos = (pos + cs.length : Nat) ∧ e.stop = (pos + cs.length : Nat) ∧ ∀ t ∈ init, t.kind ≠ .eof := by
  induction h with
  | @done pos line t ht hend => exact ⟨[], t, rfl, hend, ht.pos, by rw [ht.stop]; rfl, by simp⟩
  | @gap pos line c cs ts hgap rest ih =>
    obtain ⟨init, e, rfl, hend, hpos, hstop, hinit⟩ := ih
    have hlen : pos + 1 + cs.length = pos + (c :: cs).length := by rw [List.length_cons]; omega
    rw [hlen] at hpos hstop
    exact ⟨init, e, rfl, hend, hpos, hstop, hinit⟩
  | @token pos line span cs t ts ht hkind hword rest ih =>
    obtain ⟨init, e, rfl, hend, hpos, hstop, hinit⟩ := ih
    rw [Nat.add_assoc, ← List.length_append] at hpos hstop
    refine ⟨t :: init, e, rfl, hend, hpos, hstop, List.forall_mem_cons.2 ⟨fun heq => ?_, hinit⟩⟩
    exact hkind (by simp [heq])
  | @data pos line span blanks items cs t d ts ht hword hblanks hd hitems hline rest ih =>
    obtain ⟨init, e, rfl, hend, hpos, hstop, hinit⟩ := ih
    rw [Nat.add_assoc, ← List.length_append] at hpos hstop
    refine ⟨t :: d :: init, e, rfl, hend, hpos, hstop, List.forall_mem_cons.2 ⟨fun heq => ?_,
      List.forall_mem_cons.2 ⟨fun heq => ?_, hinit⟩⟩⟩
    · rw [isWord, heq] at hword
      cases hword
    · rw [hitems] at heq
      cases heq

end Tiles

/-! ## Source texts -/

/-- **Tokens that tile a text.** -/
structure Tiled (source : List Char) (ts : List Token) : Prop where
  /-- Each token stands over a stretch of the text, in normal form and with the number of its line. -/
  stretch : ∀ t ∈ ts, ∃ before span after, source = before ++ span ++ after ∧
    t.Over before.length (1 + before.count '\n') span
  /-- No token starts before the one in front of it ends. -/
  apart : ts.Pairwise fun a b => a.stop ≤ b.pos
  /-- Only spaces and tabs are in no token. -/
  gaps : ∀ (j : Nat) (c : Char), source[j]? = some c → (∀ t ∈ ts, ¬ (t.pos ≤ j ∧ (j : Int) < t.stop)) →
    c = ' ' ∨ c = '\t'
  /-- Each `DATA` has its items right behind it, and items stand nowhere else. -/
  items : ∀ i, (∃ t, ts[i]? = some t ∧ t.isWord "DATA" = true) ↔ ∃ d, ts[i + 1]? = some d ∧ d.kind = .dataItems
  head : ∀ t ∈ ts.head?, t.kind ≠ .dataItems
  /-- The end of the text is the last token, and no other one is. -/
  last : ∃ (init : List Token) (e : Token), ts = init ++ [e] ∧ e.kind = .eof ∧ e.pos = source.length ∧
    e.stop = source.length ∧ ∀ t ∈ init, t.kind ≠ .eof

/-- **The tokens of a source text tile it**, if it is scanned to its end. -/
theorem scan_tiled {source : List Char} (h : (scan source).error = none) :
    Tiled (Source.normalize source) (scan source).tokens := by
  have htiles : Tiles 0 1 (Source.normalize source) (scan source).tokens := (scanned _ 0 1).tiles h
  refine ⟨fun t ht => ?_, (scan_inOrder source).apart, fun j c hc hout => ?_, htiles.data_iff_items,
    htiles.head_ne_dataItems, ?_⟩
  · obtain ⟨before, span, after, htext, hover⟩ := htiles.stretch t ht
    rw [Nat.zero_add] at hover
    exact ⟨before, span, after, htext, hover⟩
  · have hgap := htiles.isGap_of_outside hc (by simpa only [Nat.zero_add] using hout)
    simpa [isGap] using hgap
  · simpa only [Nat.zero_add] using htiles.last

/-- Two lines with a comment, data and numbers in two bases. -/
theorem scan_tiled_two_lines :
    (scan "10 Data 1,\"a:b\" : rem  x \r\n20 Print &hFF;&x01".toList).error = none ∧
      Tiled (Source.normalize "10 Data 1,\"a:b\" : rem  x \r\n20 Print &hFF;&x01".toList)
        (scan "10 Data 1,\"a:b\" : rem  x \r\n20 Print &hFF;&x01".toList).tokens := by
  have h : (scan "10 Data 1,\"a:b\" : rem  x \r\n20 Print &hFF;&x01".toList).error = none := by decide +kernel
  exact ⟨h, scan_tiled h⟩

end Locomotive.Token
