import Locomotive.Proofs.Js.Variable
import Locomotive.Proofs.Program.Alike
import Locomotive.Proofs.Token.Join

/-!
# Lines with a number in front

A text is made of lines that each start with a number in ASCII digits. A scanner that knows the digits of all scripts,
fractions and exponents may take more than these digits for the number of a line; but what it takes then is no label,
so the line is rejected. Otherwise the label of a line is its number, and lines whose numbers ascend raise no
complaint about how their labels follow one another.

* `Text.NumberedLine`: a line with a number in front.
* `Token.numberedText`: the text of such lines.
* `Token.Numbered`: their tokens.
* `Token.FirstLine`: the tokens of the first line of a text.
* `Token.Scanned.numbered`: a text of such lines has such tokens.
* `Parse.lines_numbered`: what is read from them.
-/

namespace Locomotive

/-- The text holds no line ending. -/
def Text.OneLine (cs : List Char) : Prop := '\n' ∉ cs ∧ '\r' ∉ cs

instance (cs : List Char) : Decidable (Text.OneLine cs) := inferInstanceAs (Decidable (_ ∧ _))

/-- **A line with a number in front**, in ASCII digits. -/
structure Text.NumberedLine (n : Nat) (cs : List Char) : Prop where
  number : Text.integerOf? (cs.takeWhile Char.isDigit) = some (n : Int)
  oneLine : Text.OneLine cs

theorem Text.NumberedLine.first {n : Nat} {cs : List Char} (h : NumberedLine n cs) :
    ∃ c r, cs = c :: r ∧ c.isDigit = true := by
  have hnumber := h.number
  cases cs with
  | nil => cases hnumber
  | cons c r =>
    refine ⟨c, r, rfl, ?_⟩
    by_contra hc
    rw [List.takeWhile_cons_of_neg hc] at hnumber
    cases hnumber

/-- A text without carriage returns keeps its line endings. -/
theorem Source.unifyEndings_eq_self {cs : List Char} (h : '\r' ∉ cs) : unifyEndings cs = cs := by
  fun_induction unifyEndings cs with
  | case1 => rfl
  | case2 cs ih => exact absurd List.mem_cons_self h
  | case3 c cs _ ih =>
    obtain ⟨hc, hcs⟩ := not_or.1 (mt List.mem_cons.2 h)
    rw [if_neg (Ne.symm hc), ih hcs]

/-- A text that is normalized already. -/
theorem Source.normalize_eq_self {cs : List Char} (hreturn : '\r' ∉ cs) (hmark : cs.head? ≠ some byteOrderMark) :
    normalize cs = cs := by
  rw [normalize, dropMark_eq_self hmark, unifyEndings_eq_self hreturn]

namespace Token

/-! ## The number of a line -/

theorem isDigit_of_ascii {c : Char} (h : c.isDigit = true) : Text.isDigit c = true := by
  have hrange := Text.toNat_of_isDigit h
  unfold Text.isDigit
  rw [if_pos (by omega), h]

/-- **A number of ASCII digits alone** takes all of those that stand at the front of the text. -/
theorem numeral_eq_takeWhile {cs : List Char} (h : ∀ c ∈ numeral cs, c.isDigit = true) :
    numeral cs = cs.takeWhile Char.isDigit := by
  have hfront : numeral cs <+: cs.takeWhile Char.isDigit := by
    obtain ⟨rest, hrest⟩ := (numeral_spec cs).1
    have htake : cs.takeWhile Char.isDigit = numeral cs ++ rest.takeWhile Char.isDigit := by
      rw [← List.takeWhile_append_of_pos h, hrest]
    rw [htake]
    exact List.prefix_append _ _
  -- the digits of all scripts are part of the number, so those of ASCII are
  have hlength : (cs.takeWhile Char.isDigit).length ≤ (cs.takeWhile Text.isDigit).length := by
    have hascii : ∀ c ∈ cs.takeWhile Char.isDigit, Text.isDigit c = true := fun c hc =>
      isDigit_of_ascii (List.all_eq_true.1 List.all_takeWhile c hc)
    have htake : cs.takeWhile Text.isDigit =
        cs.takeWhile Char.isDigit ++ (cs.dropWhile Char.isDigit).takeWhile Text.isDigit := by
      rw [← List.takeWhile_append_of_pos hascii, List.takeWhile_append_dropWhile]
    rw [htake, List.length_append]
    omega
  have hwhole : (cs.takeWhile Text.isDigit).length ≤ (numeral cs).length := by
    unfold numeral
    simp only [List.length_append]
    omega
  exact hfront.eq_of_length_le (by omega)

/-- **The token numbers a line**: it is a number, and its value, if it has one, is `n`. -/
structure Numbers (n : Nat) (t : Token) : Prop where
  kind : t.kind = .number
  numeral : IsNumeral t.lexeme
  value : ∀ v, Text.integer? t.lexeme = some v → v = n

/-- The label of such a token. -/
theorem Numbers.label {n : Nat} {t : Token} (h : t.Numbers n) {l : String} (hl : Parse.label? t.lexeme = some l) :
    l = toString n ∧ Parse.labelValue l = n := by
  constructor
  · obtain ⟨v, hv, rfl⟩ := (Parse.label?_eq_some_iff h.numeral).1 hl
    have hn := h.value v hv
    rw [Int.natCast_inj.1 hn]
  · obtain ⟨v, hv, hlabel⟩ := Parse.integer?_label hl
    rw [Parse.labelValue, hlabel, Option.getD_some]
    exact h.value v hv

theorem takeWhile_isDigit_break (cs rest : List Char) :
    (cs ++ '\n' :: rest).takeWhile Char.isDigit = cs.takeWhile Char.isDigit := by
  have hbreak : ('\n' :: rest).takeWhile Char.isDigit = [] := List.takeWhile_cons_of_neg (by decide)
  rw [List.takeWhile_append, hbreak, List.append_nil]
  split
  · rename_i hall
    exact ((List.takeWhile_prefix _).eq_of_length hall).symm
  · rfl

/-- **The first token of a numbered line** numbers it. -/
theorem scanFrom_number {n : Nat} {cs : List Char} (h : Text.NumberedLine n cs) (rest : List Char) (pos line : Nat) :
    ∃ t ts, (scanFrom (cs ++ '\n' :: rest) pos line).tokens = t :: ts ∧ t.Numbers n := by
  obtain ⟨c, r, rfl, hc⟩ := h.first
  have hnumber := h.number
  rw [← takeWhile_isDigit_break (c :: r) rest] at hnumber
  rw [List.cons_append] at hnumber ⊢
  generalize r ++ '\n' :: rest = text at hnumber ⊢
  have hdigit : Text.isDigit c = true := isDigit_of_ascii hc
  have hgap : isGap c = false := by
    refine Bool.eq_false_iff.2 fun hgap => ?_
    rcases eq_of_isGap hgap with rfl | rfl <;> exact absurd hc (by decide)
  have hp : piece c text = .ok (number c text) := by
    unfold piece
    rw [Js.isAlpha_of_isDigit hc, hdigit]
    rfl
  obtain ⟨after, hafter⟩ := (piece_laid hp).front
  rw [scanFrom_token hgap hp hafter.symm rfl]
  have hnumeral : IsNumeral (String.ofList (numeral (c :: text))) := isNumeral_numeral (.inl hdigit) text
  refine ⟨_, _, rfl, rfl, hnumeral, fun v hv => ?_⟩
  -- a number with a value is made of ASCII digits, and then of those that number the line
  have hvalue : Text.integer? (String.ofList (numeral (c :: text))) = some v := hv
  obtain ⟨hdigits, -⟩ := Text.integer?_of_isNumeral hnumeral hvalue
  rw [String.toList_ofList] at hdigits
  rw [Text.integer?, String.toList_ofList, numeral_eq_takeWhile hdigits, hnumber] at hvalue
  exact (Option.some.inj hvalue).symm

/-! ## Lines -/

/-- **The first line of a text**, in tokens: those in the line, the last of it, and those behind it. -/
structure FirstLine (line : Nat) (rest : List Char) (ts body : List Token) (e : Token) (v : List Token) : Prop where
  tokens : ts = body ++ e :: v
  inLine : ∀ t ∈ body, ¬ t.EndsLine
  row : ∀ t ∈ body ++ [e], t.line = line
  ends : rest = [] ∧ e.kind = .eof ∧ v = [] ∨ ∃ more pos row s,
    rest = '\n' :: more ∧ e.kind = .eol ∧ v = s.tokens ∧ Scanned more pos row s ∧ s.error = none

/-- More tokens in front of the line. -/
theorem FirstLine.behind {line : Nat} {rest : List Char} {ts body v front : List Token} {e : Token}
    (h : FirstLine line rest ts body e v) (hfront : ∀ t ∈ front, ¬ t.EndsLine ∧ t.line = line) :
    FirstLine line rest (front ++ ts) (front ++ body) e v := by
  refine ⟨?_, List.forall_mem_append.2 ⟨fun t ht => (hfront t ht).1, h.inLine⟩, ?_, h.ends⟩
  · rw [h.tokens, List.append_assoc]
  · rw [List.append_assoc]
    exact List.forall_mem_append.2 ⟨fun t ht => (hfront t ht).2, h.row⟩

/-- What starts a line and has no line break in it is a part of the line. -/
theorem split_line {a after cs rest : List Char} (ha : '\n' ∉ a) (hrest : ∀ c ∈ rest.head?, c = '\n')
    (h : a ++ after = cs ++ rest) : ∃ cs', cs = a ++ cs' ∧ after = cs' ++ rest := by
  rcases List.append_eq_append_iff.1 h with hcs | ⟨b, rfl, rfl⟩
  · exact hcs
  · cases b with
    | nil => exact ⟨[], by simp, rfl⟩
    | cons d b => exact absurd (by simp [hrest d rfl]) ha

/-- **The tokens of a line** are those up to the one that ends it. -/
theorem Scanned.firstLine {text : List Char} {pos line : Nat} {s : Scan} (run : Scanned text pos line s)
    (hs : s.error = none) {cs rest : List Char} (hcs : '\n' ∉ cs) (hrest : ∀ c ∈ rest.head?, c = '\n')
    (htext : text = cs ++ rest) : ∃ body e v, FirstLine line rest s.tokens body e v := by
  induction run generalizing cs with
  | done =>
    obtain ⟨rfl, rfl⟩ := List.append_eq_nil_iff.1 htext.symm
    exact ⟨[], _, [], rfl, by simp, List.forall_mem_singleton.2 rfl, .inl ⟨rfl, rfl, rfl⟩⟩
  | @blank c r pos line s hgap run ih =>
    have hc : '\n' ∉ [c] := by simpa using (isGap_ne_break hgap).symm
    obtain ⟨cs', rfl, hr⟩ := split_line hc hrest htext
    exact ih hs (fun hmem => hcs (by simp [hmem])) hr
  | failed hgap he => cases hs
  | @token c after p pos line s hgap hp hdata run ih =>
    have hlaid := piece_laid hp
    by_cases heol : p.kind = .eol
    · -- the token is the line break itself, so nothing of the line is left
      obtain ⟨rfl, htail⟩ := hlaid.eol heol
      rw [htail, List.nil_append] at htext
      cases cs with
      | nil =>
        rw [if_pos heol] at run
        refine ⟨[], _, _, rfl, by simp, List.forall_mem_singleton.2 rfl, ?_⟩
        exact .inr ⟨_, _, _, _, htext.symm, heol, rfl, run, hs⟩
      | cons d cs => exact absurd ((List.cons.inj htext).1 ▸ List.mem_cons_self) hcs
    · obtain ⟨cs', rfl, hr⟩ := split_line (a := c :: p.tail) (hlaid.inLine heol) hrest htext
      rw [if_neg heol] at ih
      obtain ⟨body, e, v, hline⟩ := ih hs (fun hmem => hcs (List.mem_append_right _ hmem)) hr
      refine ⟨_, e, v, hline.behind (List.forall_mem_singleton.2 ⟨?_, rfl⟩)⟩
      exact not_or.2 ⟨heol, piece_kind_ne_eof hp⟩
  | @data c blanks items after p pos line s hgap hp hdata hblanks hitems run ih =>
    have hjoin : c :: p.tail ++ (blanks ++ items) ++ after = cs ++ rest := by
      rw [← htext]
      simp only [List.cons_append, List.append_assoc]
    obtain ⟨cs', rfl, hr⟩ := split_line (break_not_mem_data hp hdata hblanks hitems) hrest hjoin
    obtain ⟨body, e, v, hline⟩ := ih hs (fun hmem => hcs (List.mem_append_right _ hmem)) hr
    have hword : p.kind = .keyword := beq_iff_eq.1 (Bool.and_eq_true_iff.1 hdata).1
    refine ⟨_, e, v, hline.behind (List.forall_mem_cons.2 ⟨⟨?_, rfl⟩, List.forall_mem_singleton.2 ⟨?_, rfl⟩⟩)⟩
    · simp [EndsLine, Piece.token, hword]
    · simp [EndsLine]

/-- **The tokens of numbered lines**: each line starts with the token that numbers it and ends with one that ends no
other, and the last line is followed by the end of the text. -/
inductive Numbered : List Nat → List Token → Prop
  | done {e : Token} (he : e.kind = .eof) : Numbered [] [e]
  | line {n : Nat} {ns : List Nat} {t e : Token} {body ts : List Token} (ht : t.Numbers n)
      (hbody : ∀ u ∈ body, ¬ u.EndsLine) (he : e.kind = .eol) (rest : Numbered ns ts) :
      Numbered (n :: ns) (t :: (body ++ e :: ts))

/-- The text of numbered lines. -/
def numberedText (ls : List (Nat × List Char)) : List Char := ls.flatMap fun l => l.2 ++ ['\n']

theorem numberedText_cons (l : Nat × List Char) (ls : List (Nat × List Char)) :
    numberedText (l :: ls) = l.2 ++ '\n' :: numberedText ls := by
  rw [numberedText, List.flatMap_cons, List.append_assoc, List.singleton_append]
  rfl

/-- It is in normal form. -/
theorem normalize_numberedText {ls : List (Nat × List Char)} (hls : ∀ l ∈ ls, Text.NumberedLine l.1 l.2) :
    Source.normalize (numberedText ls) = numberedText ls := by
  -- no line holds a carriage return, and the first one starts with a digit
  refine Source.normalize_eq_self (fun hmem => ?_) ?_
  · obtain ⟨l, hl, hmem⟩ := List.mem_flatMap.1 hmem
    rcases List.mem_append.1 hmem with hmem | hmem
    · exact (hls l hl).oneLine.2 hmem
    · exact absurd hmem (by decide)
  · cases ls with
    | nil => decide
    | cons l ls =>
      obtain ⟨c, r, hcs, hc⟩ := (hls l List.mem_cons_self).first
      rw [numberedText_cons, hcs]
      rintro hhead
      rw [Option.some.inj hhead] at hc
      exact absurd hc (by decide)

/-- **A text of numbered lines** has the tokens of numbered lines. -/
theorem Scanned.numbered {ls : List (Nat × List Char)} (hls : ∀ l ∈ ls, Text.NumberedLine l.1 l.2) {pos line : Nat}
    {s : Scan} (run : Scanned (numberedText ls) pos line s) (hs : s.error = none) :
    Numbered (ls.map Prod.fst) s.tokens := by
  induction ls generalizing pos line s with
  | nil =>
    cases run
    exact .done rfl
  | cons l ls ih =>
    obtain ⟨hl, hls⟩ := List.forall_mem_cons.1 hls
    rw [numberedText_cons] at run
    obtain ⟨t, ts, hfirst, ht⟩ := scanFrom_number hl (numberedText ls) pos line
    rw [← run.eq] at hfirst
    have hbreak : ∀ c ∈ ('\n' :: numberedText ls).head?, c = '\n' := fun c hc => (Option.some.inj hc).symm
    obtain ⟨body, e, v, hline⟩ := run.firstLine hs hl.oneLine.1 hbreak rfl
    obtain ⟨hnil, -⟩ | ⟨more, pos', line', s', hmore, he, rfl, hrun, hs'⟩ := hline.ends
    · cases hnil
    obtain rfl : numberedText ls = more := (List.cons.inj hmore).2
    have hrest := ih hls hrun hs'
    have hbody := hline.inLine
    rw [hline.tokens] at hfirst ⊢
    cases body with
    | nil =>
      -- the number is no line break
      have hkind := ht.kind
      rw [List.nil_append, List.cons.injEq] at hfirst
      rw [← hfirst.1, he] at hkind
      cases hkind
    | cons u body =>
      rw [List.cons_append, List.cons.injEq] at hfirst
      exact .line (hfirst.1 ▸ ht) (List.forall_mem_cons.1 hbody).2 he hrest

end Token

/-! ## Reading -/

namespace Parse

open Token (Numbers Numbered)

/-- Tokens up to the end of a line, with anything behind it. -/
theorem sameLine_self {ρ : Token → Token → Prop} {v v' body : List Token} {e : Token}
    (hρ : ∀ t ∈ body ++ [e], ρ t t) (hbody : ∀ t ∈ body, ¬ t.EndsLine)
    (he : e.kind = .eol ∨ e.kind = .eof ∧ v = [] ∧ v' = []) :
    SameLine ρ v v' (body ++ e :: v) (body ++ e :: v') := by
  induction body with
  | nil => exact .stop (hρ e (by simp)) he
  | cons t body ih =>
    rw [List.cons_append, List.forall_mem_cons] at hρ
    rw [List.forall_mem_cons] at hbody
    exact .cons hρ.1 hbody.1 (ih hρ.2 hbody.2)

/-- **The statements of a line** are read up to its end and no further. -/
theorem statements_tail {s : Setting} {body w rest : List Token} {e : Token} {ss : List Stmt}
    (hbody : ∀ t ∈ body, ¬ t.EndsLine) (he : e.kind = .eol)
    (h : (statements s false (body ++ e :: w)).read = .ok (ss, rest)) : rest.tail = w := by
  have hline := statements_keepLine s false (body ++ e :: w)
  rw [h] at hline
  rw [hline.eq_dropWhile (reads_of_run (.stmts false) _ h).endsLine, List.dropWhile_append_of_pos (by simpa using hbody),
    List.dropWhile_cons_of_neg (by simp [Token.EndsLine, he]), List.tail_cons]

/-- The label of a numbered line, which has not been used before. -/
theorem lineLabel_numbers {n : Nat} {t : Token} (ht : t.Numbers n) {seen : List Line}
    (hseen : toString n ∉ labelsOf seen) (ts : List Token) :
    match lineLabel seen t ts with
    | .error f => f.Inside
    | .ok label => label = some (toString n) ∧ label.map labelValue = some (n : Int) := by
  cases hlabel : lineLabel seen t ts with
  | ok label =>
    rcases lineLabel_eq_ok_iff.1 hlabel with ⟨hkind, -⟩ | ⟨-, l, hl, rfl, -⟩
    · exact absurd ht.kind hkind
    · obtain ⟨rfl, hvalue⟩ := ht.label hl
      exact ⟨rfl, congrArg some hvalue⟩
  | error f =>
    unfold lineLabel at hlabel
    rw [if_pos ht.kind] at hlabel
    split at hlabel
    · cases hlabel
      exact id
    · rename_i l hl
      obtain ⟨rfl, -⟩ := ht.label hl
      split at hlabel
      · rename_i line hfind
        have hmem := List.mem_of_find?_eq_some hfind
        have hsame : line.label = some (toString n) := by simpa using List.find?_some hfind
        exact absurd (mem_labelsOf.2 ⟨line, hmem, hsame⟩) hseen
      · cases hlabel

/-- **What numbered lines come to**: lines with these labels, or a failure that is not about how they follow one
another. -/
def Labelled (ns : List Nat) (o : Except Failure (List Line)) : Prop :=
  match o with
  | .error f => f.Inside
  | .ok ls => ls.map Line.label = ns.map fun n => some (toString n)

theorem Labelled.cons {n : Nat} {ns : List Nat} {o : Except Failure (List Line)} (h : Labelled ns o) {line : Line}
    (hline : line.label = some (toString n)) : Labelled (n :: ns) (o.map (line :: ·)) := by
  cases o with
  | error f => exact h
  | ok ls =>
    show (line :: ls).map Line.label = _
    rw [List.map_cons, List.map_cons, hline, h]

/-- **Numbered lines are read under their numbers**, if these ascend. -/
theorem lines_numbered (s : Setting) {ns : List Nat} {ts : List Token} (h : Numbered ns ts)
    (hascend : ns.Pairwise (· < ·)) (seen : List Line) (last : Int) (hlast : ∀ n ∈ ns, last < n)
    (hseen : ∀ n ∈ ns, toString n ∉ labelsOf seen) : Labelled ns (lines s seen last ts) := by
  induction h generalizing seen last with
  | done he =>
    rw [lines_eof s seen last he]
    rfl
  | @line n ns t e body ts ht hbody he rest ih =>
    obtain ⟨hfirst, hascend⟩ := List.pairwise_cons.1 hascend
    obtain ⟨hlast, -⟩ := List.forall_mem_cons.1 hlast
    obtain ⟨hnew, hseen⟩ := List.forall_mem_cons.1 hseen
    have hnot : ¬ t.EndsLine := by
      unfold Token.EndsLine
      rw [ht.kind]
      decide
    have hlabel := lineLabel_numbers ht hnew (body ++ e :: ts)
    rw [lines_line s seen last hnot, line]
    cases hread : lineLabel seen t (body ++ e :: ts) with
    | error f =>
      rw [hread] at hlabel
      exact hlabel
    | ok label =>
      rw [hread] at hlabel
      obtain ⟨rfl, hvalue⟩ := hlabel
      have hafter : afterLabel (some (toString n)) t (body ++ e :: ts) = body ++ e :: ts := rfl
      have hkeeps := statements_keepLine s false (body ++ e :: ts)
      dsimp only
      rw [hafter]
      rcases hstmts : (statements s false (body ++ e :: ts)).read with f | ⟨ss, left⟩
      · rw [hstmts] at hkeeps
        exact hkeeps.1
      · -- the next line starts where this one ends, with a greater number
        have hcomplaint : strictComplaint? last ⟨t.line, some (toString n), ss⟩ = none := by
          have hn : labelValue (toString n) = n := Option.some.inj hvalue
          unfold strictComplaint?
          dsimp only
          rw [hn, if_neg (by omega)]
        simp only [Reply.andThen_ok]
        rw [hcomplaint, ite_self, hvalue, Option.getD_some, statements_tail hbody he hstmts]
        refine Labelled.cons (ih hascend _ n (fun m hm => by have := hfirst m hm; omega) fun m hm => ?_) rfl
        rw [labelsOf_snoc, List.mem_append, not_or]
        refine ⟨hseen m hm, fun hmem => ?_⟩
        have hsame : toString m = toString n := by simpa using hmem
        have := toString_inj.1 hsame
        have := hfirst m hm
        omega

end Parse

end Locomotive
