import Locomotive.Expr.Parse
import Locomotive.Proofs.Program.Numbered
import Locomotive.Stmt.Data
import Mathlib.Data.List.TakeWhile

/-!
# Numbers in data and in expressions

The items of a `DATA` statement are told apart without the scanner, by rules of their own. For ASCII text both agree on
what a number is: an item is a number exactly if its text without a minus sign, as a whole, is scanned as one.

* `Token.Whole`: the text is a number as a whole.
* `Token.whole_iff`: scanning such a text gives a single token.
* `DataItem.number?_eq_some_iff`: the numbers among items are these texts, with or without a sign.
* `DataItem.classify_agrees_with_scan`: both together.
-/

namespace Locomotive

open Parse (radix?)

/-- Only ASCII characters. -/
def Text.IsAscii (cs : List Char) : Prop := ∀ c ∈ cs, c.toNat < 0x80

namespace Token

/-! ## Numbers at the front of a text -/

/-- No sign is a number. -/
theorem radix?_of_sign {e : Kind × List Char} (h : e ∈ signs) : radix? e.1 = none := by
  have hsigns : ∀ e ∈ signs, radix? e.1 = none := by decide
  exact hsigns e h

/-- **The two ways a number starts**: with a digit or a point before one, or with an ampersand. -/
theorem piece_number {c : Char} {r : List Char} {p : Piece} {radix : Radix} (hp : piece c r = .ok p)
    (hk : radix? p.kind = some radix) :
    (Text.isDigit c || (c == '.' && r.head?.any Text.isDigit)) = true ∧ p = number c r ∨
      c = '&' := by
  cases piece_read hp with
  | number hfront hc hnumeral => exact .inl ⟨hc, by simp only [number, hnumeral, List.tail_cons]⟩
  | hex hfront hc => exact .inr hc
  | binary hfront hc => exact .inr hc
  | sign hfront hsign =>
    rw [show radix? _ = none from radix?_of_sign hsign] at hk
    cases hk
  | _ => cases hk

/-- **The text is a number as a whole**, and `lexeme` is the text of its token. -/
def Whole (radix : Radix) (lexeme : String) (cs : List Char) : Prop :=
  ∃ c p, cs = c :: p.tail ∧ piece c p.tail = .ok p ∧ radix? p.kind = some radix ∧ p.lexeme = lexeme

/-! ## The number as a token -/

/-- **A single token** over the whole text, before the one that ends it. -/
structure Single (cs : List Char) (t : Token) : Prop where
  error : (scan cs).error = none
  tokens : ∃ e, (scan cs).tokens = [t, e] ∧ e.kind = .eof
  pos : t.pos = 0
  stop : t.stop = cs.length

/-- The kinds of numbers. -/
theorem number_of_radix? {kind : Kind} {radix : Radix} (h : radix? kind = some radix) :
    kind = .number ∨ kind = .hexNumber ∨ kind = .binNumber := by
  cases kind <;> first | (cases h; done) | simp

theorem normalize_of_ascii {cs : List Char} (h : Text.IsAscii cs) : Source.normalize cs = Source.unifyEndings cs := by
  unfold Source.normalize Source.dropMark
  split
  · rfl
  · rename_i c r
    rw [if_neg]
    rintro rfl
    exact absurd (h _ List.mem_cons_self) (by decide)

/-- Line endings get shorter, and each of them still is one. -/
theorem unifyEndings_spec (cs : List Char) : (Source.unifyEndings cs).length ≤ cs.length ∧
    ('\n' ∉ Source.unifyEndings cs → '\r' ∉ cs) := by
  fun_induction Source.unifyEndings cs with
  | case1 => simp
  | case2 cs ih => exact ⟨by simp only [List.length_cons]; omega, fun h => absurd List.mem_cons_self h⟩
  | case3 c cs _ ih =>
    refine ⟨by simp only [List.length_cons]; omega, fun h => ?_⟩
    rw [List.mem_cons, not_or] at h ⊢
    refine ⟨?_, ih.2 h.2⟩
    rintro rfl
    exact h.1 rfl

theorem isGap_of_piece {c : Char} {r : List Char} {p : Piece} (hp : piece c r = .ok p) : isGap c = false := by
  by_contra hgap
  rcases eq_of_isGap (Bool.not_eq_false _ ▸ hgap) with rfl | rfl <;> cases hp

/-- **Scanning gives a number as a single token** exactly if the whole text is one. -/
theorem whole_iff {cs : List Char} (hascii : Text.IsAscii cs) {radix : Radix} {lexeme : String} :
    Whole radix lexeme cs ↔ ∃ t : Token, Single cs t ∧ radix? t.kind = some radix ∧ t.lexeme = lexeme := by
  constructor
  · rintro ⟨c, p, rfl, hp, hk, hl⟩
    have hplain := ((piece_laid hp).number (number_of_radix? hk)).2
    have hreturn : '\r' ∉ c :: p.tail := fun hmem => absurd (hplain _ hmem) (by decide)
    have hdata : p.isData = false := by
      unfold Piece.isData
      cases hkind : p.kind <;> rw [hkind] at hk <;> first | rfl | cases hk
    have hscan : scan (c :: p.tail) = (scanFrom [] (0 + 1 + p.tail.length) (if p.kind = .eol then 1 + 1 else 1)).behind
        [p.token 0 1] (p.warnings.map fun w => (1, w)) := by
      unfold scan
      rw [normalize_of_ascii hascii, Source.unifyEndings_eq_self hreturn]
      exact scanFrom_token (isGap_of_piece hp) hp (List.append_nil _).symm hdata
    rw [scanFrom] at hscan
    refine ⟨p.token 0 1, ⟨by rw [hscan]; rfl, ⟨_, by rw [hscan]; rfl, rfl⟩, rfl, ?_⟩, hk, hl⟩
    simp only [Piece.token, List.length_cons]
    omega
  · rintro ⟨t, ⟨herror, ⟨e, htokens, -⟩, hpos, hstop⟩, hk, rfl⟩
    unfold scan at herror htokens
    rw [normalize_of_ascii hascii] at herror htokens
    obtain ⟨hlength, hbreak⟩ := unifyEndings_spec cs
    have hself : '\r' ∉ cs → Source.unifyEndings cs = cs := Source.unifyEndings_eq_self
    generalize Source.unifyEndings cs = ds at *
    cases front ds with
    | nil =>
      rw [scanFrom] at htokens
      cases htokens
    | blank hgap =>
      -- the token would start behind the blank
      rw [scanFrom_blank hgap] at htokens
      have := (scanned _ (0 + 1) 1).inOrder.after t (by rw [htokens]; simp)
      omega
    | failed hgap he =>
      rw [scanFrom_failed hgap he] at herror
      cases herror
    | @data c blanks items rest p hgap hp hdata hblanks hitems =>
      rw [scanFrom_data hgap hp rfl hdata hblanks hitems] at htokens
      obtain ⟨rfl, -⟩ := List.cons.inj htokens
      have hkind : p.kind = .keyword := beq_iff_eq.1 (Bool.and_eq_true_iff.1 hdata).1
      rw [show (p.token 0 1).kind = _ from hkind] at hk
      cases hk
    | @token c rest p hgap hp hdata =>
      rw [scanFrom_token hgap hp rfl hdata] at htokens
      obtain ⟨rfl, -⟩ := List.cons.inj htokens
      have hrest : rest = [] := by
        rw [← List.length_eq_zero_iff]
        simp only [Piece.token] at hstop
        simp only [List.length_cons, List.length_append] at hlength
        omega
      subst hrest
      rw [List.append_nil] at hp hself hbreak
      have hline : '\n' ∉ c :: p.tail := by
        refine (piece_laid hp).inLine fun heol => ?_
        rw [show (p.token 0 1).kind = _ from heol] at hk
        cases hk
      exact ⟨c, p, (hself (hbreak hline)).symm, hp, hk, rfl⟩

/-! ## Decimal numbers -/

theorem takeWhile_isDigit {cs : List Char} (h : Text.IsAscii cs) :
    cs.takeWhile Text.isDigit = cs.takeWhile Char.isDigit := by
  induction cs with
  | nil => rfl
  | cons c cs ih =>
    obtain ⟨hc, hcs⟩ := List.forall_mem_cons.1 h
    have hdigit : Text.isDigit c = c.isDigit := if_pos hc
    rw [List.takeWhile_cons, List.takeWhile_cons, hdigit, ih hcs]

/-- **A decimal number** by the rules of the scanner. -/
theorem whole_decimal_iff {c : Char} {r : List Char} {radix : Radix} {lexeme : String} (hc : c ≠ '&') :
    Whole radix lexeme (c :: r) ↔ radix = .decimal ∧ lexeme = String.ofList (c :: r) ∧
      (Text.isDigit c || (c == '.' && r.head?.any Text.isDigit)) = true ∧ numeral (c :: r) = c :: r := by
  constructor
  · rintro ⟨c', p, hcs, hp, hk, rfl⟩
    obtain ⟨rfl, rfl⟩ := List.cons.inj hcs
    rcases piece_number hp hk with ⟨hstart, hp⟩ | rfl
    · have hnumeral : Text.isDigit c = true ∨ c = '.' := by
        rw [Bool.or_eq_true, Bool.and_eq_true, beq_iff_eq] at hstart
        exact hstart.imp_right And.left
      have htail : numeral (c :: p.tail) = c :: p.tail := by rw [numeral_cons hnumeral, ← hp]
      have hlexeme : p.lexeme = String.ofList (numeral (c :: p.tail)) := congrArg Piece.lexeme hp
      have hkind : p.kind = .number := congrArg Piece.kind hp
      rw [hkind] at hk
      exact ⟨(Option.some.inj hk).symm, by rw [hlexeme, htail], hstart, htail⟩
    · exact absurd rfl hc
  · rintro ⟨rfl, rfl, hstart, htail⟩
    refine ⟨c, ⟨.number, String.ofList (c :: r), r, []⟩, rfl, ?_, rfl, rfl⟩
    have hnumeral : Text.isDigit c = true ∨ c = '.' := by
      rw [Bool.or_eq_true, Bool.and_eq_true, beq_iff_eq] at hstart
      exact hstart.imp_right And.left
    unfold piece
    rw [Js.isAlpha_of_numeral hnumeral, if_neg Bool.false_ne_true, if_pos hstart]
    unfold number
    rw [htail]
    rfl

end Token

namespace DataItem

open Token (numeral exponent fraction Whole)

theorem isExponent_digits {d : Char} (hd : d.isDigit = true) (r : List Char) :
    isExponent (d :: r) = (d :: r).all Char.isDigit := by
  refine if_neg fun hsign => ?_
  simp only [Bool.or_eq_true, beq_iff_eq] at hsign
  rcases hsign with rfl | rfl <;> cases hd

/-- An exponent by both rules. -/
theorem exponent_eq_self_iff {e : Char} {ds : List Char} (h : Text.IsAscii ds) :
    exponent (e :: ds) = e :: ds ↔ ((e == 'e' || e == 'E') && isExponent ds) = true := by
  have hdigit : ∀ c ∈ ds, Text.isDigit c = c.isDigit := fun c hc => if_pos (h c hc)
  have hmark : ∀ m : Char, m = 'e' ∨ m = 'E' ↔ (m == 'e' || m == 'E') = true := by simp
  have hall : ∀ rs ⊆ ds, (rs.takeWhile Text.isDigit = rs ↔ rs.all Char.isDigit = true) := by
    intro rs hrs
    rw [Token.takeWhile_isDigit fun c hc => h c (hrs hc), List.takeWhile_eq_self_iff, List.all_eq_true]
  by_cases hexp : Token.HasExponent (e :: ds)
  · rcases hexp with ⟨e, d, r, hcs, he, hd⟩ | ⟨e, s, d, r, hcs, he, hs, hd⟩
    · obtain ⟨rfl, rfl⟩ := List.cons.inj hcs
      rw [Token.exponent_digits he hd, (hmark _).1 he, Bool.true_and,
        isExponent_digits (by rw [← hdigit d (by simp)]; exact hd), List.cons_inj_right]
      exact hall _ (List.Subset.refl _)
    · obtain ⟨rfl, rfl⟩ := List.cons.inj hcs
      have hsign : (s == '+' || s == '-') = true := by simpa using hs
      rw [Token.exponent_signed he hs hd, (hmark _).1 he, Bool.true_and, List.cons_inj_right, List.cons_inj_right,
        isExponent, if_pos hsign]
      exact hall _ (List.subset_cons_self _ _)
  · -- no digit follows, which completes no exponent either
    rw [Token.exponent_eq_nil hexp]
    refine iff_of_false (by simp) fun hcomplete => hexp ?_
    rw [Bool.and_eq_true, ← hmark] at hcomplete
    obtain ⟨he, hcomplete⟩ := hcomplete
    rcases ds with _ | ⟨s, rs⟩
    · cases hcomplete
    by_cases hsign : (s == '+' || s == '-') = true
    · rw [isExponent, if_pos hsign] at hcomplete
      rcases rs with _ | ⟨d, r⟩
      · cases hcomplete
      · have hd : d.isDigit = true := List.all_eq_true.1 (Bool.and_eq_true_iff.1 hcomplete).2 d (by simp)
        exact .inr ⟨e, s, d, r, rfl, he, by simpa using hsign, by rw [hdigit d (by simp)]; exact hd⟩
    · rw [isExponent, if_neg hsign] at hcomplete
      have hs : s.isDigit = true := List.all_eq_true.1 hcomplete s (by simp)
      exact .inl ⟨e, s, rs, rfl, he, by rw [hdigit s (by simp)]; exact hs⟩

/-- What follows the digits in front. -/
theorem isDecimal_append {whole after : List Char} (hw : ∀ c ∈ whole, c.isDigit = true)
    (ha : after.head?.any Char.isDigit = false) (hascii : Text.IsAscii after) :
    isDecimal (whole ++ after) = true ↔ (whole ≠ [] ∨ 1 < (fraction after).length) ∧
      exponent (after.drop (fraction after).length) = after.drop (fraction after).length := by
  unfold isDecimal
  rw [Token.takeWhile_append_stop hw ha]
  simp only [List.drop_left]
  by_cases hpoint : after.head? = some '.'
  · obtain ⟨ds, rfl⟩ : ∃ ds, after = '.' :: ds := by
      cases after with
      | nil => cases hpoint
      | cons d ds => exact ⟨ds, by rw [Option.some.inj hpoint]⟩
    have hds : fraction ('.' :: ds) = '.' :: ds.takeWhile Char.isDigit := by
      rw [fraction, Token.takeWhile_isDigit fun c hc => hascii c (List.mem_cons_of_mem _ hc)]
    have hsub : ds.drop (ds.takeWhile Char.isDigit).length ⊆ '.' :: ds := fun c hc =>
      List.mem_cons_of_mem _ ((List.drop_suffix _ _).mem hc)
    simp only [hds, List.length_cons, List.drop_succ_cons]
    generalize ds.drop (ds.takeWhile Char.isDigit).length = rest at hsub ⊢
    generalize ds.takeWhile Char.isDigit = part
    rcases rest with _ | ⟨e, es⟩
    · cases whole <;> cases part <;> simp [exponent]
    · rw [exponent_eq_self_iff fun c hc => hascii c (hsub (List.mem_cons_of_mem e hc))]
      cases whole <;> cases part <;> simp
  · simp only [Token.fraction_eq_nil hpoint, List.length_nil, List.drop_zero]
    rcases after with _ | ⟨e, es⟩
    · cases whole <;> simp [exponent]
    · rw [exponent_eq_self_iff fun c hc => hascii c (List.mem_cons_of_mem e hc)]
      have he : e ≠ '.' := fun he => hpoint (congrArg some he)
      cases whole <;> simp [he]

/-- **A decimal number** by the rules of data and by those of the scanner. -/
theorem isDecimal_iff {c : Char} {r : List Char} (hascii : Text.IsAscii (c :: r)) : isDecimal (c :: r) = true ↔
    (Text.isDigit c || (c == '.' && r.head?.any Text.isDigit)) = true ∧ numeral (c :: r) = c :: r := by
  obtain ⟨whole, after, hcs, hwhole, hstop⟩ := Token.exists_takeWhile Char.isDigit (c :: r)
  have htake : (whole ++ after).takeWhile Text.isDigit = whole := by
    rw [← hcs, Token.takeWhile_isDigit hascii, hcs, Token.takeWhile_append_stop hwhole hstop]
  have hafter : Text.IsAscii after := fun d hd => hascii d (by rw [hcs]; exact List.mem_append_right _ hd)
  have hparts : after = fraction after ++ after.drop (fraction after).length :=
    Token.eq_append_drop (Token.fraction_spec after).1
  have hnumeral : numeral (c :: r) = c :: r ↔
      exponent (after.drop (fraction after).length) = after.drop (fraction after).length := by
    rw [hcs]
    unfold numeral
    simp only [htake, List.drop_left]
    rw [← List.drop_drop, List.drop_left, List.append_assoc, List.append_right_inj]
    exact ⟨fun h => List.append_cancel_left (h.trans hparts), fun h => by rw [h]; exact hparts.symm⟩
  have hstart : (Text.isDigit c || (c == '.' && r.head?.any Text.isDigit)) = true ↔
      (whole ≠ [] ∨ 1 < (fraction after).length) := by
    have hc : Text.isDigit c = c.isDigit := if_pos (hascii c List.mem_cons_self)
    rcases whole with _ | ⟨d, ds⟩
    · obtain rfl : after = c :: r := hcs.symm
      rw [hc, show c.isDigit = false from hstop]
      by_cases hpoint : c = '.'
      · subst hpoint
        rcases r with _ | ⟨d, r⟩
        · simp [fraction]
        · cases hd : Text.isDigit d <;> simp [fraction, hd]
      · have hnone : fraction (c :: r) = [] := Token.fraction_eq_nil (by simpa using hpoint)
        simp [hpoint, hnone]
    · obtain rfl : c = d := (List.cons.inj hcs).1
      simp [hc, hwhole c List.mem_cons_self]
  rw [hnumeral, hstart, hcs]
  exact isDecimal_append hwhole hstop hafter

/-! ## Numbers with a base -/

/-- Digits of a base, which both rules take if they are the whole text. -/
theorem based?_iff_of {kind : Token.Kind} {cs lead ds digits : List Char} {q : Char → Bool} {radix radix' : Radix}
    (hp : Token.ampersand cs = Token.based kind lead (ds.takeWhile q)) (hcs : cs = lead ++ ds)
    (hk : Parse.radix? kind = some radix')
    (hyes : ds ≠ [] ∧ (∀ d ∈ ds, q d = true) → based? cs = some (radix', ds.map Char.toLower))
    (hno : ¬ (ds ≠ [] ∧ ∀ d ∈ ds, q d = true) → based? cs = none) :
    based? cs = some (radix, digits) ↔ Whole radix (String.ofList digits) ('&' :: cs) := by
  by_cases hall : ds ≠ [] ∧ ∀ d ∈ ds, q d = true
  · rw [hyes hall]
    rw [List.takeWhile_eq_self_iff.2 hall.2] at hp
    have hpiece : Token.piece '&' cs = .ok ⟨kind, String.ofList (ds.map Char.toLower), cs, []⟩ := by
      show Token.ampersand cs = _
      rw [hp, hcs]
      exact if_neg (by simpa using hall.1)
    constructor
    · rintro ⟨⟩
      exact ⟨'&', ⟨kind, String.ofList (ds.map Char.toLower), cs, []⟩, rfl, hpiece, hk, rfl⟩
    · rintro ⟨c, p, htext, hp', hk', hl⟩
      obtain ⟨rfl, htail⟩ := List.cons.inj htext
      rw [← htail] at hp'
      obtain rfl := Except.ok.inj (hpiece.symm.trans hp')
      rw [String.ofList_injective hl, Option.some.inj (hk.symm.trans hk')]
  · rw [hno hall]
    refine iff_of_false (by simp) ?_
    rintro ⟨c, p, htext, hpiece, -, -⟩
    obtain ⟨rfl, htail⟩ := List.cons.inj htext
    have hbased : Token.ampersand p.tail = .ok p := hpiece
    rw [← htail, hp] at hbased
    obtain ⟨hne, rfl⟩ := Token.based_eq_ok hbased
    have htake : ds.takeWhile q = ds := List.append_cancel_left (htail.symm.trans hcs)
    rw [htake] at hne
    exact hall ⟨hne, List.takeWhile_eq_self_iff.1 htake⟩

theorem isHexText_iff {cs : List Char} : Token.isHexText cs = true ↔ cs ≠ [] ∧ ∀ c ∈ cs, Token.isHexDigit c = true := by
  simp [Token.isHexText]

/-- A letter of a base is no digit. -/
theorem isHexText_mark {x : Char} (hx : Token.isBinMark x = true ∨ Token.isHexMark x = true) (ds : List Char) :
    Token.isHexText (x :: ds) = false := by
  rw [← Bool.not_eq_true, isHexText_iff]
  rintro ⟨-, hall⟩
  obtain ⟨hbin, hhex⟩ := Token.isMark_of_isHexDigit (hall x List.mem_cons_self)
  rw [hbin, hhex] at hx
  simp at hx

/-- **The three forms of a number with a base** in data. -/
theorem based?_cons (x : Char) (ds : List Char) : based? (x :: ds) =
    if Token.isBinMark x && !ds.isEmpty && ds.all Token.isBinDigit then some (.binary, ds)
    else if Token.isHexMark x && Token.isHexText ds then some (.hex, ds.map Char.toLower)
    else if Token.isHexText (x :: ds) then some (.hex, (x :: ds).map Char.toLower)
    else none := rfl

/-- **A number with a base** by both rules. -/
theorem based?_eq_some_iff {cs digits : List Char} {radix : Radix} :
    based? cs = some (radix, digits) ↔ Whole radix (String.ofList digits) ('&' :: cs) := by
  rcases cs with _ | ⟨x, ds⟩
  · refine iff_of_false (by simp [based?]) ?_
    rintro ⟨c, p, htext, hpiece, -⟩
    obtain ⟨rfl, htail⟩ := List.cons.inj htext
    rw [← htail] at hpiece
    cases hpiece
  have hamp := Token.ampersand_cons x ds
  by_cases hbin : Token.isBinMark x = true
  · rw [if_pos hbin] at hamp
    have hhex : Token.isHexMark x = false := by
      simp only [Token.isBinMark, Bool.or_eq_true, beq_iff_eq] at hbin
      rcases hbin with rfl | rfl <;> rfl
    refine based?_iff_of hamp rfl rfl ?_ ?_
    · rintro ⟨hne, hall⟩
      have hbits : ds.map Char.toLower = ds := by
        refine (List.map_congr_left fun d hd => ?_).trans (List.map_id _)
        have hbit := hall d hd
        simp only [Token.isBinDigit, Bool.or_eq_true, beq_iff_eq] at hbit
        rcases hbit with rfl | rfl <;> rfl
      rw [based?_cons, if_pos (by simpa [hbin, hne] using hall), hbits]
    · intro hno
      rw [based?_cons, if_neg (by simpa [hbin] using hno), hhex, isHexText_mark (.inl hbin)]
      rfl
  rw [if_neg hbin] at hamp
  by_cases hhex : (Token.isHexMark x && ds.head?.any Token.isHexDigit) = true
  · rw [if_pos hhex] at hamp
    obtain ⟨hmark, -⟩ := Bool.and_eq_true_iff.1 hhex
    refine based?_iff_of hamp rfl rfl (fun hall => ?_) fun hno => ?_
    · rw [based?_cons, if_neg (by simp [hbin]), hmark, isHexText_iff.2 hall]
      rfl
    · rw [based?_cons, if_neg (by simp [hbin]), isHexText_mark (.inr hmark), if_neg]
      · rfl
      · rw [Bool.and_eq_true, isHexText_iff]
        exact fun h => hno h.2
  · rw [if_neg hhex] at hamp
    -- behind the letter no digit follows, so it is not taken for one of a base
    have hdigits : (Token.isHexMark x && Token.isHexText ds) = false := by
      rw [← Bool.not_eq_true, Bool.and_eq_true, isHexText_iff]
      rintro ⟨hmark, hne, hall⟩
      obtain ⟨d, r, rfl⟩ := List.exists_cons_of_ne_nil hne
      exact hhex (by rw [hmark]; exact hall d List.mem_cons_self)
    refine based?_iff_of hamp rfl rfl (fun hall => ?_) fun hno => ?_
    · rw [based?_cons, if_neg (by simp [hbin]), hdigits, if_neg Bool.false_ne_true, if_pos (isHexText_iff.2 hall)]
    · rw [based?_cons, if_neg (by simp [hbin]), hdigits, if_neg Bool.false_ne_true, if_neg (mt isHexText_iff.1 hno)]

/-! ## Items -/

/-- The sign of an item and what follows it. -/
theorem splitSign_eq (cs : List Char) : ∃ sign,
    Js.splitSign (String.ofList cs) = (String.ofList sign, cs.drop sign.length) ∧
    (if cs.head? == some '-' then ['-'] else []) = sign ∧ cs = sign ++ cs.drop sign.length := by
  unfold Js.splitSign
  rw [String.toList_ofList]
  split
  · exact ⟨['-'], rfl, rfl, rfl⟩
  · rename_i hminus
    refine ⟨[], rfl, if_neg ?_, rfl⟩
    cases cs with
    | nil => simp
    | cons c r =>
      intro hc
      simp only [List.head?_cons, beq_iff_eq, Option.some.injEq] at hc
      exact hminus r (by rw [hc])

/-- **An item is a number** if its text without its sign is one as a whole. -/
theorem number?_eq_some_iff {cs : List Char} (hascii : Text.IsAscii cs) {item : DataItem} :
    number? cs = some item ↔ ∃ radix lexeme, Whole radix lexeme (Js.splitSign (String.ofList cs)).2 ∧
      item = .number radix ((Js.splitSign (String.ofList cs)).1 ++ lexeme) := by
  obtain ⟨sign, hsplit, hsign, hcs⟩ := splitSign_eq cs
  have hbody : Text.IsAscii (cs.drop sign.length) := fun c hc => hascii c ((List.drop_suffix _ _).mem hc)
  unfold number?
  simp only [hsplit, hsign]
  generalize cs.drop sign.length = body at hcs hbody ⊢
  rcases body with _ | ⟨c, r⟩
  · refine iff_of_false (by simp [isDecimal]) ?_
    rintro ⟨radix, lexeme, ⟨c, p, htext, -⟩, -⟩
    cases htext
  by_cases hc : c = '&'
  · subst hc
    simp only [Option.map_eq_some_iff]
    constructor
    · rintro ⟨⟨radix, digits⟩, hbased, rfl⟩
      exact ⟨radix, String.ofList digits, based?_eq_some_iff.1 hbased, by rw [← String.ofList_append]⟩
    · rintro ⟨radix, lexeme, hwhole, rfl⟩
      refine ⟨(radix, lexeme.toList), based?_eq_some_iff.2 (by rwa [String.ofList_toList]), ?_⟩
      rw [String.ofList_append, String.ofList_toList]
  · simp only [Token.whole_decimal_iff hc, ← isDecimal_iff hbody]
    split
    · rename_i heq
      exact absurd (List.cons.inj heq).1 hc
    · split
      · rename_i hdecimal
        constructor
        · rintro ⟨⟩
          exact ⟨.decimal, _, ⟨rfl, rfl, hdecimal⟩, by rw [← String.ofList_append, ← hcs]⟩
        · rintro ⟨radix, lexeme, ⟨rfl, rfl, -⟩, rfl⟩
          rw [← String.ofList_append, ← hcs]
      · rename_i hdecimal
        refine iff_of_false (by simp) ?_
        rintro ⟨radix, lexeme, ⟨-, -, htrue⟩, -⟩
        exact hdecimal htrue

/-- **Data and expressions agree on what a number is.** Take an item in ASCII that is not in quotes. It is a number of
some base exactly if its text without at most one minus sign is scanned as a single number token of this base over all
of it; its text is then the sign before the text of the token. Otherwise it is a string as it stands. -/
theorem classify_agrees_with_scan {s : List Char} (hascii : Text.IsAscii s) (hquote : s.head? ≠ some '"') :
    (∀ radix text, classify s = .number radix text ↔ ∃ t : Token, t.Single (Js.splitSign (String.ofList s)).2 ∧
      Parse.radix? t.kind = some radix ∧ text = (Js.splitSign (String.ofList s)).1 ++ t.lexeme) ∧
    ((¬ ∃ t : Token, t.Single (Js.splitSign (String.ofList s)).2 ∧ (Parse.radix? t.kind).isSome) →
      classify s = .text (String.ofList s)) := by
  have hbody : Text.IsAscii (Js.splitSign (String.ofList s)).2 := by
    obtain ⟨sign, hsplit, -⟩ := splitSign_eq s
    rw [hsplit]
    exact fun c hc => hascii c ((List.drop_suffix _ _).mem hc)
  have hclassify : classify s = (number? s).getD (.text (String.ofList s)) := by
    unfold classify
    split
    · exact absurd rfl hquote
    · rfl
  have hnumber : ∀ item, number? s = some item ↔ ∃ radix, ∃ t : Token, t.Single (Js.splitSign (String.ofList s)).2 ∧
      Parse.radix? t.kind = some radix ∧ item = .number radix ((Js.splitSign (String.ofList s)).1 ++ t.lexeme) := by
    intro item
    rw [number?_eq_some_iff hascii]
    simp only [Token.whole_iff hbody]
    constructor
    · rintro ⟨radix, lexeme, ⟨t, hsingle, hk, rfl⟩, hitem⟩
      exact ⟨radix, t, hsingle, hk, hitem⟩
    · rintro ⟨radix, t, hsingle, hk, hitem⟩
      exact ⟨radix, t.lexeme, ⟨t, hsingle, hk, rfl⟩, hitem⟩
  refine ⟨fun radix text => ?_, fun hnone => ?_⟩
  · have hsome : classify s = .number radix text ↔ number? s = some (.number radix text) := by
      rw [hclassify]
      cases number? s <;> simp
    rw [hsome, hnumber]
    constructor
    · rintro ⟨radix', t, hsingle, hk, ⟨⟩⟩
      exact ⟨t, hsingle, hk, rfl⟩
    · rintro ⟨t, hsingle, hk, rfl⟩
      exact ⟨radix, t, hsingle, hk, rfl⟩
  · rw [hclassify]
    cases hitem : number? s with
    | none => rfl
    | some item =>
      obtain ⟨radix, t, hsingle, hk, -⟩ := (hnumber item).1 hitem
      exact absurd ⟨t, hsingle, by rw [hk]; rfl⟩ hnone

theorem classify_agrees_with_scan_signed : classify "-&HfF".toList = .number .hex "-ff" ∧
    ∃ t : Token, t.Single "&HfF".toList ∧ Parse.radix? t.kind = some .hex ∧ "-ff" = "-" ++ t.lexeme := by
  have hascii : Text.IsAscii "-&HfF".toList := Text.forall_of_all (by decide)
  have hsplit : Js.splitSign (String.ofList "-&HfF".toList) = ("-", "&HfF".toList) := by decide
  have hclassify : classify "-&HfF".toList = .number .hex "-ff" := by decide
  have htoken := ((classify_agrees_with_scan hascii (by decide)).1 .hex "-ff").1 hclassify
  rw [hsplit] at htoken
  exact ⟨hclassify, htoken⟩

end DataItem

end Locomotive
