import Locomotive.Proofs.Js.Mark
import Locomotive.Token.Scan

/-!
# What stands at a position

The piece at the front of a text is a word, a number, a string, a comment or a sign, and each of them takes
characters of its own: `Read` lists them once, and what else is known about a piece is read off from there. Names and
numbers are written in characters that need no escape, no piece but the end of a line holds a line break, and the text
of each is its stretch of the source in the normal form of its kind.

* `Piece.Read`, `piece_read`: the pieces and their characters.
* `Spelled`: the normal forms.
* `Piece.Laid`, `piece_laid`: all that is read off.
-/

namespace Locomotive

theorem Text.toNat_of_isDigit {c : Char} (h : c.isDigit = true) : 48 ≤ c.toNat ∧ c.toNat ≤ 57 := by
  simp only [Char.isDigit, Bool.and_eq_true, decide_eq_true_eq] at h
  exact h

namespace Token

open Text (Within)

/-! ## Letters -/

/-- A letter of a name in lower case, a digit, or an underscore. -/
def isLowerPart (c : Char) : Bool := c.isLower || c.isDigit || c == '_'

/-- **The text of a name**: letters in lower case, digits and underscores, and perhaps a type mark. -/
def NameShaped (s : String) : Prop :=
  ∃ stem mark, s.toList = stem ++ mark ∧ (∀ c ∈ stem, isLowerPart c = true) ∧
    mark ∈ [[], ['$'], ['%'], ['!']]

theorem toNat_of_isUpper {c : Char} (h : c.isUpper = true) : 65 ≤ c.toNat ∧ c.toNat ≤ 90 := of_decide_eq_true h

theorem toNat_of_isLower {c : Char} (h : c.isLower = true) : 97 ≤ c.toNat ∧ c.toNat ≤ 122 := by
  obtain ⟨hge, hle⟩ := (Bool.and_eq_true ..).mp h
  exact ⟨of_decide_eq_true hge, of_decide_eq_true hle⟩

/-- Only upper-case letters change. -/
theorem toLower_eq_self {c : Char} (h : ¬ (65 ≤ c.toNat ∧ c.toNat ≤ 90)) : c.toLower = c := by
  unfold Char.toLower
  exact dif_neg h

theorem isLower_toLower {c : Char} (h : c.isAlpha = true) : c.toLower.isLower = true := by
  have hcase : (c.isUpper || c.isLower) = true := h
  rcases Bool.or_eq_true_iff.1 hcase with hupper | hlower
  · have hbounds := toNat_of_isUpper hupper
    have hval : c.toLower.toNat = c.toNat + 32 := by
      have hcond : c.val ≥ 'A'.val ∧ c.val ≤ 'Z'.val := hbounds
      have hadd : (c.val + ('a'.val - 'A'.val)).toNat = (c.val.toNat + 32) % 2 ^ 32 := by
        rw [UInt32.toNat_add]; rfl
      have hsmall : c.val.toNat ≤ 90 := hbounds.2
      unfold Char.toLower
      rw [dif_pos hcond]
      show (c.val + ('a'.val - 'A'.val)).toNat = c.val.toNat + 32
      rw [hadd]
      omega
    refine (Bool.and_eq_true ..).mpr ⟨decide_eq_true ?_, decide_eq_true ?_⟩
    · show 97 ≤ c.toLower.toNat
      omega
    · show c.toLower.toNat ≤ 122
      omega
  · have hbounds := toNat_of_isLower hlower
    rw [toLower_eq_self (by omega)]
    exact hlower

/-- The letters of a name in lower case. -/
theorem isLowerPart_toLower {c : Char} (h : isNamePart c = true) : isLowerPart c.toLower = true := by
  have hparts : (c.isAlpha || c.isDigit || c == '_') = true := h
  unfold isLowerPart
  simp only [Bool.or_eq_true, beq_iff_eq] at hparts ⊢
  rcases hparts with (halpha | hdigit) | hunder
  · exact .inl (.inl (isLower_toLower halpha))
  · have hbounds := Text.toNat_of_isDigit hdigit
    rw [toLower_eq_self (by omega)]
    exact .inl (.inr hdigit)
  · rw [hunder]
    decide

/-! ## Characters that need no escape -/

theorem plain_of_ascii {c : Char} (h : 0x20 ≤ c.toNat) (h' : c.toNat < 0x7F) : Js.Plain c := by
  rw [Js.plain_iff]
  omega

/-- The digits of all scripts need no escape. -/
theorem plain_of_isDigit {c : Char} (h : Text.isDigit c = true) : Js.Plain c := by
  have hranges : ∀ r ∈ Text.digitRanges,
      0x80 ≤ r.1 ∧ r.2 < 0x2028 ∨ 0x2029 < r.1 ∧ r.2 < 0xE000 ∨ 0xF8FF < r.1 := by decide
  unfold Text.isDigit at h
  split at h
  · have hbounds := Text.toNat_of_isDigit h
    exact plain_of_ascii (by omega) (by omega)
  · unfold Text.inRanges at h
    rw [List.any_eq_true] at h
    obtain ⟨r, hr, hc⟩ := h
    simp only [Bool.and_eq_true, decide_eq_true_eq] at hc
    have := hranges r hr
    rw [Js.plain_iff]
    omega

theorem plain_of_isHexDigit {c : Char} (h : isHexDigit c = true) : Js.Plain c := by
  simp only [isHexDigit, Bool.or_eq_true, Bool.and_eq_true, decide_eq_true_eq] at h
  rcases h with (h | h) | h
  · exact plain_of_isDigit h
  · have hge : 97 ≤ c.toNat := h.1
    have hle : c.toNat ≤ 102 := h.2
    exact plain_of_ascii (by omega) (by omega)
  · have hge : 65 ≤ c.toNat := h.1
    have hle : c.toNat ≤ 70 := h.2
    exact plain_of_ascii (by omega) (by omega)

theorem plain_toLower {c : Char} (h : Js.Plain c) : Js.Plain c.toLower := by
  by_cases hu : 65 ≤ c.toNat ∧ c.toNat ≤ 90
  · have hupper : c.isUpper = true := decide_eq_true hu
    have halpha : (c.isUpper || c.isLower) = true := by rw [hupper, Bool.true_or]
    have hlower := toNat_of_isLower (isLower_toLower halpha)
    exact plain_of_ascii (by omega) (by omega)
  · rw [toLower_eq_self hu]
    exact h

theorem plain_of_isLowerPart {c : Char} (h : isLowerPart c = true) : Js.Plain c := by
  simp only [isLowerPart, Bool.or_eq_true, beq_iff_eq] at h
  rcases h with (h | h) | rfl
  · have := toNat_of_isLower h
    exact plain_of_ascii (by omega) (by omega)
  · have := Text.toNat_of_isDigit h
    exact plain_of_ascii (by omega) (by omega)
  · decide

theorem NameShaped.plain {s : String} (h : NameShaped s) : Within Js.Plain s := by
  obtain ⟨stem, mark, hs, hstem, hmark⟩ := h
  have hmarks : ∀ m ∈ [[], ['$'], ['%'], ['!']], ∀ c ∈ m, Js.Plain c := by decide
  intro c hc
  rw [hs] at hc
  rcases List.mem_append.1 hc with hc | hc
  · exact plain_of_isLowerPart (hstem c hc)
  · exact hmarks mark hmark c hc

/-! ## Parts of a text -/

theorem break_not_mem_takeWhile {q : Char → Bool} (hq : q '\n' = false) (cs : List Char) :
    '\n' ∉ cs.takeWhile q := by
  intro hmem
  have := List.all_eq_true.1 List.all_takeWhile _ hmem
  rw [hq] at this
  exact absurd this (by decide)

theorem trimChars_subset (cs : List Char) : ∀ c ∈ Text.trimChars cs, c ∈ cs := by
  intro c hc
  unfold Text.trimChars Text.dropEndWhile at hc
  have hdrop := (List.dropWhile_suffix _).mem (List.mem_reverse.1 hc)
  exact (List.dropWhile_suffix _).mem (List.mem_reverse.1 hdrop)

/-- What is left behind a part at the front. -/
theorem eq_append_drop {a cs : List Char} (h : a <+: cs) : cs = a ++ cs.drop a.length :=
  (List.prefix_iff_eq_append.1 h).symm

/-- A part at the front, and one at the front of what follows it. -/
theorem append_prefix_of_drop {a b cs : List Char} (ha : a <+: cs) (hb : b <+: cs.drop a.length) : a ++ b <+: cs := by
  obtain ⟨rest, rfl⟩ := ha
  rw [List.drop_left] at hb
  exact (List.prefix_append_right_inj a).2 hb

/-- A part at the front, and the next character. -/
theorem append_prefix_of_head {a cs : List Char} (ha : a <+: cs) {m : Char} (hm : (cs.drop a.length).head? = some m) :
    a ++ [m] <+: cs := by
  obtain ⟨r, hr⟩ := List.head?_eq_some_iff.1 hm
  exact append_prefix_of_drop ha ⟨r, hr.symm⟩

/-! ## Numbers -/

/-- A character of a decimal number. -/
def isNumeralPart (c : Char) : Bool := Text.isDigit c || c == '.' || c == 'e' || c == 'E' || c == '+' || c == '-'

theorem isNumeralPart_of_isDigit {c : Char} (h : Text.isDigit c = true) : isNumeralPart c = true := by
  simp [isNumeralPart, h]

theorem plain_of_isNumeralPart {c : Char} (h : isNumeralPart c = true) : Js.Plain c := by
  simp only [isNumeralPart, Bool.or_eq_true, beq_iff_eq] at h
  rcases h with ((((h | rfl) | rfl) | rfl) | rfl) | rfl
  · exact plain_of_isDigit h
  all_goals decide

theorem isNumeralPart_takeWhile (cs : List Char) : ∀ c ∈ cs.takeWhile Text.isDigit, isNumeralPart c = true :=
  fun c hc => isNumeralPart_of_isDigit (List.all_eq_true.1 List.all_takeWhile c hc)

theorem fraction_spec (cs : List Char) : fraction cs <+: cs ∧ ∀ c ∈ fraction cs, isNumeralPart c = true := by
  unfold fraction
  split
  · rename_i r
    refine ⟨List.cons_prefix_cons.2 ⟨rfl, List.takeWhile_prefix _⟩, ?_⟩
    exact List.forall_mem_cons.2 ⟨by decide, isNumeralPart_takeWhile r⟩
  · exact ⟨List.nil_prefix, by simp⟩

/-- An exponent starts the text. -/
def HasExponent (cs : List Char) : Prop :=
  (∃ e d r, cs = e :: d :: r ∧ (e = 'e' ∨ e = 'E') ∧ Text.isDigit d = true) ∨
    ∃ e s d r, cs = e :: s :: d :: r ∧ (e = 'e' ∨ e = 'E') ∧ (s = '+' ∨ s = '-') ∧ Text.isDigit d = true

theorem exponent_digits {e d : Char} (he : e = 'e' ∨ e = 'E') (hd : Text.isDigit d = true) (r : List Char) :
    exponent (e :: d :: r) = e :: (d :: r).takeWhile Text.isDigit := by
  cases r <;> rcases he with rfl | rfl <;> simp [exponent, hd]

theorem exponent_signed {e s d : Char} (he : e = 'e' ∨ e = 'E') (hs : s = '+' ∨ s = '-') (hd : Text.isDigit d = true)
    (r : List Char) : exponent (e :: s :: d :: r) = e :: s :: (d :: r).takeWhile Text.isDigit := by
  have hsign : Text.isDigit s = false := by rcases hs with rfl | rfl <;> rfl
  have hsign' : (s == '+' || s == '-') = true := by rcases hs with rfl | rfl <;> rfl
  rcases he with rfl | rfl <;> simp [exponent, hd, hsign, hsign']

theorem exponent_eq_nil {cs : List Char} (h : ¬ HasExponent cs) : exponent cs = [] := by
  unfold exponent
  split
  · rename_i e s d r
    split
    · rfl
    rename_i he
    have he' : e = 'e' ∨ e = 'E' := by simpa [Classical.or_iff_not_imp_left] using he
    split
    · rename_i hs
      exact absurd (.inl ⟨e, s, d :: r, rfl, he', hs⟩) h
    split
    · rename_i hs
      simp only [Bool.and_eq_true, Bool.or_eq_true, beq_iff_eq] at hs
      exact absurd (.inr ⟨e, s, d, r, rfl, he', hs.1, hs.2⟩) h
    · rfl
  · rename_i e d
    split
    · rename_i hd
      simp only [Bool.and_eq_true, Bool.or_eq_true, beq_iff_eq] at hd
      exact absurd (.inl ⟨e, d, [], rfl, hd.1, hd.2⟩) h
    · rfl
  · rfl

theorem exponent_spec (cs : List Char) : exponent cs <+: cs ∧ ∀ c ∈ exponent cs, isNumeralPart c = true := by
  have hmark : ∀ e : Char, e = 'e' ∨ e = 'E' → isNumeralPart e = true := by rintro e (rfl | rfl) <;> decide
  by_cases hexp : HasExponent cs
  · rcases hexp with ⟨e, d, r, rfl, he, hd⟩ | ⟨e, s, d, r, rfl, he, hs, hd⟩
    · rw [exponent_digits he hd]
      refine ⟨List.cons_prefix_cons.2 ⟨rfl, List.takeWhile_prefix _⟩, List.forall_mem_cons.2 ⟨hmark e he, ?_⟩⟩
      exact isNumeralPart_takeWhile (d :: r)
    · rw [exponent_signed he hs hd]
      refine ⟨List.cons_prefix_cons.2 ⟨rfl, List.cons_prefix_cons.2 ⟨rfl, List.takeWhile_prefix _⟩⟩,
        List.forall_mem_cons.2 ⟨hmark e he, List.forall_mem_cons.2 ⟨?_, isNumeralPart_takeWhile (d :: r)⟩⟩⟩
      rcases hs with rfl | rfl <;> decide
  · rw [exponent_eq_nil hexp]
    exact ⟨List.nil_prefix, by simp⟩

/-- **A decimal number** stands at the front of its text. -/
theorem numeral_spec (cs : List Char) : numeral cs <+: cs ∧ ∀ c ∈ numeral cs, isNumeralPart c = true := by
  have hwhole : cs.takeWhile Text.isDigit <+: cs := List.takeWhile_prefix _
  obtain ⟨hpart, hpartChars⟩ := fraction_spec (cs.drop (cs.takeWhile Text.isDigit).length)
  obtain ⟨hexp, hexpChars⟩ := exponent_spec (cs.drop ((cs.takeWhile Text.isDigit).length +
    (fraction (cs.drop (cs.takeWhile Text.isDigit).length)).length))
  unfold numeral
  dsimp only
  rw [← List.length_append] at hexp hexpChars ⊢
  refine ⟨append_prefix_of_drop (append_prefix_of_drop hwhole hpart) hexp, ?_⟩
  exact List.forall_mem_append.2 ⟨List.forall_mem_append.2 ⟨isNumeralPart_takeWhile cs, hpartChars⟩, hexpChars⟩

/-- A number starts with its first character. -/
theorem numeral_cons {c : Char} (hc : Text.isDigit c = true ∨ c = '.') (cs : List Char) :
    numeral (c :: cs) = c :: (number c cs).tail := by
  have hhead : (numeral (c :: cs)).head? = some c := by
    unfold numeral
    by_cases hd : Text.isDigit c = true
    · simp [hd]
    · obtain rfl : c = '.' := hc.resolve_left hd
      simp [hd, fraction]
  obtain ⟨tail, htail⟩ := List.head?_eq_some_iff.1 hhead
  simp only [number, htail, List.tail_cons]

/-- The text starts with a digit or a point. -/
def IsNumeral (s : String) : Prop := ∃ c ∈ s.toList.head?, Text.isDigit c = true ∨ c = '.'

/-- A number is what its first character promises. -/
theorem isNumeral_numeral {c : Char} (hc : Text.isDigit c = true ∨ c = '.') (cs : List Char) :
    IsNumeral (String.ofList (numeral (c :: cs))) := by
  rw [numeral_cons hc, IsNumeral, String.toList_ofList]
  exact ⟨c, rfl, hc⟩

theorem isHexText_takeWhile {cs : List Char} (h : cs.takeWhile isHexDigit ≠ []) :
    isHexText (cs.takeWhile isHexDigit) = true := by
  rw [isHexText, Bool.and_eq_true, Bool.not_eq_true', List.isEmpty_eq_false_iff]
  exact ⟨h, List.all_takeWhile⟩

/-! ## The pieces -/

/-- The signs and their texts, but for the end of a line. -/
def signs : List (Kind × List Char) :=
  [(.lparen, ['(']), (.rparen, [')']), (.lbracket, ['[']), (.rbracket, [']']), (.comma, [',']), (.semicolon, [';']),
    (.colon, [':']), (.hash, ['#']), (.atSign, ['@']), (.plus, ['+']), (.minus, ['-']), (.star, ['*']), (.slash, ['/']),
    (.backslash, ['\\']), (.caret, ['^']), (.equals, ['=']), (.notEqual, ['<', '>']), (.lessEqual, ['<', '=']),
    (.less, ['<']), (.greaterEqual, ['>', '=']), (.greater, ['>'])]

/-- **The pieces at the front of `c :: cs`**, with the characters that each of them takes. -/
inductive Piece.Read (c : Char) (cs : List Char) : Piece → Prop
  | name {stem mark : List Char} (hfront : stem ++ mark <+: cs) (hc : c.isAlpha = true)
      (hstem : ∀ d ∈ stem, isNamePart d = true) (hmark : mark ∈ [[], ['$'], ['%'], ['!']]) :
      Read c cs ⟨.identifier, String.ofList ((c :: (stem ++ mark)).map Char.toLower), stem ++ mark, []⟩
  | keyword {stem mark : List Char} (hfront : stem ++ mark <+: cs) (hc : c.isAlpha = true)
      (hstem : ∀ d ∈ stem, isNamePart d = true) (hmark : mark ∈ [[], ['$']]) :
      Read c cs ⟨.keyword, String.ofList ((c :: (stem ++ mark)).map Char.toUpper), stem ++ mark, []⟩
  | comment {more text : List Char} (hfront : more ++ text <+: cs)
      (hmark : c :: more = ['\''] ∨ (c :: more).map Char.toUpper = ['R', 'E', 'M'])
      (hline : '\n' ∉ c :: (more ++ text)) :
      Read c cs ⟨.comment, String.ofList (Text.trimChars text), more ++ text, []⟩
  | number {tail : List Char} (hfront : tail <+: cs)
      (hc : (Text.isDigit c || (c == '.' && cs.head?.any Text.isDigit)) = true)
      (hnumeral : numeral (c :: cs) = c :: tail) :
      Read c cs ⟨.number, String.ofList (c :: tail), tail, []⟩
  | hex {lead digits : List Char} (hfront : lead ++ digits <+: cs) (hc : c = '&') (hlead : lead ∈ [[], ['h'], ['H']])
      (hdigits : isHexText digits = true) :
      Read c cs ⟨.hexNumber, String.ofList (digits.map Char.toLower), lead ++ digits, []⟩
  | binary {lead digits : List Char} (hfront : lead ++ digits <+: cs) (hc : c = '&') (hlead : lead ∈ [['x'], ['X']])
      (hne : digits ≠ []) (hdigits : ∀ d ∈ digits, d = '0' ∨ d = '1') :
      Read c cs ⟨.binNumber, String.ofList (digits.map Char.toLower), lead ++ digits, []⟩
  | string {contents close : List Char} {warnings : List ScanWarning} (hfront : contents ++ close <+: cs) (hc : c = '"')
      (hquote : '"' ∉ contents) (hline : '\n' ∉ contents) (hclose : close = ['"'] ∨ close = []) :
      Read c cs ⟨.string, String.ofList contents, contents ++ close, warnings⟩
  | command {name : List Char} (hfront : name <+: cs) (hc : c = '|') (hname : '\n' ∉ name) :
      Read c cs ⟨.rsx, String.ofList (name.map Char.toLower), name, []⟩
  | eol (hfront : [] <+: cs) (hc : c = '\n') : Read c cs ⟨.eol, "\n", [], []⟩
  | sign {kind : Kind} {tail : List Char} (hfront : tail <+: cs) (hsign : (kind, c :: tail) ∈ signs) :
      Read c cs ⟨kind, String.ofList (c :: tail), tail, []⟩

section

open Token.Piece (Read)

variable {c : Char} {cs : List Char} {p : Piece}

/-- A type mark behind a word has no case. -/
theorem ofList_map_mark (f : Char → Char) {m : Char} (hm : f m = m) (c : Char) (more : List Char) :
    String.ofList ((c :: more).map f) ++ String.singleton m = String.ofList ((c :: (more ++ [m])).map f) := by
  rw [← List.cons_append, List.map_append, String.ofList_append, List.map_singleton, hm]
  rfl

theorem word_read (hc : c.isAlpha = true) (cs : List Char) : Read c cs (word c cs) := by
  have hfront : cs.takeWhile isNamePart <+: cs := List.takeWhile_prefix _
  have hstem : ∀ d ∈ cs.takeWhile isNamePart, isNamePart d = true := List.all_eq_true.1 List.all_takeWhile
  have hmore : '\n' ∉ cs.takeWhile isNamePart := break_not_mem_takeWhile (by decide) cs
  have hne : '\n' ≠ c := by rintro rfl; exact absurd hc (by decide)
  unfold word
  dsimp only
  generalize cs.takeWhile isNamePart = stem at *
  -- a word without a type mark, which two of the branches below come to
  have hplain : Read c cs (if String.ofList ((c :: stem).map Char.toUpper) == "REM" then
      ⟨.comment, String.ofList (Text.trimChars (restOfLine (cs.drop stem.length))),
        stem ++ restOfLine (cs.drop stem.length), []⟩
    else if isKeyword (String.ofList ((c :: stem).map Char.toUpper)) then
      ⟨.keyword, String.ofList ((c :: stem).map Char.toUpper), stem, []⟩
    else ⟨.identifier, String.ofList ((c :: stem).map Char.toLower), stem, []⟩) := by
    split
    · rename_i hrem
      have hmark := congrArg String.toList (beq_iff_eq.1 hrem)
      rw [String.toList_ofList] at hmark
      refine .comment (append_prefix_of_drop hfront (List.takeWhile_prefix _)) (.inr hmark) ?_
      have hrest : '\n' ∉ restOfLine (cs.drop stem.length) := break_not_mem_takeWhile (by decide) _
      simp [hne, hmore, hrest]
    have hfront : stem ++ [] <+: cs := by rwa [List.append_nil]
    split
    · simpa using Read.keyword hfront hc hstem (by simp)
    · simpa using Read.name hfront hc hstem (by simp)
  split
  · rename_i r hafter
    have hfront := append_prefix_of_head hfront (m := '$') (by rw [hafter]; rfl)
    split
    · exact ofList_map_mark Char.toUpper (m := '$') (by decide) c stem ▸ .keyword hfront hc hstem (by simp)
    · exact ofList_map_mark Char.toLower (m := '$') (by decide) c stem ▸ .name hfront hc hstem (by simp)
  · rename_i m r _ hafter
    have hfront := append_prefix_of_head hfront (m := m) (by rw [hafter]; rfl)
    split
    · rename_i hm
      simp only [Bool.and_eq_true, Bool.or_eq_true, beq_iff_eq] at hm
      have hcase : m.toLower = m := by rcases hm.1 with rfl | rfl <;> decide
      rw [ofList_map_mark Char.toLower hcase]
      exact .name hfront hc hstem (by rcases hm.1 with rfl | rfl <;> simp)
    · exact hplain
  · exact hplain

theorem number_read (hc : (Text.isDigit c || (c == '.' && cs.head?.any Text.isDigit)) = true) :
    Read c cs (number c cs) := by
  have hfirst : Text.isDigit c = true ∨ c = '.' := by
    rw [Bool.or_eq_true, Bool.and_eq_true, beq_iff_eq] at hc
    exact hc.imp_right And.left
  have hfront := (numeral_spec (c :: cs)).1
  have htail := numeral_cons hfirst cs
  rw [htail, List.cons_prefix_cons] at hfront
  have hnumber : number c cs = ⟨.number, String.ofList (c :: (number c cs).tail), (number c cs).tail, []⟩ := by
    rw [← htail]
    rfl
  rw [hnumber]
  exact .number hfront.2 hc htail

theorem based_eq_ok {kind : Kind} {lead digits : List Char} (hp : based kind lead digits = .ok p) :
    digits ≠ [] ∧ p = ⟨kind, String.ofList (digits.map Char.toLower), lead ++ digits, []⟩ := by
  unfold based at hp
  split at hp
  · cases hp
  · rename_i hd
    cases hp
    exact ⟨fun h => hd (by rw [h]; rfl), rfl⟩

theorem ampersand_read (hp : ampersand cs = .ok p) : Read '&' cs p := by
  unfold ampersand at hp
  split at hp
  · cases hp
  · rename_i x ds
    have hfront : ∀ q : Char → Bool, [x] ++ ds.takeWhile q <+: x :: ds := fun q =>
      List.cons_prefix_cons.2 ⟨rfl, List.takeWhile_prefix _⟩
    split at hp
    · -- `X` stands for base two, `H` or nothing for base sixteen
      rename_i hx
      obtain ⟨hne, rfl⟩ := based_eq_ok hp
      refine .binary (hfront _) rfl (by simpa using hx) hne fun d hd => ?_
      simpa using List.all_eq_true.1 List.all_takeWhile d hd
    split at hp
    · rename_i hx
      obtain ⟨hne, rfl⟩ := based_eq_ok hp
      rw [Bool.and_eq_true] at hx
      exact .hex (hfront _) rfl (by simpa using hx.1) (isHexText_takeWhile hne)
    · obtain ⟨hne, rfl⟩ := based_eq_ok hp
      have hfront : [] ++ (x :: ds).takeWhile isHexDigit <+: x :: ds := List.takeWhile_prefix _
      exact .hex hfront rfl (by simp) (isHexText_takeWhile hne)

theorem string_read (cs : List Char) : Read '"' cs (string cs) := by
  have hfront : (cs.takeWhile fun c => c != '"' && c != '\n') <+: cs := List.takeWhile_prefix _
  have hline : '\n' ∉ cs.takeWhile fun c => c != '"' && c != '\n' := break_not_mem_takeWhile (by decide) cs
  have hquote : '"' ∉ cs.takeWhile fun c => c != '"' && c != '\n' := fun hmem =>
    absurd (List.all_eq_true.1 List.all_takeWhile _ hmem) (by decide)
  unfold string
  dsimp only
  split
  · rename_i hclosed
    exact .string (append_prefix_of_head hfront (beq_iff_eq.1 hclosed)) rfl hquote hline (.inl rfl)
  · rw [← List.append_nil (cs.takeWhile fun c => c != '"' && c != '\n')] at hfront
    simpa only [List.append_nil] using Read.string hfront rfl hquote hline (.inr rfl)

theorem bar_read (hp : bar cs = .ok p) : Read '|' cs p := by
  unfold bar at hp
  dsimp only at hp
  split at hp
  · cases hp
  · cases hp
    exact .command (List.takeWhile_prefix _) rfl (break_not_mem_takeWhile (by decide) cs)

theorem sign_read (hp : sign c cs = .ok p) : Read c cs p := by
  have hnone : [] <+: cs := List.nil_prefix
  have hsecond : ∀ (d : Char) (r : List Char), [d] <+: d :: r := fun d r => ⟨r, rfl⟩
  unfold sign at hp
  dsimp only at hp
  split at hp
  case h_1 =>
    cases hp
    exact .eol List.nil_prefix rfl
  case h_18 =>
    split at hp <;> cases hp
    · exact .sign (hsecond '>' _) (by decide)
    · exact .sign (hsecond '=' _) (by decide)
    · exact .sign hnone (by decide)
  case h_19 =>
    split at hp <;> cases hp
    · exact .sign (hsecond '=' _) (by decide)
    · exact .sign hnone (by decide)
  all_goals cases hp
  all_goals exact .sign hnone (by decide)

/-- **What stands at the front of a text.** -/
theorem piece_read (hp : piece c cs = .ok p) : Read c cs p := by
  unfold piece at hp
  split at hp
  · cases hp
    exact word_read ‹_› cs
  split at hp
  · cases hp
    exact number_read ‹_›
  split at hp
  · rename_i hc
    exact beq_iff_eq.1 hc ▸ ampersand_read hp
  split at hp
  · rename_i hc
    cases hp
    exact beq_iff_eq.1 hc ▸ string_read cs
  split at hp
  · rename_i hc
    cases hp
    have hline : '\n' ∉ restOfLine cs := break_not_mem_takeWhile (by decide) cs
    obtain rfl := beq_iff_eq.1 hc
    have hfront : [] ++ restOfLine cs <+: cs := List.takeWhile_prefix _
    exact .comment hfront (.inl rfl) (by simp [hline])
  split at hp
  · rename_i hc
    exact beq_iff_eq.1 hc ▸ bar_read hp
  · exact sign_read hp

end

/-! ## What is read off -/

/-- **The normal form of a token**: `lexeme` is what its kind makes of the stretch `span` of the source. -/
def Spelled (kind : Kind) (span : List Char) (lexeme : String) : Prop :=
  match kind with
  | .keyword => lexeme = String.ofList (span.map Char.toUpper)
  | .identifier => lexeme = String.ofList (span.map Char.toLower)
  | .rsx => ∃ name, span = '|' :: name ∧ lexeme = String.ofList (name.map Char.toLower)
  | .string => ∃ contents, '"' ∉ contents ∧ (span = '"' :: contents ++ ['"'] ∨ span = '"' :: contents) ∧
      lexeme = String.ofList contents
  | .hexNumber => ∃ lead digits, lead ∈ [[], ['h'], ['H']] ∧ isHexText digits = true ∧
      span = '&' :: lead ++ digits ∧ lexeme = String.ofList (digits.map Char.toLower)
  | .binNumber => ∃ lead digits, lead ∈ [['x'], ['X']] ∧ digits ≠ [] ∧ (∀ d ∈ digits, d = '0' ∨ d = '1') ∧
      span = '&' :: lead ++ digits ∧ lexeme = String.ofList (digits.map Char.toLower)
  | .comment => ∃ mark text, (mark = ['\''] ∨ mark.map Char.toUpper = ['R', 'E', 'M']) ∧ span = mark ++ text ∧
      lexeme = String.ofList (Text.trimChars text)
  | _ => lexeme = String.ofList span

/-- The piece stands at the front of `c :: cs`, in one line, and its text is what its kind promises. -/
structure Piece.Laid (p : Piece) (c : Char) (cs : List Char) : Prop where
  front : p.tail <+: cs
  spelled : Spelled p.kind (c :: p.tail) p.lexeme
  signed : (p.kind = .plus → p.lexeme = "+") ∧ (p.kind = .minus → p.lexeme = "-")
  name : p.kind = .identifier → NameShaped p.lexeme
  number : p.kind = .number ∨ p.kind = .hexNumber ∨ p.kind = .binNumber →
    Within Js.Plain p.lexeme ∧ ∀ d ∈ c :: p.tail, Js.Plain d
  numeral : p.kind = .number → Text.isDigit c = true ∨ c = '.'
  remark : p.kind = .comment → ∀ d ∈ p.lexeme.toList, d ∈ cs ∧ d ≠ '\n'
  eol : p.kind = .eol → c = '\n' ∧ p.tail = []
  inLine : p.kind ≠ .eol → '\n' ∉ c :: p.tail
  /-- No character starts the end of a text, nor the items of data. -/
  kind : p.kind ∉ [.eof, .dataItems]

/-- The characters of a word. -/
theorem break_not_mem_word {c : Char} {stem mark : List Char} (hc : c.isAlpha = true)
    (hstem : ∀ d ∈ stem, isNamePart d = true) (hmark : '\n' ∉ mark) : '\n' ∉ c :: (stem ++ mark) := by
  simp only [List.mem_cons, List.mem_append, not_or]
  refine ⟨?_, fun h => absurd (hstem _ h) (by decide), hmark⟩
  rintro rfl
  exact absurd hc (by decide)

/-- The characters of a number with a base, and those of its text. -/
theorem plain_based {lead digits : List Char} (hlead : lead ∈ [[], ['h'], ['H'], ['x'], ['X']])
    (hdigits : ∀ d ∈ digits, Js.Plain d) :
    Within Js.Plain (String.ofList (digits.map Char.toLower)) ∧ ∀ d ∈ '&' :: (lead ++ digits), Js.Plain d := by
  have hleads : ∀ l ∈ [[], ['h'], ['H'], ['x'], ['X']], ∀ c ∈ l, Js.Plain c := by decide
  constructor
  · rw [Text.within_ofList]
    intro c hc
    obtain ⟨d, hd, rfl⟩ := List.mem_map.1 hc
    exact plain_toLower (hdigits d hd)
  · exact List.forall_mem_cons.2 ⟨by decide, List.forall_mem_append.2 ⟨hleads lead hlead, hdigits⟩⟩

theorem break_not_mem_of_plain {cs : List Char} (h : ∀ d ∈ cs, Js.Plain d) : '\n' ∉ cs :=
  fun hmem => absurd (h _ hmem) (by decide)

/-- **What stands at the front of a text** stands in one line of it, in the normal form of its kind. -/
theorem piece_laid {c : Char} {cs : List Char} {p : Piece} (hp : piece c cs = .ok p) : p.Laid c cs := by
  cases piece_read hp with
  | @name stem mark hfront hc hstem hmark =>
    have hmarks : ∀ m ∈ [[], ['$'], ['%'], ['!']], '\n' ∉ m ∧ m.map Char.toLower = m := by decide
    have hlower : ∀ d ∈ (c :: stem).map Char.toLower, isLowerPart d = true := by
      intro d hd
      obtain ⟨x, hx, rfl⟩ := List.mem_map.1 hd
      rcases List.mem_cons.1 hx with rfl | hx
      · simp [isLowerPart, isLower_toLower hc]
      · exact isLowerPart_toLower (hstem x hx)
    refine ⟨hfront, rfl, by simp, fun _ => ⟨_, mark, ?_, hlower, hmark⟩, by simp, by simp, by simp, by simp,
      fun _ => break_not_mem_word hc hstem (hmarks mark hmark).1, by simp⟩
    rw [String.toList_ofList, ← List.cons_append, List.map_append, (hmarks mark hmark).2]
  | @keyword stem mark hfront hc hstem hmark =>
    have hmarks : ∀ m ∈ [[], ['$']], '\n' ∉ m := by decide
    exact ⟨hfront, rfl, by simp, by simp, by simp, by simp, by simp, by simp,
      fun _ => break_not_mem_word hc hstem (hmarks mark hmark), by simp⟩
  | @comment more text hfront hmark hline =>
    refine ⟨hfront, ⟨c :: more, text, hmark, rfl, rfl⟩, by simp, by simp, by simp, by simp, fun _ d hd => ?_, by simp,
      fun _ => hline, by simp⟩
    rw [String.toList_ofList] at hd
    have hd := trimChars_subset _ d hd
    refine ⟨hfront.subset (List.mem_append_right _ hd), ?_⟩
    rintro rfl
    exact hline (List.mem_cons_of_mem c (List.mem_append_right _ hd))
  | @number tail hfront hc hnumeral =>
    have hchars := (numeral_spec (c :: cs)).2
    rw [hnumeral] at hchars
    have hplain : ∀ d ∈ c :: tail, Js.Plain d := fun d hd => plain_of_isNumeralPart (hchars d hd)
    rw [Bool.or_eq_true, Bool.and_eq_true, beq_iff_eq] at hc
    exact ⟨hfront, rfl, by simp, by simp, fun _ => ⟨Text.within_ofList.2 hplain, hplain⟩,
      fun _ => hc.imp_right And.left, by simp, by simp, fun _ => break_not_mem_of_plain hplain, by simp⟩
  | @hex lead digits hfront hc hlead hdigits =>
    have hhex := List.all_eq_true.1 (Bool.and_eq_true_iff.1 hdigits).2
    have hplain : _ ∧ ∀ d ∈ '&' :: (lead ++ digits), Js.Plain d :=
      plain_based (List.mem_append_left [['x'], ['X']] hlead) fun d hd => plain_of_isHexDigit (hhex d hd)
    subst hc
    exact ⟨hfront, ⟨lead, digits, hlead, hdigits, rfl, rfl⟩, by simp, by simp, fun _ => hplain, by simp, by simp,
      by simp, fun _ => break_not_mem_of_plain hplain.2, by simp⟩
  | @binary lead digits hfront hc hlead hne hdigits =>
    have hplain : _ ∧ ∀ d ∈ '&' :: (lead ++ digits), Js.Plain d :=
      plain_based (List.mem_append_right [[], ['h'], ['H']] hlead) fun d hd => by
        rcases hdigits d hd with rfl | rfl <;> decide
    subst hc
    exact ⟨hfront, ⟨lead, digits, hlead, hne, hdigits, rfl, rfl⟩, by simp, by simp, fun _ => hplain, by simp, by simp,
      by simp, fun _ => break_not_mem_of_plain hplain.2, by simp⟩
  | @string contents close _ hfront hc hquote hline hclose =>
    subst hc
    refine ⟨hfront, ⟨contents, hquote, ?_, rfl⟩, by simp, by simp, by simp, by simp, by simp, by simp, fun _ => ?_,
      by simp⟩
    · rcases hclose with rfl | rfl <;> simp
    · rcases hclose with rfl | rfl <;> simp [hline]
  | command hfront hc hname =>
    subst hc
    exact ⟨hfront, ⟨_, rfl, rfl⟩, by simp, by simp, by simp, by simp, by simp, by simp, fun _ => by simp [hname],
      by simp⟩
  | eol hfront hc =>
    subst hc
    exact ⟨hfront, rfl, by simp, by simp, by simp, by simp, by simp, fun _ => ⟨rfl, rfl⟩, by simp, by simp⟩
  | @sign kind tail hfront hsign =>
    -- all that is to be known of a sign is read off the table
    have hsigns : ∀ e ∈ signs, '\n' ∉ e.2 ∧ (e.1 = .plus → e.2 = ['+']) ∧ (e.1 = .minus → e.2 = ['-']) ∧
        e.1 ∉ [.keyword, .identifier, .rsx, .string, .number, .hexNumber, .binNumber, .comment, .eol, .eof,
          .dataItems] := by decide
    obtain ⟨hline, hplus, hminus, hkind⟩ := hsigns _ hsign
    refine ⟨hfront, ?_, ⟨fun h => congrArg String.ofList (hplus h), fun h => congrArg String.ofList (hminus h)⟩,
      ?_, ?_, ?_, ?_, ?_, fun _ => hline, ?_⟩
    · cases kind <;> first | rfl | exact absurd hkind (by simp)
    all_goals simp_all

theorem piece_kind_ne_eof {c : Char} {cs : List Char} {p : Piece} (hp : piece c cs = .ok p) : p.kind ≠ .eof := by
  intro heof
  exact (piece_laid hp).kind (by simp [heof])

end Token

end Locomotive
