import Locomotive.Proofs.Stmt.Item
import Locomotive.Proofs.Stmt.Number

/-!
# The values of number tokens

A number of the source may be written with the digits of any script. Its value is that of the same number in ASCII
digits. The literal that is made of its token has this value if the number is written in ASCII; the digits of other
scripts are taken over as they are, and then it is no literal of JavaScript at all.

* `Text.latinDigit`: the ASCII digit of the same value.
* `Token.numeral_denotes`: every number that is scanned has a value.
* `Js.isAscii_of_literal?`: numeric literals are ASCII.
* `Token.scan_number_literal`: the literal of every number token.
-/

namespace Locomotive

namespace Text

/-! ## Digits of other scripts -/

/-- **A digit of any script** as the ASCII digit of the same value. Each range starts with a zero, and ten digits follow
one another. -/
def latinDigit (c : Char) : Char :=
  if c.toNat < 0x80 then c
  else
    match digitRanges.find? fun r => r.1 ≤ c.toNat && c.toNat ≤ r.2 with
    | some r => Char.ofNat (48 + (c.toNat - r.1) % 10)
    | none => c

theorem map_latinDigit {cs : List Char} (h : IsAscii cs) : cs.map latinDigit = cs :=
  (List.map_congr_left fun c hc => if_pos (h c hc)).trans (List.map_id cs)

theorem isDigit_latinDigit {c : Char} (h : isDigit c = true) : (latinDigit c).isDigit = true := by
  have hdigit : ∀ k < 10, (Char.ofNat (48 + k)).isDigit = true := by decide
  unfold isDigit at h
  unfold latinDigit
  split at h
  · rename_i hascii
    rwa [if_pos hascii]
  · rename_i hascii
    rw [if_neg hascii]
    split
    · exact hdigit _ (Nat.mod_lt _ (by decide))
    · rename_i hnone
      obtain ⟨r, hr, hin⟩ := List.any_eq_true.1 h
      exact absurd hin (List.find?_eq_none.1 hnone r hr)

/-- A hexadecimal digit in ASCII is one. -/
theorem digitValue_latinDigit {c : Char} (h : Token.isHexDigit c = true) : digitValue (latinDigit c) < 16 := by
  by_cases hdigit : isDigit c = true
  · have hlatin := isDigit_latinDigit hdigit
    have hbounds := toNat_of_isDigit hlatin
    unfold digitValue
    rw [if_pos hlatin]
    omega
  · -- a letter, which is ASCII
    have hletter : 97 ≤ c.toNat ∧ c.toNat ≤ 102 ∨ 65 ≤ c.toNat ∧ c.toNat ≤ 70 := by
      simp only [Token.isHexDigit, hdigit, Bool.false_or, Bool.or_eq_true, Bool.and_eq_true, decide_eq_true_eq] at h
      exact h
    have hranges : ∀ n < 128, 97 ≤ n ∧ n ≤ 102 ∨ 65 ≤ n ∧ n ≤ 70 → digitValue (Char.ofNat n) < 16 := by decide
    rw [latinDigit, if_pos (by omega), ← Char.ofNat_toNat c]
    exact hranges c.toNat (by omega) hletter

/-- Digits of other scripts have no case. -/
theorem lowerChar_of_isDigit {c : Char} (h : isDigit c = true) (hc : ¬ c.toNat < 0x80) : lowerChar c = c := by
  have hapart : ∀ r ∈ caseRuns, ∀ d ∈ digitRanges, r.last < d.1 ∨ d.2 < r.first := by decide +kernel
  rw [isDigit, if_neg hc] at h
  obtain ⟨d, hd, hin⟩ := List.any_eq_true.1 h
  simp only [Bool.and_eq_true, decide_eq_true_eq] at hin
  rw [lowerChar, if_neg hc]
  split
  · rename_i r hr
    have hholds := List.find?_some hr
    simp only [CaseRun.holds, Bool.and_eq_true, decide_eq_true_eq] at hholds
    have := hapart r (List.mem_of_find?_eq_some hr) d hd
    omega
  · rfl

end Text

open Text (IsAscii IsNumberIn latinDigit)

namespace DataItem

/-- A spelling has one value. -/
theorem Numeral.unique {cs : List Char} {q q' : ℚ} (h : Numeral cs q) (h' : Numeral cs q') : q = q' := by
  obtain ⟨item, hitem, hvalue⟩ := h.number? false
  obtain ⟨item', hitem', hvalue'⟩ := h'.number? false
  obtain rfl := Option.some.inj (hitem.symm.trans hitem')
  simpa using hvalue.symm.trans hvalue'

/-- A decimal number keeps its value. -/
theorem Numeral.decimal {cs : List Char} {q : ℚ} (h : Numeral cs q) (hc : cs.head? ≠ some '&') :
    Js.number? (Js.unsignedLiteral .decimal cs).toList = some q := by
  cases h with
  | whole hne hds he => exact Js.number?_whole hds hne he.exponent?
  | point hne hds he => exact Js.number?_point hds hne he.exponent?
  | _ => exact absurd rfl hc

end DataItem

namespace Js

/-! ## Numeric literals are ASCII -/

theorem ascii_of_isDigit {cs : List Char} (h : ∀ c ∈ cs, c.isDigit = true) : IsAscii cs := fun c hc => by
  have := Text.toNat_of_isDigit (h c hc)
  omega

theorem ascii_of_isNumberIn {base : Nat} (hbase : base ≤ 16) {cs : List Char} (h : IsNumberIn base cs) :
    IsAscii cs := by
  have hdigits : ∀ c ∈ Text.allDigits, c.toNat < 0x80 := Text.forall_of_all (by decide)
  exact fun c hc => hdigits c (Text.mem_allDigits (Nat.lt_of_lt_of_le (h.2 c hc) hbase))

theorem ascii_of_exponent? {cs : List Char} {n : ℤ} (h : exponent? cs = some n) : IsAscii cs := by
  have hnatural : ∀ {ds : List Char}, Text.natural? ds ≠ none → IsAscii ds := by
    intro ds hds
    obtain ⟨k, hk⟩ := Option.ne_none_iff_exists'.1 hds
    exact ascii_of_isDigit (Text.natural?_eq_some_iff.1 hk).2.1
  cases cs with
  | nil => exact fun c hc => by cases hc
  | cons e ds =>
    simp only [exponent?] at h
    split at h
    · rename_i hmark
      refine List.forall_mem_cons.2 ⟨by rcases hmark with rfl | rfl <;> decide, ?_⟩
      unfold Text.signed? at h
      split at h
      · exact List.forall_mem_cons.2 ⟨by decide, hnatural fun hnone => by rw [hnone] at h; cases h⟩
      · exact List.forall_mem_cons.2 ⟨by decide, hnatural fun hnone => by rw [hnone] at h; cases h⟩
      · exact hnatural fun hnone => by rw [hnone] at h; cases h
    · cases h

theorem ascii_of_decimal? {cs : List Char} {q : ℚ} (h : decimal? cs = some q) : IsAscii cs := by
  have htake : ∀ ds : List Char, IsAscii (ds.takeWhile Char.isDigit) := fun ds =>
    ascii_of_isDigit fun c hc => List.all_eq_true.1 List.all_takeWhile c hc
  unfold decimal? at h
  simp only [Option.ite_none_right_eq_some] at h
  obtain ⟨n, hexp, -⟩ := Option.map_eq_some_iff.1 h.2
  rw [← List.takeWhile_append_dropWhile (p := Char.isDigit) (l := cs)]
  refine List.forall_mem_append.2 ⟨htake cs, ?_⟩
  split at hexp
  · rename_i ds hafter
    rw [hafter, ← List.takeWhile_append_dropWhile (p := Char.isDigit) (l := ds)]
    exact List.forall_mem_cons.2 ⟨by decide, List.forall_mem_append.2 ⟨htake ds, ascii_of_exponent? hexp⟩⟩
  · exact ascii_of_exponent? hexp

theorem ascii_of_number? {cs : List Char} {q : ℚ} (h : number? cs = some q) : IsAscii cs := by
  have hprefixed : ∀ {x : Char} {ds : List Char}, x.toNat < 0x80 → IsAscii ds → IsAscii ('0' :: x :: ds) :=
    fun hx hds => List.forall_mem_cons.2 ⟨by decide, List.forall_mem_cons.2 ⟨hx, hds⟩⟩
  unfold number? at h
  split at h
  · split at h
    · rename_i hx
      refine hprefixed (by rcases hx with rfl | rfl <;> decide) (ascii_of_isNumberIn (Nat.le_refl 16) ?_)
      exact (Option.ite_none_right_eq_some.1 h).1
    split at h
    · rename_i hx
      refine hprefixed (by rcases hx with rfl | rfl <;> decide) (ascii_of_isNumberIn (by decide : 2 ≤ 16) ?_)
      exact (Option.ite_none_right_eq_some.1 h).1
    · exact ascii_of_decimal? h
  · exact ascii_of_decimal? h

/-- **A literal that starts with no quote is ASCII.** -/
theorem isAscii_of_literal? {s : String} {v : Value} (h : literal? s = some v) (hs : s.toList.head? ≠ some '"') :
    IsAscii s.toList := by
  unfold literal? at h
  split at h
  · rename_i hquote
    rw [hquote] at hs
    exact absurd rfl hs
  · rename_i hminus
    obtain ⟨q, hq, -⟩ := Option.map_eq_some_iff.1 h
    rw [hminus]
    exact List.forall_mem_cons.2 ⟨by decide, ascii_of_number? hq⟩
  · obtain ⟨q, hq, -⟩ := Option.map_eq_some_iff.1 h
    exact ascii_of_number? hq

/-! ## Which characters a literal takes over -/

theorem numberLiteral_unsigned {radix : Radix} {cs : List Char} (h : cs.head? ≠ some '-') :
    numberLiteral radix (String.ofList cs) = unsignedLiteral radix cs := by
  have hsign : splitSign (String.ofList cs) = ("", cs) := by
    unfold splitSign
    rw [String.toList_ofList]
    split
    · exact absurd rfl h
    · rfl
  rw [numberLiteral, hsign, String.empty_append]

/-- Only zeros are left out of a decimal number, and nothing but a zero is added. -/
theorem unsignedLiteral_decimal (cs : List Char) : ∃ zeros rest, cs = zeros ++ rest ∧ (∀ c ∈ zeros, c = '0') ∧
    ((unsignedLiteral .decimal cs).toList = rest ∨ (unsignedLiteral .decimal cs).toList = '0' :: rest) := by
  simp only [unsignedLiteral, String.toList_ofList]
  split
  · refine ⟨cs.takeWhile (· == '0'), cs.dropWhile (· == '0'), List.takeWhile_append_dropWhile.symm, ?_, ?_⟩
    · exact fun c hc => beq_iff_eq.1 (List.all_eq_true.1 List.all_takeWhile c hc)
    · unfold dropLeadingZeros
      dsimp only
      split
      · exact .inl rfl
      · exact .inr rfl
  · exact ⟨[], cs, rfl, by simp, .inl rfl⟩

end Js

namespace Token

open DataItem (Numeral Exponent)
open Parse (radix?)

/-! ## The value of a number -/

/-- An exponent in the digits of any script. -/
theorem exponent_denotes (cs : List Char) : ∃ n, Exponent ((exponent cs).map latinDigit) n := by
  have hdigits : ∀ {d : Char} {r : List Char}, Text.isDigit d = true →
      ((d :: r).takeWhile Text.isDigit).map latinDigit ≠ [] ∧
        ∀ c ∈ ((d :: r).takeWhile Text.isDigit).map latinDigit, c.isDigit = true := by
    intro d r hd
    refine ⟨by simp [hd], fun c hc => ?_⟩
    obtain ⟨b, hb, rfl⟩ := List.mem_map.1 hc
    exact Text.isDigit_latinDigit (List.all_eq_true.1 List.all_takeWhile b hb)
  have hmark : ∀ {e : Char}, e = 'e' ∨ e = 'E' → latinDigit e = e := by rintro e (rfl | rfl) <;> decide
  by_cases hexp : HasExponent cs
  · rcases hexp with ⟨e, d, r, rfl, he, hd⟩ | ⟨e, s, d, r, rfl, he, hs, hd⟩
    · rw [exponent_digits he hd, List.map_cons, hmark he]
      exact ⟨_, .bare he (hdigits hd).1 (hdigits hd).2⟩
    · rw [exponent_signed he hs hd, List.map_cons, List.map_cons, hmark he]
      rcases hs with rfl | rfl
      · exact ⟨_, .plus he (hdigits hd).1 (hdigits hd).2⟩
      · exact ⟨_, .minus he (hdigits hd).1 (hdigits hd).2⟩
  · rw [exponent_eq_nil hexp]
    exact ⟨0, .absent⟩

/-- **A decimal number in the digits of any script**, which starts with a digit or with a point before one. -/
theorem numeral_denotes {c : Char} {r : List Char}
    (hstart : (Text.isDigit c || (c == '.' && r.head?.any Text.isDigit)) = true) :
    ∃ q, Numeral ((numeral (c :: r)).map latinDigit) q := by
  obtain ⟨whole, part, exp, rest, hcs, hparts⟩ := exists_numeralParts (c :: r)
  have hexp := exponent_denotes (exp ++ rest)
  rw [hparts.exp] at hexp
  obtain ⟨n, hexp⟩ := hexp
  have hmap : ∀ {ds : List Char}, (∀ d ∈ ds, Text.isDigit d = true) → ∀ d ∈ ds.map latinDigit, d.isDigit = true := by
    intro ds hds d hd
    obtain ⟨b, hb, rfl⟩ := List.mem_map.1 hd
    exact Text.isDigit_latinDigit (hds b hb)
  have hwhole := forall_of_takeWhile hparts.whole
  have hpart := hparts.part
  -- without digits in front the number starts with its point
  have hpoint : whole = [] → part = '.' :: r.takeWhile Text.isDigit ∧ r.takeWhile Text.isDigit ≠ [] := by
    rintro rfl
    have hdigit : Text.isDigit c = false := by
      by_contra hd
      have htake := hparts.whole
      rw [← hcs, List.takeWhile_cons_of_pos (Bool.not_eq_false _ ▸ hd)] at htake
      cases htake
    rw [hdigit, Bool.false_or, Bool.and_eq_true, beq_iff_eq] at hstart
    obtain ⟨rfl, hnext⟩ := hstart
    rw [List.nil_append] at hcs
    rw [← hcs] at hpart
    refine ⟨hpart.symm, ?_⟩
    cases r with
    | nil => cases hnext
    | cons d r => simp [show Text.isDigit d = true from hnext]
  rw [hcs, hparts.numeral_eq, List.append_assoc, List.map_append, List.map_append]
  by_cases hdot : (part ++ (exp ++ rest)).head? = some '.'
  · obtain ⟨ps, rfl, hps⟩ : ∃ ps, part = '.' :: ps ∧ ∀ d ∈ ps, Text.isDigit d = true := by
      cases hafter : part ++ (exp ++ rest) with
      | nil =>
        rw [hafter] at hdot
        cases hdot
      | cons d ds =>
        rw [hafter] at hdot hpart
        obtain rfl : d = '.' := Option.some.inj hdot
        exact ⟨_, hpart.symm, fun d hd => List.all_eq_true.1 List.all_takeWhile d hd⟩
    refine ⟨_, .point (n := n) (fun hnil => ?_) (List.forall_mem_append.2 ⟨hmap hwhole, hmap hps⟩) hexp⟩
    rw [List.append_eq_nil_iff, List.map_eq_nil_iff, List.map_eq_nil_iff] at hnil
    obtain ⟨hdigits, hne⟩ := hpoint hnil.1
    exact hne ((List.cons.inj hdigits).2 ▸ hnil.2)
  · rw [fraction_eq_nil hdot] at hpart
    subst hpart
    refine ⟨_, .whole (fun hnil => ?_) (hmap hwhole) hexp⟩
    cases (hpoint (List.map_eq_nil_iff.1 hnil)).1

/-- The digits of a hexadecimal number. -/
theorem isNumberIn_of_isHexText {ds : List Char} (h : isHexText ds = true) : IsNumberIn 16 (ds.map latinDigit) := by
  rw [DataItem.isHexText_iff] at h
  refine ⟨by simpa using h.1, fun d hd => ?_⟩
  obtain ⟨b, hb, rfl⟩ := List.mem_map.1 hd
  exact Text.digitValue_latinDigit (h.2 b hb)

/-- **A number token and its literal.** The number has a value, and this is the value of the literal if it is written in
ASCII. Otherwise the literal cannot be read. -/
structure Valued (radix : Radix) (span : List Char) (lexeme : String) (q : ℚ) : Prop where
  denotes : Numeral (span.map latinDigit) q
  ascii : IsAscii span → Js.literal? (Js.numberLiteral radix lexeme) = some (.number q)
  other : ¬ IsAscii span → Js.literal? (Js.numberLiteral radix lexeme) = none

/-- A literal that starts with a digit or a point is not read if it holds a character that is not ASCII. -/
theorem literal?_eq_none {radix : Radix} {cs : List Char} (hsign : cs.head? ≠ some '-')
    (hquote : (Js.unsignedLiteral radix cs).toList.head? ≠ some '"')
    (h : ∃ c ∈ (Js.unsignedLiteral radix cs).toList, ¬ c.toNat < 0x80) :
    Js.literal? (Js.numberLiteral radix (String.ofList cs)) = none := by
  rw [Js.numberLiteral_unsigned hsign]
  cases hread : Js.literal? (Js.unsignedLiteral radix cs) with
  | none => rfl
  | some v =>
    obtain ⟨c, hc, hother⟩ := h
    exact absurd (Js.isAscii_of_literal? hread hquote c hc) hother

theorem exists_of_not_ascii {cs : List Char} (h : ¬ IsAscii cs) : ∃ c ∈ cs, ¬ c.toNat < 0x80 := by
  by_contra hnone
  exact h fun c hc => by_contra fun hother => hnone ⟨c, hc, hother⟩

/-- **A decimal number.** -/
theorem number_valued {c : Char} {r : List Char}
    (hstart : (Text.isDigit c || (c == '.' && r.head?.any Text.isDigit)) = true) :
    ∃ q, Valued .decimal (numeral (c :: r)) (String.ofList (numeral (c :: r))) q := by
  have hfirst : Text.isDigit c = true ∨ c = '.' := by
    rw [Bool.or_eq_true, Bool.and_eq_true, beq_iff_eq] at hstart
    exact hstart.imp_right And.left
  obtain ⟨q, hq⟩ := numeral_denotes hstart
  have hchars := (numeral_spec (c :: r)).2
  have hsign : (numeral (c :: r)).head? ≠ some '-' := by
    rw [numeral_cons hfirst]
    intro hc
    rw [Option.some.inj hc] at hfirst
    rcases hfirst with h | h <;> cases h
  have hnot : ∀ m : Char, isNumeralPart m = false → m ∉ numeral (c :: r) := fun m hm hmem =>
    absurd (hchars m hmem) (by rw [hm]; decide)
  refine ⟨q, hq, fun hascii => ?_, fun hother => ?_⟩
  · rw [Text.map_latinDigit hascii] at hq
    exact Js.literal?_numberLiteral false hsign (hq.decimal fun hc => hnot '&' (by decide) (List.mem_of_head? hc))
  · obtain ⟨d, hd, hdother⟩ := exists_of_not_ascii hother
    obtain ⟨zeros, rest, hcs, hzeros, hliteral⟩ := Js.unsignedLiteral_decimal (numeral (c :: r))
    have hrest : d ∈ rest := by
      rw [hcs, List.mem_append] at hd
      refine hd.resolve_left fun hzero => hdother ?_
      rw [hzeros d hzero]
      decide
    refine literal?_eq_none hsign (fun hquote => ?_) ⟨d, ?_, hdother⟩
    · refine hnot '"' (by decide) ?_
      rw [hcs]
      rcases hliteral with hl | hl <;> rw [hl] at hquote
      · exact List.mem_append_right _ (List.mem_of_head? hquote)
      · cases hquote
    · rcases hliteral with hl | hl <;> rw [hl]
      · exact hrest
      · exact List.mem_cons_of_mem _ hrest

/-- **A hexadecimal number.** -/
theorem hex_valued {lead digits : List Char} (hlead : lead ∈ [[], ['h'], ['H']]) (hdigits : isHexText digits = true) :
    ∃ q, Valued .hex ('&' :: lead ++ digits) (String.ofList (digits.map Char.toLower)) q := by
  have hascii : IsAscii ('&' :: lead) := by
    simp only [List.mem_cons, List.not_mem_nil, or_false] at hlead
    rcases hlead with rfl | rfl | rfl <;> exact Text.forall_of_all (by decide)
  have hnumber := isNumberIn_of_isHexText hdigits
  obtain ⟨hne, hhex⟩ := DataItem.isHexText_iff.1 hdigits
  have hsign : (digits.map Char.toLower).head? ≠ some '-' := by
    obtain ⟨d, r, rfl⟩ := List.exists_cons_of_ne_nil hne
    intro hd
    have hsame : SameLetter '-' d := Option.some.inj hd
    exact absurd (hhex d List.mem_cons_self) (by rw [hsame.isHexDigit]; decide)
  refine ⟨Text.valueIn 16 (digits.map latinDigit), ?_, fun hspan => ?_, fun hother => ?_⟩
  · rw [List.map_append, Text.map_latinDigit hascii]
    simp only [List.mem_cons, List.not_mem_nil, or_false] at hlead
    rcases hlead with rfl | rfl | rfl
    · exact .hex hnumber
    · exact .hexMarked (.inl rfl) hnumber
    · exact .hexMarked (.inr rfl) hnumber
  · rw [Text.map_latinDigit (List.forall_mem_append.1 hspan).2] at hnumber ⊢
    exact Js.literal?_numberLiteral false hsign (Js.number?_hex hnumber)
  · obtain ⟨d, hd, hdother⟩ := exists_of_not_ascii hother
    have hd : d ∈ digits := (List.mem_append.1 hd).resolve_left fun hmem => hdother (hascii d hmem)
    have hdigit : Text.isDigit d = true := by
      have hletters := hhex d hd
      simp only [isHexDigit, Bool.or_eq_true, Bool.and_eq_true, decide_eq_true_eq] at hletters
      rcases hletters with (h | ⟨-, h⟩) | ⟨-, h⟩
      · exact h
      · exact absurd (Nat.lt_of_le_of_lt h (by decide)) hdother
      · exact absurd (Nat.lt_of_le_of_lt h (by decide)) hdother
    have hcapital : ∀ c ∈ capitals, c.toNat < 0x80 := Text.forall_of_all (by decide)
    have hlower : d.toLower = d := (toLower_eq_self_or_mem d).resolve_right fun h => hdother (hcapital d h)
    have hsame : Text.lowerChar d.toLower = d := by rw [hlower, Text.lowerChar_of_isDigit hdigit hdother]
    -- the digit is taken over as it is
    refine literal?_eq_none hsign ?_ ⟨d, ?_, hdother⟩
    · simp [Js.unsignedLiteral]
    · have hmem := List.mem_map_of_mem (f := Text.lowerChar) (List.mem_map_of_mem (f := Char.toLower) hd)
      rw [hsame] at hmem
      simp only [Js.unsignedLiteral, Text.lower, String.toList_append, String.toList_ofList]
      exact List.mem_append_right _ hmem

/-- **A binary number**, which is always ASCII. -/
theorem binary_valued {lead digits : List Char} (hlead : lead ∈ [['x'], ['X']]) (hne : digits ≠ [])
    (hdigits : ∀ d ∈ digits, d = '0' ∨ d = '1') :
    ∃ q, Valued .binary ('&' :: lead ++ digits) (String.ofList (digits.map Char.toLower)) q := by
  have hdigit : ∀ d ∈ digits, d.toNat < 0x80 ∧ d.toLower = d ∧ Text.digitValue d < 2 ∧ d ≠ '-' := by
    intro d hd
    rcases hdigits d hd with rfl | rfl <;> decide
  have hascii : IsAscii ('&' :: lead ++ digits) := by
    refine List.forall_mem_append.2 ⟨?_, fun d hd => (hdigit d hd).1⟩
    simp only [List.mem_cons, List.not_mem_nil, or_false] at hlead
    rcases hlead with rfl | rfl <;> exact Text.forall_of_all (by decide)
  have hnumber : IsNumberIn 2 digits := ⟨hne, fun d hd => (hdigit d hd).2.2.1⟩
  have hlower : digits.map Char.toLower = digits :=
    (List.map_congr_left fun d hd => (hdigit d hd).2.1).trans (List.map_id digits)
  rw [hlower]
  refine ⟨Text.valueIn 2 digits, ?_, fun _ => ?_, fun hother => absurd hascii hother⟩
  · rw [Text.map_latinDigit hascii]
    simp only [List.mem_cons, List.not_mem_nil, or_false] at hlead
    rcases hlead with rfl | rfl
    · exact .binary (.inl rfl) hnumber
    · exact .binary (.inr rfl) hnumber
  · exact Js.literal?_numberLiteral false (fun hd => (hdigit '-' (List.mem_of_head? hd)).2.2.2 rfl)
      (Js.number?_binary hnumber)

/-- **Every number that is scanned** has a value, which its literal has too or which is lost. -/
theorem piece_valued {c : Char} {r : List Char} {p : Piece} {radix : Radix} (hp : piece c r = .ok p)
    (hk : radix? p.kind = some radix) : ∃ q, Valued radix (c :: p.tail) p.lexeme q := by
  cases piece_read hp with
  | number hfront hc hnumeral =>
    obtain rfl : .decimal = radix := Option.some.inj hk
    rw [← hnumeral]
    exact number_valued hc
  | hex hfront hc hlead hdigits =>
    subst hc
    obtain rfl : .hex = radix := Option.some.inj hk
    exact hex_valued hlead hdigits
  | binary hfront hc hlead hne hdigits =>
    subst hc
    obtain rfl : .binary = radix := Option.some.inj hk
    exact binary_valued hlead hne hdigits
  | sign hfront hsign =>
    rw [show radix? _ = none from radix?_of_sign hsign] at hk
    cases hk
  | _ => cases hk

/-- **The literal of a number token.** Over its stretch of the source it spells a number in the digits of some script,
which has one value. The literal is read as this value if the number is written in ASCII, and otherwise it is no
literal. -/
theorem scan_number_literal (source : List Char) {t : Token} (ht : t ∈ (scan source).tokens) {radix : Radix}
    (hk : radix? t.kind = some radix) : ∃ before span after, Source.normalize source = before ++ span ++ after ∧
      t.pos = before.length ∧ t.stop = before.length + span.length ∧ ∃ q : ℚ,
        (∀ q', Numeral (span.map latinDigit) q' ↔ q' = q) ∧
        Js.literal? (Js.numberLiteral radix t.lexeme) =
          if span.all fun c => c.toNat < 0x80 then some (.number q) else none := by
  have hkind : t.kind ∉ [.eof, .dataItems] := by
    intro hmem
    simp only [List.mem_cons, List.not_mem_nil, or_false] at hmem
    rcases hmem with h | h <;> rw [h] at hk <;> cases hk
  obtain ⟨before, c, r, p, row, hsource, hp, rfl⟩ := (scanned _ _ _).piece t ht hkind
  obtain ⟨after, rfl⟩ := (piece_laid hp).front
  obtain ⟨q, hq⟩ := piece_valued hp hk
  refine ⟨before, c :: p.tail, after, by simpa using hsource, by simp [Piece.token], ?_, q, fun q' => ?_, ?_⟩
  · simp only [Piece.token, List.length_cons]
    omega
  · exact ⟨fun h => h.unique hq.denotes, fun h => h ▸ hq.denotes⟩
  · split
    · rename_i hascii
      exact hq.ascii fun d hd => of_decide_eq_true (List.all_eq_true.1 hascii d hd)
    · rename_i hother
      exact hq.other fun hascii => hother (List.all_eq_true.2 fun d hd => decide_eq_true (hascii d hd))

/-- Leading zeros and an exponent. -/
theorem scan_number_literal_zeros : (⟨.number, "007.50E-1", 1, 3, 12⟩ : Token) ∈ (scan "10 007.50E-1".toList).tokens ∧
    ∃ before span after, Source.normalize "10 007.50E-1".toList = before ++ span ++ after ∧ (3 : Int) = before.length ∧
      (12 : Int) = before.length + span.length ∧ ∃ q : ℚ, (∀ q', Numeral (span.map latinDigit) q' ↔ q' = q) ∧
        Js.literal? (Js.numberLiteral .decimal "007.50E-1") =
          if span.all fun c => c.toNat < 0x80 then some (.number q) else none := by
  have hmem : (⟨.number, "007.50E-1", 1, 3, 12⟩ : Token) ∈ (scan "10 007.50E-1".toList).tokens := by decide +kernel
  exact ⟨hmem, scan_number_literal _ hmem rfl⟩

/-- **The digit three in Arabic** is scanned as a number of value 3, and its literal is none. -/
theorem arabic_digit_has_no_literal : (scan ['\u0663']).tokens = [⟨.number, "\u0663", 1, 0, 1⟩, ⟨.eof, "", 1, 1, 1⟩] ∧
    Numeral (['\u0663'].map latinDigit) 3 ∧ Js.literal? (Js.numberLiteral .decimal "\u0663") = none := by
  refine ⟨by decide +kernel, ?_, by decide +kernel⟩
  have hthree : ['\u0663'].map latinDigit = ['3'] ++ [] := by decide +kernel
  have hvalue : (3 : ℚ) = Text.digitsValue ['3'] * (10 : ℚ) ^ (0 : ℤ) := by
    simp [show Text.digitsValue ['3'] = 3 from rfl]
  rw [hthree, hvalue]
  exact .whole (by simp) (by simp) .absent

end Token

end Locomotive
