import Locomotive.Proofs.Token.Scan
import Locomotive.Stmt.Parse

/-!
# Labels

A label is written in decimal digits without leading zeros, however many of them its number has
in the source. So two numbers are the same label exactly if they have the same value.

* `IsLabel`: the texts of labels.
* `Parse.label?_eq_some_iff`: the label of a number.
-/

namespace Locomotive

open Js (Unmarked)

/-! ## Digits -/

theorem isDigit_of_mem_toString {n : Nat} {c : Char} (h : c ∈ (toString n).toList) : c.isDigit = true := by
  rw [Nat.toString_eq_ofList_toDigits, String.toList_ofList] at h
  exact Nat.isDigit_of_mem_toDigits (by decide) (by decide) h

namespace Text

/-- The digits of a number are read as this number. -/
theorem digitsValue_toString (n : Nat) : digitsValue (toString n).toList = n := by
  have := Nat.ofDigitChars_ten_toDigits (n := n)
  unfold Nat.ofDigitChars at this
  rw [Nat.toString_eq_ofList_toDigits, String.toList_ofList]
  unfold digitsValue
  simpa [Nat.mul_comm] using this

theorem digitChar_toNat_sub {c : Char} (h : c.isDigit = true) : Nat.digitChar (c.toNat - 48) = c := by
  have hc := toNat_of_isDigit h
  apply Char.toNat_inj.1
  rw [Nat.toNat_digitChar_of_lt_ten (by omega)]
  omega

/-- The digits of a number that is read on from a value other than zero. -/
theorem toDigits_foldl {cs : List Char} (h : ∀ c ∈ cs, c.isDigit = true) {n : Nat} (hn : 0 < n) :
    Nat.toDigits 10 (cs.foldl (fun n c => n * 10 + (c.toNat - 48)) n) = Nat.toDigits 10 n ++ cs := by
  induction cs generalizing n with
  | nil => simp
  | cons c cs ih =>
    obtain ⟨hc, hcs⟩ := List.forall_mem_cons.1 h
    have hrange := toNat_of_isDigit hc
    have hdigit : c.toNat - 48 < 10 := by omega
    have hstep : Nat.toDigits 10 (n * 10 + (c.toNat - 48)) = Nat.toDigits 10 n ++ [c] := by
      rw [Nat.mul_comm, ← Nat.toDigits_append_toDigits (by decide) hn hdigit, Nat.toDigits_of_lt_base hdigit,
        digitChar_toNat_sub hc]
    rw [List.foldl_cons, ih hcs (by omega), hstep, List.append_assoc, List.singleton_append]

/-- **Digits without leading zeros** are those of their value. -/
theorem toDigits_digitsValue {c : Char} {cs : List Char} (hzero : c ≠ '0') (h : ∀ d ∈ c :: cs, d.isDigit = true) :
    Nat.toDigits 10 (digitsValue (c :: cs)) = c :: cs := by
  obtain ⟨hc, hcs⟩ := List.forall_mem_cons.1 h
  have hrange := toNat_of_isDigit hc
  have hpos : 0 < c.toNat - 48 := by
    have hne : c.toNat ≠ 48 := fun heq => hzero (Char.toNat_inj.1 heq)
    omega
  have hdigit : c.toNat - 48 < 10 := by omega
  unfold digitsValue
  rw [List.foldl_cons, Nat.zero_mul, Nat.zero_add, toDigits_foldl hcs hpos, Nat.toDigits_of_lt_base hdigit,
    digitChar_toNat_sub hc, List.singleton_append]

theorem digitsValue_dropWhile (cs : List Char) : digitsValue (cs.dropWhile (· == '0')) = digitsValue cs := by
  induction cs with
  | nil => rfl
  | cons c cs ih =>
    by_cases hc : c = '0'
    · subst hc
      rw [List.dropWhile_cons_of_pos (by decide), ih]
      rfl
    · rw [List.dropWhile_cons_of_neg (by simpa using hc)]

/-- A number without a sign is made of digits. -/
theorem integer?_of_isNumeral {s : String} (hs : Token.IsNumeral s) {v : Int} (h : integer? s = some v) :
    (∀ c ∈ s.toList, c.isDigit = true) ∧ v = digitsValue s.toList := by
  unfold integer? integerOf? at h
  obtain ⟨hsigned, -⟩ := Option.filter_eq_some_iff.1 h
  have hnatural : ∀ cs : List Char, (natural? cs).map (fun n => (n : Int)) = some v →
      (∀ c ∈ cs, c.isDigit = true) ∧ v = digitsValue cs := by
    intro cs hcs
    obtain ⟨n, hn, rfl⟩ := Option.map_eq_some_iff.1 hcs
    unfold natural? at hn
    split at hn
    · rename_i hdigits
      simp only [Bool.and_eq_true, List.all_eq_true] at hdigits
      cases hn
      exact ⟨hdigits.2, rfl⟩
    · cases hn
  -- neither sign is a digit or a point
  obtain ⟨c, hc, hfirst⟩ := hs
  have hsign : ∀ d, s.toList.head? = some d → d ≠ '-' ∧ d ≠ '+' := by
    intro d hd
    rw [hd, Option.mem_some_iff] at hc
    subst hc
    constructor <;> rintro rfl <;> exact absurd hfirst (by decide)
  unfold signed? at hsigned
  split at hsigned
  · rename_i hcs
    exact absurd rfl (hsign '-' (by rw [hcs]; rfl)).1
  · rename_i hcs
    exact absurd rfl (hsign '+' (by rw [hcs]; rfl)).2
  · exact hnatural _ hsigned

theorem natural?_eq_some_iff {cs : List Char} {n : Nat} :
    natural? cs = some n ↔ cs ≠ [] ∧ (∀ c ∈ cs, c.isDigit = true) ∧ digitsValue cs = n := by
  unfold natural?
  rw [Option.ite_none_right_eq_some, Option.some.injEq]
  simp [and_assoc]

/-- A whole number that starts with neither sign. -/
theorem signed?_unsigned {cs : List Char} (h : ∀ c ∈ cs.head?, c ≠ '-' ∧ c ≠ '+') :
    signed? cs = (natural? cs).map fun n : Nat => (n : Int) := by
  unfold signed?
  split
  · exact absurd rfl (h '-' rfl).1
  · exact absurd rfl (h '+' rfl).2
  · cases natural? cs <;> rfl

theorem signed?_digits {cs : List Char} (hne : cs ≠ []) (h : ∀ c ∈ cs, c.isDigit = true) :
    signed? cs = some (digitsValue cs : Int) := by
  have hsign : ∀ c ∈ cs.head?, c ≠ '-' ∧ c ≠ '+' := by
    intro c hc
    have hdigit := h c (List.mem_of_mem_head? hc)
    constructor <;> rintro rfl <;> exact absurd hdigit (by decide)
  rw [signed?_unsigned hsign, natural?_eq_some_iff.2 ⟨hne, h, rfl⟩]
  rfl

/-- **Leading zeros** do not change the value of a whole number, if one of them stays where nothing
else is left. A number with a sign has none. -/
theorem signed?_dropWhile {cs : List Char} {v : Int} (h : signed? cs = some v) :
    signed? (if cs.dropWhile (· == '0') = [] then ['0'] else cs.dropWhile (· == '0')) = some v := by
  by_cases hzero : cs.head? = some '0'
  · obtain ⟨r, rfl⟩ := List.head?_eq_some_iff.1 hzero
    rw [signed?_unsigned (by rintro c ⟨⟩; decide)] at h
    obtain ⟨n, hn, rfl⟩ := Option.map_eq_some_iff.1 h
    obtain ⟨-, hdigits, rfl⟩ := natural?_eq_some_iff.1 hn
    rw [← digitsValue_dropWhile]
    split
    · rename_i hnone
      rw [hnone]
      rfl
    · rename_i hsome
      exact signed?_digits hsome fun c hc => hdigits c ((List.dropWhile_suffix _).mem hc)
  · have hsame : cs.dropWhile (· == '0') = cs := by
      cases cs with
      | nil => rfl
      | cons c r => exact List.dropWhile_cons_of_neg (by simpa using hzero)
    rw [hsame, if_neg (by rintro rfl; cases h), h]

end Text

/-! ## Labels -/

/-- **The text of a label** is a number in decimal digits, without leading zeros. -/
def IsLabel (s : String) : Prop := ∃ n : Nat, s = toString n

namespace IsLabel

theorem ne_empty {s : String} (h : IsLabel s) : s ≠ "" := by
  obtain ⟨n, rfl⟩ := h
  exact Nat.repr_ne_empty

theorem unmarked {s : String} (h : IsLabel s) : Unmarked s := by
  obtain ⟨n, rfl⟩ := h
  exact Js.unmarked_toString n

end IsLabel

theorem toString_inj {n m : Nat} : toString n = toString m ↔ n = m := by
  constructor
  · intro h
    have hdigits := congrArg String.toList h
    rw [Nat.toString_eq_repr, Nat.toString_eq_repr, Nat.toList_repr, Nat.toList_repr] at hdigits
    have hvalues := congrArg (fun ds => Nat.ofDigitChars 10 ds 0) hdigits
    simpa using hvalues
  · rintro rfl
    rfl

namespace Parse

/-- **The label of a number** is its value in decimal digits. -/
theorem label?_eq_some_iff {lexeme : String} (hn : Token.IsNumeral lexeme) {label : String} :
    label? lexeme = some label ↔ ∃ v : Nat, Text.integer? lexeme = some (v : Int) ∧ label = toString v := by
  unfold label?
  cases h : Text.integer? lexeme with
  | none => simp
  | some w =>
    obtain ⟨hdigits, rfl⟩ := Text.integer?_of_isNumeral hn h
    have hvalue := Text.digitsValue_dropWhile lexeme.toList
    -- what is left without the leading zeros is empty only for zero itself
    have hlabel : (if Text.dropZeros lexeme = "" then "0" else Text.dropZeros lexeme) =
        toString (Text.digitsValue lexeme.toList) := by
      unfold Text.dropZeros
      cases hrest : lexeme.toList.dropWhile (· == '0') with
      | nil =>
        rw [hrest] at hvalue
        rw [if_pos rfl, ← hvalue]
        rfl
      | cons c cs =>
        have hmem : ∀ d ∈ c :: cs, d.isDigit = true := fun d hd =>
          hdigits d ((List.dropWhile_suffix _).mem (by rw [hrest]; exact hd))
        have hzero : c ≠ '0' := by
          have hhead := List.head?_dropWhile_not (· == '0') lexeme.toList
          rw [hrest] at hhead
          simpa using hhead
        rw [hrest] at hvalue
        rw [if_neg (by simp), ← hvalue, Nat.toString_eq_ofList_toDigits, Text.toDigits_digitsValue hzero hmem]
    simp only [Option.isSome_some, if_true, Option.some.injEq, hlabel]
    constructor
    · rintro rfl
      exact ⟨_, rfl, rfl⟩
    · rintro ⟨v, hv, rfl⟩
      rw [show Text.digitsValue lexeme.toList = v by omega]

/-- **A number and its label** have the same value, also where the number has a sign. -/
theorem integer?_label {lexeme label : String} (h : label? lexeme = some label) :
    ∃ v, Text.integer? lexeme = some v ∧ Text.integer? label = some v := by
  unfold label? at h
  rw [Option.ite_none_right_eq_some] at h
  obtain ⟨hvalue, hlabel⟩ := h
  obtain ⟨v, hv⟩ := Option.isSome_iff_exists.1 hvalue
  refine ⟨v, hv, ?_⟩
  have hlist : label.toList = if lexeme.toList.dropWhile (· == '0') = [] then ['0']
      else lexeme.toList.dropWhile (· == '0') := by
    rw [← Option.some.inj hlabel, Text.dropZeros]
    cases hrest : lexeme.toList.dropWhile (· == '0') with
    | nil => rfl
    | cons c cs => rw [if_neg (by simp), String.toList_ofList, if_neg (by simp)]
  obtain ⟨hsigned, hword⟩ := Option.filter_eq_some_iff.1 hv
  rw [Text.integer?, Text.integerOf?, hlist, Text.signed?_dropWhile hsigned]
  exact Option.filter_eq_some_iff.2 ⟨rfl, hword⟩

theorem label?_isLabel {lexeme label : String} (h : label? lexeme = some label) (hn : Token.IsNumeral lexeme) :
    IsLabel label := by
  obtain ⟨v, -, rfl⟩ := (label?_eq_some_iff hn).1 h
  exact ⟨v, rfl⟩

end Parse

end Locomotive
