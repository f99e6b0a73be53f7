import Mathlib.Algebra.Field.Rat
import Locomotive.Js.Literal
import Locomotive.Proofs.Name
import Locomotive.Proofs.Stmt.Label

/-!
# The values of literals

What JavaScript reads a literal as: a string literal as the text that its characters and escapes stand
for, a numeric literal as the number that its digits spell, exactly and of any size. A string is read
back from its literal, and a number keeps its value although its leading zeros go.

* `Js.literal?`: the value of a literal.
* `Js.literal?_quote`: the literal of a text.
* `Js.number?_whole`, `_point`, `_hex`, `_binary`, `Js.literal?_numberLiteral`: the literals of numbers.
-/

namespace Locomotive

/-- A value that a program works with. -/
inductive Value where
  | text (s : String)
  | number (q : ℚ)
  deriving DecidableEq

namespace Text

/-! ## Digits -/

/-- The value of a digit, or 16 if the character is none. -/
def digitValue (c : Char) : Nat :=
  if c.isDigit then c.toNat - 48
  else if 'a' ≤ c ∧ c ≤ 'f' then c.toNat - 87
  else if 'A' ≤ c ∧ c ≤ 'F' then c.toNat - 55
  else 16

/-- The characters are digits of a base, and there is at least one. -/
def IsNumberIn (base : Nat) (cs : List Char) : Prop := cs ≠ [] ∧ ∀ c ∈ cs, digitValue c < base

instance (base : Nat) (cs : List Char) : Decidable (IsNumberIn base cs) :=
  decidable_of_iff ((!cs.isEmpty && cs.all fun c => decide (digitValue c < base)) = true) (by simp [IsNumberIn])

/-- The number that digits of a base spell, most significant first. -/
def valueIn (base : Nat) (cs : List Char) : Nat := cs.foldl (fun n c => n * base + digitValue c) 0

/-- What is checked for each character of a list holds of all of them. -/
theorem forall_of_all {p : Char → Prop} [DecidablePred p] {cs : List Char}
    (h : (cs.all fun c => decide (p c)) = true) : ∀ c ∈ cs, p c :=
  fun c hc => of_decide_eq_true (List.all_eq_true.1 h c hc)

/-- All digits up to base sixteen. -/
def allDigits : List Char := "0123456789abcdefABCDEF".toList

theorem mem_allDigits {c : Char} (h : digitValue c < 16) : c ∈ allDigits := by
  have hranges : ∀ n < 128, 48 ≤ n ∧ n ≤ 57 ∨ 97 ≤ n ∧ n ≤ 102 ∨ 65 ≤ n ∧ n ≤ 70 → Char.ofNat n ∈ allDigits := by
    decide
  have hc : 48 ≤ c.toNat ∧ c.toNat ≤ 57 ∨ 97 ≤ c.toNat ∧ c.toNat ≤ 102 ∨ 65 ≤ c.toNat ∧ c.toNat ≤ 70 := by
    unfold digitValue at h
    split at h
    · rename_i hdigit
      exact .inl (toNat_of_isDigit hdigit)
    split at h
    · rename_i hlower
      exact .inr (.inl hlower)
    split at h
    · rename_i hupper
      exact .inr (.inr hupper)
    · omega
  have hmem := hranges c.toNat (by omega) hc
  rwa [Char.ofNat_toNat] at hmem

theorem valueIn_append (base : Nat) (cs : List Char) (d : Char) :
    valueIn base (cs ++ [d]) = valueIn base cs * base + digitValue d := by
  simp [valueIn]

/-- Digits of a fixed width. -/
theorem valueIn_hexDigits (width n : Nat) : valueIn 16 (hexDigits width n) = n % 16 ^ width := by
  have hdigit : ∀ d < 16, digitValue (hexDigit d) = d := by decide
  induction width generalizing n with
  | zero => rw [Nat.pow_zero, Nat.mod_one]; rfl
  | succ width ih =>
    rw [hexDigits, valueIn_append, ih, hdigit _ (Nat.mod_lt _ (by decide)), Nat.pow_succ,
      Nat.mul_comm (16 ^ width) 16, Nat.mod_mul]
    omega

theorem isNumberIn_hexDigits (width n : Nat) : IsNumberIn 16 (hexDigits (width + 1) n) := by
  have hdigit : ∀ d < 16, digitValue (hexDigit d) < 16 := by decide
  refine ⟨by simp [hexDigits], ?_⟩
  generalize width + 1 = w
  induction w generalizing n with
  | zero => simp [hexDigits]
  | succ w ih =>
    refine List.forall_mem_append.2 ⟨ih _, ?_⟩
    simpa using hdigit _ (Nat.mod_lt _ (by decide))

/-- As many digits as needed. -/
theorem isNumberIn_toDigits (n : Nat) : IsNumberIn 16 (Nat.toDigits 16 n) ∧ valueIn 16 (Nat.toDigits 16 n) = n := by
  have hdigit : ∀ d < 16, digitValue d.digitChar = d := by decide
  induction n using Nat.strongRecOn with
  | ind n ih =>
    rw [Nat.toDigits_eq_if (by decide)]
    split
    · rename_i hlt
      refine ⟨⟨by simp, ?_⟩, ?_⟩
      · simpa [hdigit n hlt] using hlt
      · simp [valueIn, hdigit n hlt]
    · have hlt : n % 16 < 16 := Nat.mod_lt _ (by decide)
      obtain ⟨⟨hne, hall⟩, hvalue⟩ := ih (n / 16) (by omega)
      refine ⟨⟨by simp, List.forall_mem_append.2 ⟨hall, ?_⟩⟩, ?_⟩
      · simpa [hdigit _ hlt] using hlt
      · rw [valueIn_append, hvalue, hdigit _ hlt]
        omega

/-- Digits may be exchanged for others of the same values. -/
theorem valueIn_map {f : Char → Char} (hf : ∀ c ∈ allDigits, digitValue (f c) = digitValue c) {cs : List Char}
    (h : IsNumberIn 16 cs) : IsNumberIn 16 (cs.map f) ∧ valueIn 16 (cs.map f) = valueIn 16 cs := by
  have hvalue : ∀ c ∈ cs, digitValue (f c) = digitValue c := fun c hc => hf c (mem_allDigits (h.2 c hc))
  refine ⟨⟨by simpa using h.1, ?_⟩, ?_⟩
  · intro d hd
    obtain ⟨c, hc, rfl⟩ := List.mem_map.1 hd
    rw [hvalue c hc]
    exact h.2 c hc
  · unfold valueIn
    generalize 0 = n
    induction cs generalizing n with
    | nil => rfl
    | cons c cs ih =>
      rw [List.map_cons, List.foldl_cons, List.foldl_cons, hvalue c List.mem_cons_self]
      by_cases hcs : cs = []
      · rw [hcs]
        rfl
      · exact ih ⟨hcs, fun d hd => h.2 d (List.mem_cons_of_mem c hd)⟩
          (fun d hd => hvalue d (List.mem_cons_of_mem c hd)) _

/-- Digits of the same value may be exchanged at the front. -/
theorem digitsValue_append_congr {cs cs' : List Char} (h : digitsValue cs = digitsValue cs') (ds : List Char) :
    digitsValue (cs ++ ds) = digitsValue (cs' ++ ds) := by
  unfold digitsValue at h ⊢
  rw [List.foldl_append, List.foldl_append, h]

end Text

namespace Js

open Text (IsNumberIn valueIn digitValue digitsValue)

/-! ## Strings -/

/-- The character of a code point. -/
def charOf? (n : Nat) : Option Char := if n.isValidChar then some (Char.ofNat n) else none

theorem charOf?_toNat (c : Char) : charOf? c.toNat = some c := by
  unfold charOf?
  rw [if_pos (show c.toNat.isValidChar from c.valid), Char.ofNat_toNat]

/-- The character that hexadecimal digits are the code point of. -/
def charOfDigits? (cs : List Char) : Option Char := if IsNumberIn 16 cs then charOf? (valueIn 16 cs) else none

/-- The escapes of one character. -/
def shortEscapes : List (Char × Char) :=
  [('n', '\n'), ('r', '\r'), ('t', '\t'), ('b', '\x08'), ('v', '\x0b'), ('f', '\x0c'), ('"', '"'), ('\'', '\''),
    ('\\', '\\')]

/-- The character that an escape stands for, and what follows the escape; `cs` is what follows its
backslash. -/
def escape? (cs : List Char) : Option (Char × List Char) :=
  match cs with
  | [] => none
  | 'u' :: '\x7b' :: r =>
    match r.dropWhile (digitValue · < 16) with
    | '\x7d' :: rest => (charOfDigits? (r.takeWhile (digitValue · < 16))).map fun c => (c, rest)
    | _ => none
  | 'u' :: a :: b :: c :: d :: r => (charOfDigits? [a, b, c, d]).map fun c => (c, r)
  | x :: r => (shortEscapes.lookup x).map fun c => (c, r)

theorem length_of_escape? {cs rest : List Char} {c : Char} (h : escape? cs = some (c, rest)) :
    rest.length < cs.length := by
  unfold escape? at h
  split at h
  · cases h
  · rename_i r
    split at h
    · rename_i tail htail
      obtain ⟨d, -, hd⟩ := Option.map_eq_some_iff.1 h
      cases hd
      have hlen := (List.dropWhile_suffix (l := r) (digitValue · < 16)).length_le
      rw [htail] at hlen
      simp only [List.length_cons] at hlen ⊢
      omega
    · cases h
  · obtain ⟨d, -, hd⟩ := Option.map_eq_some_iff.1 h
    cases hd
    simp only [List.length_cons]
    omega
  · obtain ⟨d, -, hd⟩ := Option.map_eq_some_iff.1 h
    cases hd
    simp

/-- The text of a string literal; `cs` is what follows the opening quote. The closing quote is its last
character. -/
def stringBody? (cs : List Char) : Option (List Char) :=
  match cs with
  | [] => none
  | c :: r =>
    if c = '"' then if r.isEmpty then some [] else none
    else if c = '\\' then
      match _h : escape? r with
      | none => none
      | some (d, rest) => (stringBody? rest).map (d :: ·)
    else if c = '\n' ∨ c = '\r' then none
    else (stringBody? r).map (c :: ·)
termination_by cs.length
decreasing_by
  · have := length_of_escape? _h
    simp only [List.length_cons]
    omega
  · simp

/-- An escape, and what follows it. -/
theorem stringBody?_escape {cs rest : List Char} {d : Char} (h : escape? cs = some (d, rest)) :
    stringBody? ('\\' :: cs) = (stringBody? rest).map (d :: ·) := by
  rw [stringBody?, if_neg (by decide), if_pos rfl]
  split
  · rename_i hnone
    rw [hnone] at h
    cases h
  · rename_i hsome
    rw [hsome] at h
    cases h
    rfl

theorem stringBody?_plain {c : Char} (h : c ∉ ['"', '\\', '\n', '\r']) (cs : List Char) :
    stringBody? (c :: cs) = (stringBody? cs).map (c :: ·) := by
  simp only [List.mem_cons, List.not_mem_nil, or_false, not_or] at h
  obtain ⟨hquote, hslash, hbreak⟩ := h
  rw [stringBody?, if_neg hquote, if_neg hslash, if_neg (not_or.2 hbreak)]

/-- An escape by a code point with four digits. -/
theorem escape?_hexDigits {c : Char} (h : c.toNat < 0x10000) (rest : List Char) :
    escape? ('u' :: (Text.hexDigits 4 c.toNat ++ rest)) = some (c, rest) := by
  have hbrace : ∀ d < 16, Text.hexDigit d ≠ '\x7b' := by decide
  have hchar : charOfDigits? (Text.hexDigits 4 c.toNat) = some c := by
    unfold charOfDigits?
    rw [if_pos (Text.isNumberIn_hexDigits 3 _), Text.valueIn_hexDigits, Nat.mod_eq_of_lt (show c.toNat < 16 ^ 4 from h),
      charOf?_toNat]
  have hfour : ∃ a b d e, Text.hexDigits 4 c.toNat = [a, b, d, e] ∧ a ≠ '\x7b' :=
    ⟨_, _, _, _, rfl, hbrace _ (Nat.mod_lt _ (by decide))⟩
  obtain ⟨a, b, d, e, hdigits, ha⟩ := hfour
  rw [hdigits] at hchar ⊢
  simp only [List.cons_append, List.nil_append]
  unfold escape?
  split
  · rename_i heq
    cases heq
  · rename_i heq
    cases heq
    exact absurd rfl ha
  · rename_i heq
    cases heq
    rw [hchar]
    rfl
  · rename_i hnone heq
    cases heq
    exact absurd rfl (hnone _ _ _ _ _ rfl)

/-- An escape by a code point between braces. -/
theorem escape?_braces (c : Char) (rest : List Char) :
    escape? ('u' :: '\x7b' :: (Nat.toDigits 16 c.toNat ++ '\x7d' :: rest)) = some (c, rest) := by
  obtain ⟨hdigits, hvalue⟩ := Text.isNumberIn_toDigits c.toNat
  have hall : ∀ d ∈ Nat.toDigits 16 c.toNat, decide (digitValue d < 16) = true := by
    simpa using hdigits.2
  have hbrace : decide (digitValue '\x7d' < 16) = false := by decide
  simp only [escape?]
  rw [List.dropWhile_append_of_pos hall, List.takeWhile_append_of_pos hall,
    List.dropWhile_cons_of_neg (by simp [hbrace]), List.takeWhile_cons_of_neg (by simp [hbrace]), List.append_nil]
  unfold charOfDigits?
  rw [if_pos hdigits, hvalue, charOf?_toNat]
  rfl

/-- **One character** is read back, whatever follows it. -/
theorem stringBody?_quoteChar (c : Char) (rest : List Char) :
    stringBody? (quoteChar c ++ rest) = (stringBody? rest).map (c :: ·) := by
  have hplain : needsEscape '\n' = true ∧ needsEscape '\r' = true := by decide
  unfold quoteChar
  split
  · rename_i hq
    simp only [Bool.or_eq_true, beq_iff_eq] at hq
    rcases hq with rfl | rfl <;> exact stringBody?_escape rfl
  rename_i hq
  split
  · rename_i hc
    rw [beq_iff_eq] at hc
    subst hc
    exact stringBody?_escape rfl
  split
  · rename_i hc
    rw [beq_iff_eq] at hc
    subst hc
    exact stringBody?_escape rfl
  split
  · rename_i hc
    rw [beq_iff_eq] at hc
    subst hc
    exact stringBody?_escape rfl
  split
  · rename_i hescape
    have hlt : c.toNat < 0x10000 := by
      simp only [needsEscape, Bool.or_eq_true, Bool.and_eq_true, decide_eq_true_eq, beq_iff_eq] at hescape
      omega
    exact stringBody?_escape (escape?_hexDigits hlt rest)
  rename_i hescape
  split
  · simpa using stringBody?_escape (escape?_braces c rest)
  · refine stringBody?_plain ?_ rest
    simp only [Bool.or_eq_true, beq_iff_eq, not_or] at hq
    simp only [List.mem_cons, List.not_mem_nil, or_false, not_or]
    refine ⟨hq.1, hq.2, ?_, ?_⟩
    · rintro rfl
      exact hescape hplain.1
    · rintro rfl
      exact hescape hplain.2

/-- **A text** is read back from its characters. -/
theorem stringBody?_quoted (cs : List Char) : stringBody? (cs.flatMap quoteChar ++ ['"']) = some cs := by
  induction cs with
  | nil =>
    rw [List.flatMap_nil, List.nil_append, stringBody?, if_pos rfl]
    rfl
  | cons c cs ih => rw [List.flatMap_cons, List.append_assoc, stringBody?_quoteChar, ih, Option.map_some]

/-! ## Numbers -/

/-- The exponent of a decimal literal, which may be missing. -/
def exponent? : List Char → Option ℤ
  | [] => some 0
  | e :: cs => if e = 'e' ∨ e = 'E' then Text.signed? cs else none

/-- The whole part of a decimal literal: a zero before other digits would make it another literal. -/
def IsWholePart (cs : List Char) : Prop := (∀ c ∈ cs, c.isDigit = true) ∧ (cs.length ≤ 1 ∨ cs.head? ≠ some '0')

instance (cs : List Char) : Decidable (IsWholePart cs) :=
  decidable_of_iff ((cs.all Char.isDigit && (decide (cs.length ≤ 1) || cs.head? != some '0')) = true)
    (by simp [IsWholePart])

/-- The value of a decimal literal: digits, with a point among them, before or behind them or without
one, and an exponent. -/
def decimal? (cs : List Char) : Option ℚ :=
  let whole := cs.takeWhile Char.isDigit
  let after := cs.dropWhile Char.isDigit
  let part :=
    match after with
    | '.' :: ds => ds.takeWhile Char.isDigit
    | _ => []
  let rest :=
    match after with
    | '.' :: ds => ds.dropWhile Char.isDigit
    | _ => after
  if !(whole ++ part).isEmpty ∧ IsWholePart whole then
    (exponent? rest).map fun e : ℤ => digitsValue (whole ++ part) * (10 : ℚ) ^ (e - part.length)
  else none

/-- The value of a numeric literal. -/
def number? (cs : List Char) : Option ℚ :=
  match cs with
  | '0' :: x :: ds =>
    if x = 'x' ∨ x = 'X' then if IsNumberIn 16 ds then some (valueIn 16 ds) else none
    else if x = 'b' ∨ x = 'B' then if IsNumberIn 2 ds then some (valueIn 2 ds) else none
    else decimal? cs
  | _ => decimal? cs

/-- **The value of a literal**: a string, or a number with or without a minus sign. -/
def literal? (s : String) : Option Value :=
  match s.toList with
  | '"' :: cs => (stringBody? cs).map fun text => .text (String.ofList text)
  | '-' :: cs => (number? cs).map fun q => .number (-q)
  | cs => (number? cs).map .number

/-- **The literal of a text** is read as this text. -/
theorem literal?_quote (s : String) : literal? (quote s) = some (.text s) := by
  unfold literal? quote
  rw [String.toList_ofList, List.cons_append]
  simp only
  rw [stringBody?_quoted, Option.map_some, String.ofList_toList]

/-! ## Decimal literals -/

/-- An exponent starts with its mark. -/
theorem head_of_exponent? {cs : List Char} {n : ℤ} (h : exponent? cs = some n) :
    ∀ c ∈ cs.head?, c = 'e' ∨ c = 'E' := by
  cases cs with
  | nil => simp
  | cons e cs =>
    simp only [exponent?] at h
    split at h
    · rename_i he
      simpa using he
    · cases h

/-- Digits before something that starts with none. -/
theorem span_digits {ds tail : List Char} (hds : ∀ c ∈ ds, c.isDigit = true)
    (htail : ∀ c ∈ tail.head?, c.isDigit = false) :
    (ds ++ tail).takeWhile Char.isDigit = ds ∧ (ds ++ tail).dropWhile Char.isDigit = tail := by
  rw [List.takeWhile_append_of_pos hds, List.dropWhile_append_of_pos hds]
  cases tail with
  | nil => simp
  | cons c tail =>
    have hc : ¬ c.isDigit = true := by simpa using htail c rfl
    rw [List.takeWhile_cons_of_neg hc, List.dropWhile_cons_of_neg hc, List.append_nil]
    exact ⟨rfl, rfl⟩

theorem isDigit_of_mark {cs : List Char} (h : ∀ c ∈ cs.head?, c = 'e' ∨ c = 'E') :
    ∀ c ∈ cs.head?, c.isDigit = false := by
  intro c hc
  rcases h c hc with rfl | rfl <;> rfl

/-- A decimal literal without a point. -/
theorem decimal?_whole {ds tail : List Char} {n : ℤ} (hds : IsWholePart ds) (hne : ds ≠ [])
    (he : exponent? tail = some n) : decimal? (ds ++ tail) = some (digitsValue ds * (10 : ℚ) ^ n) := by
  have hmark := head_of_exponent? he
  obtain ⟨htake, hdrop⟩ := span_digits hds.1 (isDigit_of_mark hmark)
  unfold decimal?
  simp only [htake, hdrop]
  split
  · rename_i r
    rcases hmark '.' rfl with h | h <;> cases h
  · rw [if_pos ⟨by simpa using hne, hds⟩, he, List.append_nil]
    simp

/-- A decimal literal with a point. -/
theorem decimal?_point {ds ps tail : List Char} {n : ℤ} (hds : IsWholePart ds) (hps : ∀ c ∈ ps, c.isDigit = true)
    (hne : ds ++ ps ≠ []) (he : exponent? tail = some n) :
    decimal? (ds ++ '.' :: (ps ++ tail)) = some (digitsValue (ds ++ ps) * (10 : ℚ) ^ (n - ps.length)) := by
  obtain ⟨htake, hdrop⟩ := span_digits hds.1 (by simp : ∀ c ∈ ('.' :: (ps ++ tail)).head?, c.isDigit = false)
  obtain ⟨htake', hdrop'⟩ := span_digits hps (isDigit_of_mark (head_of_exponent? he))
  unfold decimal?
  simp only [htake, hdrop, htake', hdrop']
  rw [if_pos ⟨by simpa using hne, hds⟩, he]
  rfl

/-- A literal whose zero is followed by no letter of a base is decimal. -/
theorem number?_eq_decimal? {cs : List Char} (h : ∀ x ds, cs = '0' :: x :: ds → x ∉ ['x', 'X', 'b', 'B']) :
    number? cs = decimal? cs := by
  unfold number?
  split
  · rename_i x ds
    have hx := h x ds rfl
    simp only [List.mem_cons, List.not_mem_nil, or_false, not_or] at hx
    rw [if_neg (by tauto), if_neg (by tauto)]
  · rfl

/-- The same for digits and what follows them, if they can be the whole part of a literal. -/
theorem number?_append {ds tail : List Char} (hds : IsWholePart ds) (htail : ∀ c ∈ tail.head?, c ∈ ['.', 'e', 'E']) :
    number? (ds ++ tail) = decimal? (ds ++ tail) := by
  apply number?_eq_decimal?
  intro x r hcs
  have hnot : ∀ c ∈ ['.', 'e', 'E'], c ∉ ['x', 'X', 'b', 'B'] := Text.forall_of_all (by decide)
  rcases ds with _ | ⟨c, _ | ⟨d, ds⟩⟩
  · rw [List.nil_append] at hcs
    subst hcs
    exact absurd (htail '0' rfl) (by decide)
  · obtain ⟨-, rfl⟩ := List.cons.inj hcs
    exact hnot x (htail x rfl)
  · obtain ⟨rfl, -⟩ := List.cons.inj hcs
    rcases hds.2 with hlen | hhead
    · simp at hlen
    · exact absurd rfl hhead

/-- Digits without leading zeros, of which one stays if nothing else would, before something that starts
with no digit. -/
theorem dropLeadingZeros_append {ds tail : List Char} (hds : ∀ c ∈ ds, c.isDigit = true) (hne : ds ≠ [])
    (htail : tail.head?.any Char.isDigit = false) :
    ∃ ds', dropLeadingZeros (ds ++ tail) = ds' ++ tail ∧ IsWholePart ds' ∧ (ds' = [] ↔ ds = []) ∧
      digitsValue ds' = digitsValue ds := by
  have hvalue := Text.digitsValue_dropWhile ds
  have hrest : ∀ c ∈ ds.dropWhile (· == '0'), c.isDigit = true := fun c hc => hds c ((List.dropWhile_suffix _).mem hc)
  have hzero : (ds.dropWhile (· == '0')).head? ≠ some '0' := by
    intro hhead
    have := List.head?_dropWhile_not (· == '0') ds
    rw [hhead] at this
    simp at this
  unfold dropLeadingZeros
  simp only [List.dropWhile_append]
  by_cases hall : ds.dropWhile (· == '0') = []
  · rw [hall] at hvalue
    have htailZero : tail.dropWhile (· == '0') = tail := by
      cases tail with
      | nil => rfl
      | cons c tail =>
        refine List.dropWhile_cons_of_neg fun hc => ?_
        rw [beq_iff_eq] at hc
        subst hc
        exact absurd htail (by simp)
    simp only [hall, List.isEmpty_nil, if_true, htailZero, htail]
    exact ⟨['0'], rfl, ⟨by simp, by simp⟩, by simp [hne], hvalue⟩
  · obtain ⟨c, r, hcr⟩ := List.exists_cons_of_ne_nil hall
    rw [hcr] at hvalue hrest hzero
    have hdigit : c.isDigit = true := hrest c List.mem_cons_self
    refine ⟨c :: r, ?_, ⟨hrest, .inr hzero⟩, by simp [hne], hvalue⟩
    simp [hcr, hdigit]

/-- **The digits of a decimal literal**: what is left without leading zeros can be a whole part, and it
has the same value. -/
theorem exists_wholePart {ds tail : List Char} (hds : ∀ c ∈ ds, c.isDigit = true)
    (htail : ∀ c ∈ tail.head?, c ∈ ['.', 'e', 'E']) :
    ∃ ds', (unsignedLiteral .decimal (ds ++ tail)).toList = ds' ++ tail ∧ IsWholePart ds' ∧ (ds' = [] ↔ ds = []) ∧
      digitsValue ds' = digitsValue ds := by
  have hmark : ∀ c ∈ ['.', 'e', 'E'], (c != '.' && c != 'e' && c != 'E') = false ∧ c.isDigit = false :=
    Text.forall_of_all (by decide)
  have hdigit : ∀ c : Char, c.isDigit = true → (c != '.' && c != 'e' && c != 'E') = true := by
    intro c hc
    by_contra hne
    have hmem : c ∈ ['.', 'e', 'E'] := by
      simp only [Bool.and_eq_true, bne_iff_ne, ne_eq, not_and_or, not_not] at hne
      simp only [List.mem_cons, List.not_mem_nil, or_false]
      exact or_assoc.1 hne
    rw [(hmark c hmem).2] at hc
    cases hc
  have hwhole : (ds ++ tail).takeWhile (fun c => c != '.' && c != 'e' && c != 'E') = ds := by
    rw [List.takeWhile_append_of_pos fun c hc => hdigit c (hds c hc)]
    cases tail with
    | nil => simp
    | cons c tail => rw [List.takeWhile_cons_of_neg (by simp [(hmark c (htail c rfl)).1]), List.append_nil]
  have htailDigit : tail.head?.any Char.isDigit = false := by
    cases tail with
    | nil => rfl
    | cons c tail => exact (hmark c (htail c rfl)).2
  simp only [unsignedLiteral, String.toList_ofList]
  unfold looksOctal
  simp only [hwhole]
  split
  · rename_i hoctal
    simp only [gt_iff_lt, Bool.and_eq_true, decide_eq_true_eq, beq_iff_eq] at hoctal
    have hne : ds ≠ [] := by
      rintro rfl
      simp at hoctal
    exact dropLeadingZeros_append hds hne htailDigit
  · rename_i hoctal
    refine ⟨ds, rfl, ⟨hds, ?_⟩, Iff.rfl, rfl⟩
    simp only [gt_iff_lt, Bool.and_eq_true, decide_eq_true_eq, beq_iff_eq, not_and_or, Nat.not_lt] at hoctal
    exact hoctal

/-- **A decimal number without a point** keeps its value. -/
theorem number?_whole {ds e : List Char} {n : ℤ} (hds : ∀ c ∈ ds, c.isDigit = true) (hne : ds ≠ [])
    (he : exponent? e = some n) :
    number? (unsignedLiteral .decimal (ds ++ e)).toList = some (digitsValue ds * (10 : ℚ) ^ n) := by
  have hmark : ∀ c ∈ e.head?, c ∈ ['.', 'e', 'E'] := fun c hc => by simpa using .inr (head_of_exponent? he c hc)
  obtain ⟨ds', htext, hwhole, hnil, hvalue⟩ := exists_wholePart hds hmark
  rw [htext, number?_append hwhole hmark, decimal?_whole hwhole (fun h => hne (hnil.1 h)) he, hvalue]

/-- **A decimal number with a point** keeps its value. -/
theorem number?_point {ds ps e : List Char} {n : ℤ} (hds : ∀ c ∈ ds ++ ps, c.isDigit = true) (hne : ds ++ ps ≠ [])
    (he : exponent? e = some n) : number? (unsignedLiteral .decimal (ds ++ '.' :: (ps ++ e))).toList =
      some (digitsValue (ds ++ ps) * (10 : ℚ) ^ (n - ps.length)) := by
  obtain ⟨hds, hps⟩ := List.forall_mem_append.1 hds
  have hmark : ∀ c ∈ ('.' :: (ps ++ e)).head?, c ∈ ['.', 'e', 'E'] := by simp
  obtain ⟨ds', htext, hwhole, hnil, hvalue⟩ := exists_wholePart hds hmark
  have hne' : ds' ++ ps ≠ [] := by
    rwa [Ne, List.append_eq_nil_iff, hnil, ← List.append_eq_nil_iff]
  rw [htext, number?_append hwhole hmark, decimal?_point hwhole hps hne' he, Text.digitsValue_append_congr hvalue ps]

/-- **A hexadecimal number** keeps its value in lower case. -/
theorem number?_hex {ds : List Char} (h : IsNumberIn 16 ds) :
    number? (unsignedLiteral .hex (ds.map Char.toLower)).toList = some (valueIn 16 ds : ℚ) := by
  obtain ⟨hlower, hvalue⟩ := Text.valueIn_map (f := Char.toLower) (Text.forall_of_all (by decide)) h
  obtain ⟨hlower', hvalue'⟩ := Text.valueIn_map (f := Text.lowerChar) (Text.forall_of_all (by decide)) hlower
  simp only [unsignedLiteral, Text.lower, String.toList_append, String.toList_ofList]
  show number? ('0' :: 'x' :: (ds.map Char.toLower).map Text.lowerChar) = _
  simp only [number?, true_or, if_true, if_pos hlower', hvalue', hvalue]

/-- **A binary number** keeps its value. -/
theorem number?_binary {ds : List Char} (h : IsNumberIn 2 ds) :
    number? (unsignedLiteral .binary ds).toList = some (valueIn 2 ds : ℚ) := by
  simp only [unsignedLiteral, String.toList_append, String.toList_ofList]
  show number? ('0' :: 'b' :: ds) = _
  simp [number?, h]

/-- A number starts with no quote and no sign. -/
theorem head_of_number? {cs : List Char} {q : ℚ} (h : number? cs = some q) : ∀ c ∈ cs.head?, c ≠ '"' ∧ c ≠ '-' := by
  cases cs with
  | nil => simp
  | cons c cs =>
    have hnone : ∀ c ∈ ['"', '-'], number? (c :: cs) = none := by simp [number?, decimal?]
    simp only [List.head?_cons, Option.mem_some, forall_eq']
    constructor <;> rintro rfl <;> rw [hnone _ (by simp)] at h <;> cases h

/-- **A number with or without a sign.** -/
theorem literal?_numberLiteral {radix : Radix} {cs : List Char} {q : ℚ} (minus : Bool) (hcs : cs.head? ≠ some '-')
    (h : number? (unsignedLiteral radix cs).toList = some q) :
    literal? (numberLiteral radix (String.ofList ((if minus then ['-'] else []) ++ cs))) =
      some (.number (if minus then -q else q)) := by
  cases minus with
  | true =>
    have hsign : splitSign (String.ofList ('-' :: cs)) = ("-", cs) := by
      unfold splitSign
      rw [String.toList_ofList]
      rfl
    simp only [if_true, List.singleton_append, numberLiteral, hsign]
    unfold literal?
    rw [String.toList_append]
    show Option.map _ (number? (unsignedLiteral radix cs).toList) = _
    rw [h]
    rfl
  | false =>
    have hsign : splitSign (String.ofList cs) = ("", cs) := by
      unfold splitSign
      rw [String.toList_ofList]
      split
      · exact absurd rfl hcs
      · rfl
    simp only [Bool.false_eq_true, if_false, List.nil_append, numberLiteral, hsign, String.empty_append]
    have hhead := head_of_number? h
    unfold literal?
    split
    · rename_i heq
      exact absurd rfl (hhead '"' (by rw [heq]; rfl)).1
    · rename_i heq
      exact absurd rfl (hhead '-' (by rw [heq]; rfl)).2
    · rw [h]
      rfl

end Js

end Locomotive
