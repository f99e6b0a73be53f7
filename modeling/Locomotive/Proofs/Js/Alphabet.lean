import Locomotive.Js.Literal
import Locomotive.Js.Name

/-!
# Alphabets

String literals escape most characters that are not printed, and are written with the others, the plain
ones. Names and numbers keep the characters that they have in the source, but for their case. So a class
of characters has those of names and literals if it has the plain ones.

* `Plain`, `plain_quote`: the characters that need no escape, in which string literals are written.
* `Alphabet`, `Alphabet.of_covers`: a class of characters that literals and names can be written in.
-/

namespace Locomotive

namespace Text

/-- The characters of the text are of the class `P`. -/
def Within (P : Char → Prop) (s : String) : Prop := ∀ c ∈ s.toList, P c

/-- The characters of all texts are of the class `P`. -/
def AllWithin (P : Char → Prop) (ss : List String) : Prop := ∀ s ∈ ss, Within P s

variable {P Q : Char → Prop}

theorem Within.mono {s : String} (h : Within P s) (hPQ : ∀ c, P c → Q c) : Within Q s := fun c hc => hPQ c (h c hc)

theorem AllWithin.mono {ss : List String} (h : AllWithin P ss) (hPQ : ∀ c, P c → Q c) : AllWithin Q ss :=
  fun s hs => (h s hs).mono hPQ

@[simp] theorem within_append {a b : String} : Within P (a ++ b) ↔ Within P a ∧ Within P b := by
  simp only [Within, String.toList_append, List.forall_mem_append]

theorem within_ofList {cs : List Char} : Within P (String.ofList cs) ↔ ∀ c ∈ cs, P c := by
  rw [Within, String.toList_ofList]

@[simp] theorem allWithin_nil : AllWithin P [] := by simp [AllWithin]

@[simp] theorem allWithin_cons {s : String} {ss : List String} :
    AllWithin P (s :: ss) ↔ Within P s ∧ AllWithin P ss := List.forall_mem_cons

@[simp] theorem allWithin_append {ss ss' : List String} :
    AllWithin P (ss ++ ss') ↔ AllWithin P ss ∧ AllWithin P ss' := List.forall_mem_append

theorem Within.intercalate {sep : String} (hsep : Within P sep) {ss : List String} (h : AllWithin P ss) :
    Within P (sep.intercalate ss) := by
  unfold Within
  rw [String.toList_intercalate]
  induction ss with
  | nil => simp [List.intercalate]
  | cons s ss ih =>
    obtain ⟨hs, hss⟩ := allWithin_cons.1 h
    cases ss with
    | nil => simpa [List.intercalate] using show ∀ c ∈ s.toList, P c from hs
    | cons s' ss =>
      rw [List.map_cons, List.map_cons, List.intercalate_cons_cons]
      exact List.forall_mem_append.2 ⟨List.forall_mem_append.2 ⟨hs, hsep⟩, ih hss⟩

end Text

namespace Js

open Text (Within AllWithin within_append within_ofList)

/-! ## Characters that need no escape -/

/-- The character stands for itself in a string literal. -/
def Plain (c : Char) : Prop := needsEscape c = false

instance (c : Char) : Decidable (Plain c) := inferInstanceAs (Decidable (_ = _))

-- the members of the list are looked through, not all characters
instance decidableAllPlain (cs : List Char) : Decidable (∀ c ∈ cs, Plain c) := List.decidableBAll Plain cs

instance (s : String) : Decidable (Within Plain s) := decidableAllPlain s.toList

theorem plain_iff {c : Char} : Plain c ↔ 0x20 ≤ c.toNat ∧ c.toNat ≠ 0x7F ∧ (c.toNat < 0xE000 ∨ 0xF8FF < c.toNat) ∧
    c.toNat ≠ 0x2028 ∧ c.toNat ≠ 0x2029 := by
  unfold Plain needsEscape
  simp only [Bool.or_eq_false_iff, Bool.and_eq_false_iff, decide_eq_false_iff_not, beq_eq_false_iff_ne]
  omega

theorem plain_hexDigits (width n : Nat) : ∀ c ∈ Text.hexDigits width n, Plain c := by
  have hdigit : ∀ d < 16, Plain (Text.hexDigit d) := by decide
  induction width generalizing n with
  | zero => simp [Text.hexDigits]
  | succ width ih =>
    intro c hc
    rcases List.mem_append.1 hc with hc | hc
    · exact ih _ c hc
    · obtain rfl := List.mem_singleton.1 hc
      exact hdigit _ (Nat.mod_lt _ (by decide))

theorem plain_toDigits {b : Nat} (hb : 1 < b) (hb' : b ≤ 16) (n : Nat) : ∀ c ∈ b.toDigits n, Plain c := by
  have hdigit : ∀ d < 16, Plain d.digitChar := by decide
  induction n using Nat.strongRecOn with
  | ind n ih =>
    rw [Nat.toDigits_eq_if hb]
    split
    · simpa using hdigit n (by omega)
    · intro c hc
      rcases List.mem_append.1 hc with hc | hc
      · exact ih (n / b) (Nat.div_lt_self (by omega) hb) c hc
      · obtain rfl := List.mem_singleton.1 hc
        have := Nat.mod_lt n (Nat.zero_lt_of_lt hb)
        exact hdigit _ (by omega)

theorem plain_toString (n : Nat) : Within Plain (toString n) := by
  rw [Nat.toString_eq_ofList_toDigits, within_ofList]
  exact plain_toDigits (by decide) (by decide) n

/-- What is not plain is written with plain characters. -/
theorem plain_quoteChar (d : Char) : ∀ c ∈ quoteChar d, Plain c := by
  have hall : ∀ cs : List Char, (∀ c ∈ cs, Plain c) → ∀ c ∈ '\\' :: cs, Plain c := fun cs h =>
    List.forall_mem_cons.2 ⟨by decide, h⟩
  unfold quoteChar
  split
  · rename_i hq
    simp only [Bool.or_eq_true, beq_iff_eq] at hq
    rcases hq with rfl | rfl <;> decide
  split
  · decide
  split
  · decide
  split
  · decide
  split
  · exact hall _ (List.forall_mem_cons.2 ⟨by decide, plain_hexDigits _ _⟩)
  split
  · refine List.forall_mem_append.2 ⟨hall _ ?_, by decide⟩
    exact List.forall_mem_cons.2 ⟨by decide, List.forall_mem_cons.2
      ⟨by decide, plain_toDigits (by decide) (by decide) _⟩⟩
  · rename_i hplain _
    intro c hc
    obtain rfl := List.mem_singleton.1 hc
    exact Bool.eq_false_iff.2 hplain

theorem plain_quote (s : String) : Within Plain (quote s) := by
  rw [quote, within_ofList]
  refine List.forall_mem_append.2 ⟨List.forall_mem_cons.2 ⟨by decide, fun c hc => ?_⟩, by decide⟩
  obtain ⟨d, -, hd⟩ := List.mem_flatMap.1 hc
  exact plain_quoteChar d c hd

theorem toNat_ofNat {n : Nat} (h : n < 0xD800 ∨ 0xDFFF < n ∧ n < 0x110000) : (Char.ofNat n).toNat = n := by
  unfold Char.ofNat
  rw [dif_pos h]
  rfl

/-- Lower case is another character only where it is plain. -/
theorem lowerChar_eq_or_plain (c : Char) : Text.lowerChar c = c ∨ Plain (Text.lowerChar c) := by
  have hruns : ∀ r ∈ Text.caseRuns, 0x20 ≤ (r.first : Int) + r.shift ∧ (r.last : Int) + r.shift < 0x110000 ∧
      ((r.last : Int) + r.shift < 0x7F ∨ 0x7F < (r.first : Int) + r.shift) ∧
      ((r.last : Int) + r.shift < 0x2028 ∨ 0x2029 < (r.first : Int) + r.shift) ∧
      ((r.last : Int) + r.shift < 0xD800 ∨ 0xF8FF < (r.first : Int) + r.shift) := by decide +kernel
  unfold Text.lowerChar
  split
  · rename_i hascii
    have hall : ∀ n < 0x80, (Char.ofNat n).toLower = Char.ofNat n ∨ Plain (Char.ofNat n).toLower := by decide +kernel
    have hc : Char.ofNat c.toNat = c := Char.ofNat_toNat c
    rw [← hc]
    exact hall _ hascii
  · split
    · rename_i r hr
      have hm := hruns r (List.mem_of_find?_eq_some hr)
      have hh := List.find?_some hr
      simp only [Text.CaseRun.holds, Bool.and_eq_true, decide_eq_true_eq] at hh
      right
      rw [plain_iff, toNat_ofNat (by omega)]
      omega
    · exact .inl rfl

/-! ## Alphabets -/

/-- The class has all characters that need no escape. -/
def Covers (P : Char → Prop) : Prop := ∀ c, Plain c → P c

/-- **An alphabet** for names and literals: it has all characters that need no escape, and with a letter
also its lower case. -/
structure Alphabet (P : Char → Prop) : Prop where
  plain : Covers P
  lower : ∀ c, P c → P (Text.lowerChar c)

/-- Lower case does not leave a class that has the plain characters. -/
theorem Alphabet.of_covers {P : Char → Prop} (h : Covers P) : Alphabet P := by
  refine ⟨h, fun c hc => ?_⟩
  rcases lowerChar_eq_or_plain c with heq | hplain
  · rwa [heq]
  · exact h _ hplain

theorem alphabet_plain : Alphabet Plain := .of_covers fun _ => id

theorem alphabet_all : Alphabet fun _ => True := .of_covers fun _ _ => trivial

namespace Alphabet

variable {P : Char → Prop}

theorem word (A : Alphabet P) {s : String} (h : Within Plain s) : Within P s := h.mono A.plain

theorem quote (A : Alphabet P) (s : String) : Within P (quote s) := A.word (plain_quote s)

theorem lowered (A : Alphabet P) {s : String} (h : Within P s) : Within P (Text.lower s) := by
  rw [Text.lower, within_ofList]
  intro c hc
  obtain ⟨d, hd, rfl⟩ := List.mem_map.1 hc
  exact A.lower d (h d hd)

theorem identifier (A : Alphabet P) {name : String} (h : Within P name) : Within P (identifier name) := by
  have hspelled : Within P (spelled name) := by
    have hlow := A.lowered h
    have hdrop : Within P (Text.dropLast (Text.lower name)) := by
      rw [Text.dropLast, within_ofList]
      exact fun c hc => hlow c (List.dropLast_subset _ hc)
    unfold spelled
    dsimp only
    split
    · exact within_append.2 ⟨hdrop, A.word (by decide)⟩
    · exact within_append.2 ⟨hdrop, A.word (by decide)⟩
    · exact hlow
  unfold Js.identifier
  dsimp only
  split
  · exact within_append.2 ⟨hspelled, A.word (by decide)⟩
  · exact hspelled

/-- A number has no characters that its text does not have, but for signs and zeros. -/
theorem numberLiteral (A : Alphabet P) (radix : Radix) {text : String} (h : Within P text) :
    Within P (numberLiteral radix text) := by
  have hsign : Within P (splitSign text).1 ∧ ∀ c ∈ (splitSign text).2, P c := by
    unfold splitSign
    split
    · rename_i cs hcs
      exact ⟨A.word (show Within Plain "-" by decide), fun c hc => h c (by rw [hcs]; exact List.mem_cons_of_mem _ hc)⟩
    · exact ⟨A.word (show Within Plain "" by decide), h⟩
  refine within_append.2 ⟨hsign.1, ?_⟩
  cases radix with
  | hex => exact within_append.2 ⟨A.word (by decide), A.lowered (within_ofList.2 hsign.2)⟩
  | binary => exact within_append.2 ⟨A.word (by decide), within_ofList.2 hsign.2⟩
  | decimal =>
    refine within_ofList.2 ?_
    split
    · have hrest : ∀ c ∈ (splitSign text).2.dropWhile (· == '0'), P c := fun c hc =>
        hsign.2 c ((List.dropWhile_suffix _).mem hc)
      unfold dropLeadingZeros
      dsimp only
      split
      · exact hrest
      · exact List.forall_mem_cons.2 ⟨A.plain _ (by decide), hrest⟩
    · exact hsign.2

end Alphabet

end Js

end Locomotive
