import Locomotive.Js.Expr
import Locomotive.Proofs.Js.Alphabet

/-!
# Texts without marks

The two characters that enclose the number of a subroutine reference occur in no other text
that the generated program is put together from: not in names and numbers, which keep the
characters they have in the source, and not in string literals, which escape them.

* `unmarked_quote`, `unmarked_identifier`, `unmarked_numberLiteral`: literals and names.
-/

namespace Locomotive.Js

/-- The character is not one of those that enclose a mark. -/
def Clean (c : Char) : Prop := c ≠ markOpen ∧ c ≠ markClose

instance (c : Char) : Decidable (Clean c) := inferInstanceAs (Decidable (_ ∧ _))

-- the members of the list are looked through, not all characters
instance decidableAllClean (cs : List Char) : Decidable (∀ c ∈ cs, Clean c) := List.decidableBAll Clean cs

/-- The text holds no character of a mark. -/
def Unmarked (s : String) : Prop := ∀ c ∈ s.toList, Clean c

instance (s : String) : Decidable (Unmarked s) := decidableAllClean s.toList

/-! ## Characters -/

theorem clean_of_lt {c : Char} (h : c.toNat < 0xE000) : Clean c := by
  constructor <;> rintro rfl <;> exact absurd h (by decide)

theorem clean_of_isDigit {c : Char} (h : c.isDigit = true) : Clean c := by
  apply clean_of_lt
  simp only [Char.isDigit, Bool.and_eq_true, decide_eq_true_eq] at h
  have : c.toNat ≤ 57 := h.2
  omega

theorem clean_toLower {c : Char} (h : Clean c) : Clean c.toLower := by
  unfold Char.toLower
  split
  · rename_i hu
    apply clean_of_lt
    have hle : c.toNat ≤ 90 := hu.2
    show (c.val + ('a'.val - 'A'.val)).toNat < 0xE000
    have hadd : (c.val + ('a'.val - 'A'.val)).toNat = (c.val.toNat + 32) % 2 ^ 32 := by
      rw [UInt32.toNat_add]; rfl
    have hc : c.val.toNat ≤ 90 := hle
    rw [hadd]; omega
  · exact h

theorem Plain.clean {c : Char} (h : Plain c) : Clean c := by
  constructor <;> rintro rfl <;> exact absurd h (by decide)

/-- Literals and names can be written without marks. -/
theorem alphabet_clean : Alphabet Clean := .of_covers fun _ => Plain.clean

/-! ## Texts -/

@[simp] theorem unmarked_append {a b : String} : Unmarked (a ++ b) ↔ Unmarked a ∧ Unmarked b := by
  simp only [Unmarked, String.toList_append, List.mem_append]
  exact ⟨fun h => ⟨fun c hc => h c (.inl hc), fun c hc => h c (.inr hc)⟩, fun h c hc => hc.elim (h.1 c) (h.2 c)⟩

theorem unmarked_ofList {cs : List Char} : Unmarked (String.ofList cs) ↔ ∀ c ∈ cs, Clean c := by
  rw [Unmarked, String.toList_ofList]

/-- A text without the first byte of the marks. Its bytes are faster to look through than its
characters. -/
theorem unmarked_of_bytes {s : String} (h : (0xEE : UInt8) ∉ s.toByteArray.data.toList) : Unmarked s := by
  have hbytes : s.toByteArray.data.toList = s.toList.flatMap String.utf8EncodeChar := by
    rw [← String.ofList_toList (s := s), String.toByteArray_ofList, String.toList_ofList]
    simp [List.utf8Encode]
  rw [hbytes, List.mem_flatMap] at h
  intro c hc
  refine ⟨?_, ?_⟩
  · rintro rfl
    exact h ⟨markOpen, hc, by decide⟩
  · rintro rfl
    exact h ⟨markClose, hc, by decide⟩

/-- The marks are not plain, so plain texts have none. -/
theorem unmarked_of_plain {s : String} (h : Text.Within Plain s) : Unmarked s := fun c hc => (h c hc).clean

/-- The identifier of a name without marks has none. -/
theorem unmarked_identifier {name : String} (h : Unmarked name) : Unmarked (identifier name) :=
  alphabet_clean.identifier h

/-- The literal of a number without marks has none. -/
theorem unmarked_numberLiteral (radix : Radix) {text : String} (h : Unmarked text) :
    Unmarked (numberLiteral radix text) := alphabet_clean.numberLiteral radix h

theorem unmarked_toString (n : Nat) : Unmarked (toString n) := unmarked_of_plain (plain_toString n)

/-- A string literal escapes the characters of marks. -/
theorem unmarked_quote (s : String) : Unmarked (quote s) := unmarked_of_plain (plain_quote s)

end Locomotive.Js
