import Locomotive.Js.Name
import Locomotive.Proofs.Stmt.Label

/-!
# Names and identifiers

A name of the source is made of lower-case letters, digits and underscores, and a type mark may
follow. Its identifier is the name itself, but for the letters that stand for the marks `%` and `!`
and for the underscore behind a name that is taken. Underscores are letters of names too, so the
identifier of a name that is taken is also that of another name.

* `Token.IsName`: the names that scanning finds.
* `Js.spelled_inj`: the type marks can be told apart.
* `Js.identifier_eq_iff_escaped`: which names share an identifier.
-/

namespace Locomotive

namespace Token

/-- The text is that of a name in some source text. -/
def IsName (s : String) : Prop := ∃ source, ∃ t ∈ (scan source).tokens, t.kind = .identifier ∧ t.lexeme = s

theorem IsName.nameShaped {s : String} (h : IsName s) : NameShaped s := by
  obtain ⟨source, t, ht, hk, rfl⟩ := h
  obtain ⟨before, c, r, p, row, -, hp, rfl⟩ := (scanned _ _ _).piece t ht (by rw [hk]; decide)
  exact (piece_laid hp).name hk

end Token

namespace Js

open Token (IsName NameShaped isLowerPart)

/-! ## Spelling -/

/-- The name is reserved, or that of a helper. -/
def isTaken (name : String) : Bool := isReserved name || isHelper name

theorem identifier_eq (name : String) :
    identifier name = if isTaken (spelled name) then spelled name ++ "_" else spelled name := rfl

/-- **No name that is taken ends like an escaped one**, or in a mark or the letter of one. -/
theorem getLast?_of_isTaken {name : String} (h : isTaken name = true) :
    name.toList.getLast? ∉ [some '_', some 'I', some 'R', some '%', some '!'] := by
  have hreserved : ∀ n ∈ reservedNames, n.toList.getLast? ∉ [some '_', some 'I', some 'R', some '%', some '!'] := by
    decide +kernel
  have hhelpers : ∀ n ∈ helpers.map Prod.fst,
      n.toList.getLast? ∉ [some '_', some 'I', some 'R', some '%', some '!'] := by decide +kernel
  rcases Bool.or_eq_true_iff.1 h with hr | hh
  · exact hreserved name (List.contains_iff_mem.1 hr)
  · obtain ⟨entry, hentry, heq⟩ := List.any_eq_true.1 hh
    rw [← beq_iff_eq.1 heq]
    exact hhelpers _ (List.mem_map_of_mem hentry)

/-- An identifier is never taken. -/
theorem isTaken_identifier (name : String) : isTaken (identifier name) = false := by
  rw [identifier_eq]
  split
  · rw [← Bool.not_eq_true]
    intro htaken
    exact getLast?_of_isTaken htaken (by simp)
  · rename_i hfree
    exact Bool.eq_false_iff.2 hfree

theorem lowerChar_of_isLowerPart {c : Char} (h : isLowerPart c = true) : Text.lowerChar c = c := by
  have hbounds : c.toNat < 0x80 ∧ ¬ (65 ≤ c.toNat ∧ c.toNat ≤ 90) := by
    unfold isLowerPart at h
    simp only [Bool.or_eq_true, beq_iff_eq] at h
    rcases h with (hlower | hdigit) | rfl
    · have := Token.toNat_of_isLower hlower
      omega
    · have := Text.toNat_of_isDigit hdigit
      omega
    · decide
  unfold Text.lowerChar
  rw [if_pos hbounds.1, Token.toLower_eq_self hbounds.2]

/-- A name is in lower case already. -/
theorem lower_of_nameShaped {s : String} (h : NameShaped s) : Text.lower s = s := by
  obtain ⟨stem, mark, hs, hstem, hmark⟩ := h
  have hlower : ∀ c ∈ s.toList, Text.lowerChar c = c := by
    rw [hs]
    refine List.forall_mem_append.2 ⟨fun c hc => lowerChar_of_isLowerPart (hstem c hc), fun c hc => ?_⟩
    have hmarks : c = '$' ∨ c = '%' ∨ c = '!' := by
      simp only [List.mem_cons, List.not_mem_nil, or_false] at hmark
      rcases hmark with rfl | rfl | rfl | rfl <;> simp_all
    rcases hmarks with rfl | rfl | rfl <;> decide
  unfold Text.lower
  rw [List.map_congr_left hlower, List.map_id', String.ofList_toList]

/-- A letter of a name is not the letter of a mark, and no mark. -/
theorem isLowerPart_ne {c : Char} (h : isLowerPart c = true) : c ≠ 'I' ∧ c ≠ 'R' ∧ c ≠ '%' ∧ c ≠ '!' := by
  refine ⟨?_, ?_, ?_, ?_⟩ <;> rintro rfl <;> exact absurd h (by decide)

/-- Only the last character of a name in lower case is looked at. -/
theorem spelled_eq {s : String} (h : Text.lower s = s) : spelled s =
    match s.toList.getLast? with
    | some '%' => Text.dropLast s ++ "I"
    | some '!' => Text.dropLast s ++ "R"
    | _ => s := by
  unfold spelled Text.last?
  dsimp only
  generalize Text.lower s = t at h ⊢
  subst h
  rfl

/-- **How a name is spelled**: it has a mark that becomes a letter, or it is spelled as it is. -/
theorem spelled_cases {s : String} (h : NameShaped s) :
    (∃ stem, s = stem ++ "%" ∧ spelled s = stem ++ "I") ∨ (∃ stem, s = stem ++ "!" ∧ spelled s = stem ++ "R") ∨
      spelled s = s ∧ s.toList.getLast? ≠ some 'I' ∧ s.toList.getLast? ≠ some 'R' := by
  rw [spelled_eq (lower_of_nameShaped h)]
  obtain ⟨stem, mark, hs, hstem, hmark⟩ := h
  have htext : s = String.ofList stem ++ String.ofList mark := by
    rw [← String.ofList_append, ← hs, String.ofList_toList]
  have hdrop : ∀ c, mark = [c] → Text.dropLast s = String.ofList stem := by
    rintro c rfl
    unfold Text.dropLast
    rw [hs, List.dropLast_concat]
  simp only [List.mem_cons, List.not_mem_nil, or_false] at hmark
  rcases hmark with rfl | rfl | rfl | rfl
  · -- without a mark the last character, if there is one, is a letter of the name
    rw [List.append_nil] at hs
    have hlast : ∀ c, s.toList.getLast? = some c → c ≠ 'I' ∧ c ≠ 'R' ∧ c ≠ '%' ∧ c ≠ '!' := by
      intro c hc
      rw [hs] at hc
      exact isLowerPart_ne (hstem c (List.mem_of_getLast? hc))
    refine .inr (.inr ⟨?_, fun hc => (hlast _ hc).1 rfl, fun hc => (hlast _ hc).2.1 rfl⟩)
    split
    · rename_i hc
      exact absurd rfl (hlast _ hc).2.2.1
    · rename_i hc
      exact absurd rfl (hlast _ hc).2.2.2
    · rfl
  · have hlast : s.toList.getLast? = some '$' := by rw [hs]; simp
    rw [hlast]
    exact .inr (.inr ⟨rfl, by decide, by decide⟩)
  · have hlast : s.toList.getLast? = some '%' := by rw [hs]; simp
    rw [hlast, hdrop _ rfl]
    exact .inl ⟨String.ofList stem, htext, rfl⟩
  · have hlast : s.toList.getLast? = some '!' := by rw [hs]; simp
    rw [hlast, hdrop _ rfl]
    exact .inr (.inl ⟨String.ofList stem, htext, rfl⟩)

/-- **Names are spelled apart.** -/
theorem spelled_inj {a b : String} (ha : NameShaped a) (hb : NameShaped b) (h : spelled a = spelled b) : a = b := by
  have hletters : ∀ x y : String, x ++ "I" ≠ y ++ "R" := by
    intro x y hxy
    have hlast := congrArg (fun s : String => s.toList.getLast?) hxy
    simp at hlast
  rcases spelled_cases ha with ⟨x, rfl, hx⟩ | ⟨x, rfl, hx⟩ | ⟨hx, hxI, hxR⟩ <;>
    rcases spelled_cases hb with ⟨y, rfl, hy⟩ | ⟨y, rfl, hy⟩ | ⟨hy, hyI, hyR⟩ <;> rw [hx, hy] at h
  · rw [(String.append_left_inj _).1 h]
  · exact absurd h (hletters x y)
  · exact absurd (by rw [← h]; simp) hyI
  · exact absurd h.symm (hletters y x)
  · rw [(String.append_left_inj _).1 h]
  · exact absurd (by rw [← h]; simp) hyR
  · exact absurd (by rw [h]; simp) hxI
  · exact absurd (by rw [h]; simp) hxR
  · exact h

/-- A name that ends otherwise than in a mark is spelled as it is. -/
theorem spelled_of_getLast? {s : String} (h : NameShaped s) (hm : s.toList.getLast? ∉ [some '%', some '!']) :
    spelled s = s := by
  rcases spelled_cases h with ⟨stem, rfl, -⟩ | ⟨stem, rfl, -⟩ | ⟨hs, -⟩
  · exact absurd hm (by simp)
  · exact absurd hm (by simp)
  · exact hs

/-- The identifier of a name that is taken has an underscore more. -/
theorem identifier_of_isTaken {s : String} (h : NameShaped s) (ht : isTaken s = true) : identifier s = s ++ "_" := by
  have hlast := getLast?_of_isTaken ht
  have hs : spelled s = s := spelled_of_getLast? h fun hm => hlast (by simp_all)
  rw [identifier_eq, hs, if_pos ht]

/-- A name that ends in an underscore is its own identifier. -/
theorem identifier_of_underscore {s : String} (h : NameShaped (s ++ "_")) : identifier (s ++ "_") = s ++ "_" := by
  have hs : spelled (s ++ "_") = s ++ "_" := spelled_of_getLast? h (by simp)
  have hfree : ¬ isTaken (s ++ "_") = true := fun ht => getLast?_of_isTaken ht (by simp)
  rw [identifier_eq, hs, if_neg hfree]

/-- An escaped name that is the spelling of another. -/
theorem eq_of_escaped {a b : String} (ha : NameShaped a) (hb : NameShaped b) (ht : isTaken (spelled a) = true)
    (h : spelled a ++ "_" = spelled b) : isTaken a = true ∧ b = a ++ "_" := by
  have hlast := getLast?_of_isTaken ht
  have hsa : spelled a = a := by
    rcases spelled_cases ha with ⟨stem, -, hs⟩ | ⟨stem, -, hs⟩ | ⟨hs, -⟩
    · rw [hs] at hlast
      exact absurd hlast (by simp)
    · rw [hs] at hlast
      exact absurd hlast (by simp)
    · exact hs
  have hsb : spelled b = b := by
    rcases spelled_cases hb with ⟨stem, -, hs⟩ | ⟨stem, -, hs⟩ | ⟨hs, -⟩
    · have hend := congrArg (fun s : String => s.toList.getLast?) (h.trans hs)
      simp at hend
    · have hend := congrArg (fun s : String => s.toList.getLast?) (h.trans hs)
      simp at hend
    · exact hs
  rw [hsa] at ht h
  rw [hsb] at h
  exact ⟨ht, h.symm⟩

/-- **Which names share an identifier.** Two names of source texts do only if they are the same, or if one
of them is taken and the other is the same with an underscore behind it. No identifier is reserved
or that of a helper. -/
theorem identifier_eq_iff_escaped {a b : String} (ha : IsName a) (hb : IsName b) :
    (identifier a = identifier b ↔
      a = b ∨ isTaken a = true ∧ b = a ++ "_" ∨ isTaken b = true ∧ a = b ++ "_") ∧
    isTaken (identifier a) = false ∧ isTaken (identifier b) = false := by
  have hshape := ha.nameShaped
  have hshape' := hb.nameShaped
  refine ⟨⟨fun h => ?_, ?_⟩, isTaken_identifier a, isTaken_identifier b⟩
  · rw [identifier_eq, identifier_eq] at h
    split at h <;> rename_i hta <;> split at h <;> rename_i htb
    · exact .inl (spelled_inj hshape hshape' ((String.append_left_inj _).1 h))
    · exact .inr (.inl (eq_of_escaped hshape hshape' hta h))
    · exact .inr (.inr (eq_of_escaped hshape' hshape htb h.symm))
    · exact .inl (spelled_inj hshape hshape' h)
  · rintro (rfl | ⟨ht, rfl⟩ | ⟨ht, rfl⟩)
    · rfl
    · rw [identifier_of_isTaken hshape ht, identifier_of_underscore hshape']
    · rw [identifier_of_isTaken hshape' ht, identifier_of_underscore hshape]

/-- A name that is taken, and the one that is spelled like its identifier. -/
theorem identifier_class_eq_iff :
    (identifier "class" = identifier "class_" ↔ "class" = "class_" ∨
      isTaken "class" = true ∧ "class_" = "class" ++ "_" ∨ isTaken "class_" = true ∧ "class" = "class_" ++ "_") ∧
    isTaken (identifier "class") = false ∧ isTaken (identifier "class_") = false := by
  have hclass : IsName "class" := ⟨"class".toList, ⟨.identifier, "class", 1, 0, 5⟩, by decide +kernel, rfl, rfl⟩
  have hclass' : IsName "class_" := ⟨"class_".toList, ⟨.identifier, "class_", 1, 0, 6⟩, by decide +kernel, rfl, rfl⟩
  exact identifier_eq_iff_escaped hclass hclass'

/-- **Two names with one identifier.** -/
theorem class_shares_identifier : IsName "class" ∧ IsName "class_" ∧ "class" ≠ "class_" ∧
    identifier "class" = identifier "class_" := by
  refine ⟨⟨"class".toList, ⟨.identifier, "class", 1, 0, 5⟩, by decide +kernel, rfl, rfl⟩,
    ⟨"class_".toList, ⟨.identifier, "class_", 1, 0, 6⟩, by decide +kernel, rfl, rfl⟩, by decide, by decide +kernel⟩

end Js

end Locomotive
