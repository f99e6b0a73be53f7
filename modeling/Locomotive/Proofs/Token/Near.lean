import Locomotive.Proofs.Js.Value
import Locomotive.Proofs.Token.Tile
import Mathlib.Data.List.Forall2

/-!
# What a token takes of a text

Which token stands at the front of a text depends on the characters of the token and on a few of those behind it. It
stays the same if a blank is put behind it, if letters behind it change their case, and whatever comes behind the next
line break; and a word or a number with a base may change the case of its own letters.

* `SameLetter`: characters that differ in case only.
* `Near`: what may stand behind a token instead.
* `piece_near`: the token in front of it.
-/

namespace Locomotive.Token

/-! ## Letters in upper and lower case -/

/-- The characters are the same, but for the case of an ASCII letter. -/
def SameLetter (c c' : Char) : Prop := c'.toLower = c.toLower

/-- The ASCII letters in upper case. -/
def capitals : List Char := "ABCDEFGHIJKLMNOPQRSTUVWXYZ".toList

theorem mem_capitals {c : Char} (h : 65 ≤ c.toNat ∧ c.toNat ≤ 90) : c ∈ capitals := by
  have hlist : capitals = (List.range' 65 26).map Char.ofNat := by decide
  rw [hlist, List.mem_map]
  exact ⟨c.toNat, List.mem_range'_1.2 (by omega), Char.ofNat_toNat c⟩

theorem toLower_eq_self_or_mem (c : Char) : c.toLower = c ∨ c ∈ capitals := by
  by_cases h : 65 ≤ c.toNat ∧ c.toNat ≤ 90
  · exact .inr (mem_capitals h)
  · exact .inl (toLower_eq_self h)

namespace SameLetter

variable {c c' : Char}

theorem refl (c : Char) : SameLetter c c := rfl

theorem symm (h : SameLetter c c') : SameLetter c' c := Eq.symm h

/-- Characters that differ are a letter in both cases. -/
theorem cases (h : SameLetter c c') :
    c' = c ∨ (c ∈ capitals ∧ c' = c.toLower) ∨ (c' ∈ capitals ∧ c = c'.toLower) := by
  have hupper : ∀ C ∈ capitals, C.toLower.toUpper = C := Text.forall_of_all (by decide)
  unfold SameLetter at h
  rcases toLower_eq_self_or_mem c with hc | hc <;> rcases toLower_eq_self_or_mem c' with hc' | hc'
  · exact .inl (by rw [← hc', h, hc])
  · exact .inr (.inr ⟨hc', by rw [h, hc]⟩)
  · exact .inr (.inl ⟨hc, by rw [← h, hc']⟩)
  · exact .inl (by rw [← hupper c' hc', h, hupper c hc])

/-- **What does not tell the two cases of a letter apart** does not tell such characters apart. -/
theorem congr {β : Type} {f : Char → β} (hf : ∀ C ∈ capitals, f C.toLower = f C) (h : SameLetter c c') :
    f c' = f c := by
  rcases h.cases with rfl | ⟨hc, rfl⟩ | ⟨hc, rfl⟩
  · rfl
  · exact hf c hc
  · exact (hf c' hc).symm

/-- A character that is no letter is told apart from all others. -/
theorem eq_of_not_isAlpha (h : SameLetter c c') (hc : c.isAlpha = false) : c' = c := by
  have hcapital : ∀ C ∈ capitals, C.isAlpha = true ∧ C.toLower.isAlpha = true := Text.forall_of_all (by decide)
  rcases h.cases with rfl | ⟨hmem, -⟩ | ⟨hmem, rfl⟩
  · rfl
  · rw [(hcapital c hmem).1] at hc
    cases hc
  · rw [(hcapital c' hmem).2] at hc
    cases hc

theorem isAlpha (h : SameLetter c c') : c'.isAlpha = c.isAlpha := h.congr (Text.forall_of_all (by decide))

theorem isNamePart (h : SameLetter c c') : isNamePart c' = Token.isNamePart c :=
  h.congr (Text.forall_of_all (by decide))

theorem isHexDigit (h : SameLetter c c') : isHexDigit c' = Token.isHexDigit c :=
  h.congr (Text.forall_of_all (by decide))

theorem isDigit (h : SameLetter c c') : Text.isDigit c' = Text.isDigit c := h.congr (Text.forall_of_all (by decide))

theorem toUpper (h : SameLetter c c') : c'.toUpper = c.toUpper := h.congr (Text.forall_of_all (by decide))

end SameLetter

/-- Texts that differ in the case of letters only. -/
abbrev SameLetters : List Char → List Char → Prop := List.Forall₂ SameLetter

namespace SameLetters

variable {cs cs' : List Char}

theorem refl : ∀ cs : List Char, SameLetters cs cs
  | [] => .nil
  | c :: cs => .cons (.refl c) (refl cs)

/-- A function that does not tell the cases of a letter apart gives the same for each character. -/
theorem map_eq {β : Type} {f : Char → β} (hf : ∀ c c', SameLetter c c' → f c' = f c) (h : SameLetters cs cs') :
    cs'.map f = cs.map f := by
  induction h with
  | nil => rfl
  | cons hc _ ih => rw [List.map_cons, List.map_cons, hf _ _ hc, ih]

theorem all {p : Char → Bool} (hp : ∀ c c', SameLetter c c' → p c' = p c) (h : SameLetters cs cs')
    (hcs : ∀ c ∈ cs, p c = true) : ∀ c ∈ cs', p c = true := by
  induction h with
  | nil => exact hcs
  | cons hc _ ih =>
    rw [List.forall_mem_cons] at hcs ⊢
    exact ⟨by rw [hp _ _ hc, hcs.1], ih hcs.2⟩

theorem ne_nil (h : SameLetters cs cs') (hcs : cs ≠ []) : cs' ≠ [] := by
  rintro rfl
  exact hcs (List.forall₂_nil_right_iff.1 h)

/-- The two parts of a text. -/
theorem split {a b d : List Char} (h : SameLetters (a ++ b) d) :
    ∃ a' b', d = a' ++ b' ∧ SameLetters a a' ∧ SameLetters b b' := by
  induction a generalizing d with
  | nil => exact ⟨[], d, rfl, .nil, h⟩
  | cons c a ih =>
    cases h with
    | cons hc hrest =>
      obtain ⟨a', b', rfl, ha, hb⟩ := ih hrest
      exact ⟨_ :: a', b', rfl, .cons hc ha, hb⟩

end SameLetters

/-! ## What stands behind a token -/

/-- **What may stand behind a token instead**: the same text up to the case of letters, as far as the first inserted
blank or the first line break. -/
inductive Near : List Char → List Char → Prop
  | nil : Near [] []
  | blank {c : Char} (h : isGap c = true) (cs cs' : List Char) : Near cs (c :: cs')
  | newline (cs cs' : List Char) : Near ('\n' :: cs) ('\n' :: cs')
  | cons {c c' : Char} {cs cs' : List Char} (h : SameLetter c c') (rest : Near cs cs') : Near (c :: cs) (c' :: cs')

theorem eq_of_isGap {c : Char} (h : isGap c = true) : c = ' ' ∨ c = '\t' := by
  simpa [isGap] using h

namespace Near

variable {cs cs' : List Char}

theorem append {x x' : List Char} (hx : SameLetters x x') (h : Near cs cs') : Near (x ++ cs) (x' ++ cs') := by
  induction hx with
  | nil => exact h
  | cons hc _ ih => exact .cons hc ih

/-- Whatever follows a line break. -/
theorem of_break (x y y' : List Char) : Near (x ++ '\n' :: y) (x ++ '\n' :: y') :=
  append (.refl x) (.newline y y')

/-- **A character that does not follow** does not follow then either, unless it is a blank. -/
theorem head (h : Near cs cs') {p : Char → Bool} (hgap : p ' ' = false ∧ p '\t' = false)
    (hp : ∀ c c', SameLetter c c' → p c' = p c) (hcs : cs.head?.any p = false) : cs'.head?.any p = false := by
  cases h with
  | nil => rfl
  | blank hc =>
    rcases eq_of_isGap hc with rfl | rfl
    · exact hgap.1
    · exact hgap.2
  | newline => exact hcs
  | cons hc rest =>
    rw [List.head?_cons, Option.any_some] at hcs ⊢
    rw [hp _ _ hc, hcs]

/-- The same for one sign. -/
theorem head?_ne (h : Near cs cs') {m : Char} (hm : m.isAlpha = false) (hgap : isGap m = false)
    (hcs : cs.head? ≠ some m) : cs'.head? ≠ some m := by
  intro hcs'
  cases h with
  | nil => cases hcs'
  | blank hc =>
    rw [Option.some.inj hcs'] at hc
    rw [hgap] at hc
    cases hc
  | newline => exact hcs hcs'
  | @cons c c' _ _ hc rest =>
    have hm' : c' = m := Option.some.inj hcs'
    have hc' : SameLetter m c := by rw [← hm']; exact hc.symm
    exact hcs (congrArg some (hc'.eq_of_not_isAlpha hm))

end Near

/-- Where the line or the text ends, it still does. -/
def KeepsEnd (cs cs' : List Char) : Prop := (∀ c ∈ cs.head?, c = '\n') → cs'.head? = cs.head?

/-! ## The longest front of a text -/

theorem takeWhile_append_stop {p : Char → Bool} {a b : List Char} (ha : ∀ c ∈ a, p c = true)
    (hb : b.head?.any p = false) : (a ++ b).takeWhile p = a := by
  rw [List.takeWhile_append_of_pos ha]
  cases b with
  | nil => simp
  | cons c b =>
    rw [List.head?_cons, Option.any_some] at hb
    simp [hb]

theorem drop_takeWhile (q : Char → Bool) (cs : List Char) : cs.drop (cs.takeWhile q).length = cs.dropWhile q := by
  have hsplit := List.takeWhile_append_dropWhile (p := q) (l := cs)
  calc cs.drop (cs.takeWhile q).length
      = (cs.takeWhile q ++ cs.dropWhile q).drop (cs.takeWhile q).length := by rw [hsplit]
    _ = cs.dropWhile q := List.drop_left

theorem any_head?_drop_takeWhile (p : Char → Bool) (cs : List Char) :
    (cs.drop (cs.takeWhile p).length).head?.any p = false := by
  rw [drop_takeWhile]
  have h := List.head?_dropWhile_not p cs
  cases hd : (cs.dropWhile p).head? with
  | none => rfl
  | some c =>
    rw [hd] at h
    exact h

/-- The longest front of a text, and what stands behind it. -/
theorem exists_takeWhile (p : Char → Bool) (cs : List Char) :
    ∃ a b, cs = a ++ b ∧ (∀ c ∈ a, p c = true) ∧ b.head?.any p = false :=
  ⟨cs.takeWhile p, cs.drop (cs.takeWhile p).length, eq_append_drop (List.takeWhile_prefix p),
    List.all_eq_true.1 List.all_takeWhile, any_head?_drop_takeWhile p cs⟩

section

variable {p : Char → Bool} {front front' rest rest' : List Char}

/-- What stands behind the longest front. -/
theorem any_head?_of_takeWhile (h : (front ++ rest).takeWhile p = front) : rest.head?.any p = false := by
  have hdrop := any_head?_drop_takeWhile p (front ++ rest)
  rwa [h, List.drop_left] at hdrop

theorem forall_of_takeWhile (h : (front ++ rest).takeWhile p = front) : ∀ c ∈ front, p c = true := by
  rw [← h]
  exact List.all_eq_true.1 List.all_takeWhile

/-- **The longest front before other text.** -/
theorem takeWhile_near (hgap : p ' ' = false ∧ p '\t' = false) (hp : ∀ c c', SameLetter c c' → p c' = p c)
    (h : (front ++ rest).takeWhile p = front) (hfront : SameLetters front front') (hrest : Near rest rest') :
    (front' ++ rest').takeWhile p = front' :=
  takeWhile_append_stop (SameLetters.all hp hfront (forall_of_takeWhile h))
    (hrest.head hgap hp (any_head?_of_takeWhile h))

/-- The same up to the same end, whatever the characters are. -/
theorem takeWhile_same (h : (front ++ rest).takeWhile p = front) (hnext : rest'.head? = rest.head?) :
    (front ++ rest').takeWhile p = front :=
  takeWhile_append_stop (forall_of_takeWhile h) (by rw [hnext]; exact any_head?_of_takeWhile h)

end

/-- The rest of a line, up to the same end. -/
theorem restOfLine_near {cs rest rest' : List Char} (hcs : cs = restOfLine cs ++ rest) (hend : KeepsEnd rest rest') :
    restOfLine (restOfLine cs ++ rest') = restOfLine cs ∧ rest'.head? = rest.head? := by
  have hbefore : (restOfLine cs ++ rest).takeWhile (· != '\n') = restOfLine cs := by
    rw [← hcs]
    rfl
  have hnext : rest'.head? = rest.head? := by
    refine hend fun c hc => ?_
    have hstop := any_head?_of_takeWhile hbefore
    rw [Option.mem_def.1 hc] at hstop
    simpa using hstop
  exact ⟨takeWhile_same hbefore hnext, hnext⟩

/-! ## Words -/

/-- The word with letter `c` and the further letters `more`, in upper case. -/
def upperWord (c : Char) (more : List Char) : String := String.ofList ((c :: more).map Char.toUpper)

/-- The same in lower case. -/
def lowerWord (c : Char) (more : List Char) : String := String.ofList ((c :: more).map Char.toLower)

section

variable {c : Char} {more : List Char} (hmore : ∀ d ∈ more, isNamePart d = true)
include hmore

theorem word_dollar (r : List Char) : word c (more ++ '$' :: r) =
    if isKeyword (upperWord c more ++ "$") then ⟨.keyword, upperWord c more ++ "$", more ++ ['$'], []⟩
    else ⟨.identifier, lowerWord c more ++ "$", more ++ ['$'], []⟩ := by
  have htake : (more ++ '$' :: r).takeWhile isNamePart = more := takeWhile_append_stop hmore rfl
  unfold word
  rw [htake]
  dsimp only
  rw [List.drop_left]
  rfl

theorem word_mark {m : Char} (hm : m = '%' ∨ m = '!') (hkey : isKeyword (upperWord c more) = false) (r : List Char) :
    word c (more ++ m :: r) = ⟨.identifier, lowerWord c more ++ String.singleton m, more ++ [m], []⟩ := by
  have hhead : (m :: r).head?.any isNamePart = false := by rcases hm with rfl | rfl <;> rfl
  have hkey' : isKeyword (String.ofList ((c :: more).map Char.toUpper)) = false := hkey
  unfold word
  rw [takeWhile_append_stop hmore hhead]
  dsimp only
  rw [List.drop_left]
  rcases hm with rfl | rfl <;> simp only [hkey'] <;> rfl

/-- A word without a type mark. -/
theorem word_plain {after : List Char} (hafter : after.head?.any isNamePart = false) (hdollar : after.head? ≠ some '$')
    (hmark : ∀ m ∈ after.head?, m = '%' ∨ m = '!' → isKeyword (upperWord c more) = true) :
    word c (more ++ after) =
      if upperWord c more == "REM" then
        ⟨.comment, String.ofList (Text.trimChars (restOfLine after)), more ++ restOfLine after, []⟩
      else if isKeyword (upperWord c more) then ⟨.keyword, upperWord c more, more, []⟩
      else ⟨.identifier, lowerWord c more, more, []⟩ := by
  unfold word
  rw [takeWhile_append_stop hmore hafter]
  dsimp only
  rw [List.drop_left]
  split
  · exact absurd rfl hdollar
  · rename_i m r _
    have hkeyword : ((m == '%' || m == '!') && !isKeyword (String.ofList ((c :: more).map Char.toUpper))) = false := by
      cases hm : (m == '%' || m == '!') with
      | false => rfl
      | true =>
        have hkey : isKeyword (String.ofList ((c :: more).map Char.toUpper)) = true :=
          hmark m rfl (by simpa using hm)
        rw [hkey]
        rfl
    rw [hkeyword]
    rfl
  · rfl

end

section

variable {c c' : Char} {more more' : List Char}

theorem upperWord_eq (hc : SameLetter c c') (h : SameLetters more more') : upperWord c' more' = upperWord c more := by
  rw [upperWord, upperWord, SameLetters.map_eq (fun _ _ => SameLetter.toUpper) (.cons hc h)]

theorem lowerWord_eq (hc : SameLetter c c') (h : SameLetters more more') : lowerWord c' more' = lowerWord c more := by
  rw [lowerWord, lowerWord, SameLetters.map_eq (fun _ _ hd => hd) (.cons hc h)]

/-- A sign behind a word stays in its place. -/
theorem SameLetters.split_sign {m : Char} (hm : m.isAlpha = false) {tail' : List Char}
    (h : SameLetters (more ++ [m]) tail') : ∃ more', tail' = more' ++ [m] ∧ SameLetters more more' := by
  obtain ⟨more', b, rfl, hmore, hb⟩ := h.split
  cases hb with
  | cons hc hnil =>
    cases hnil
    exact ⟨more', by rw [hc.eq_of_not_isAlpha hm], hmore⟩

end

/-- **A word before other text.** -/
theorem word_near {c c' : Char} {cs rest tail' rest' : List Char} (hcs : cs = (word c cs).tail ++ rest)
    (hletters : SameLetters (c :: (word c cs).tail) (c' :: tail'))
    (hcomment : (word c cs).kind = .comment → c' = c ∧ tail' = (word c cs).tail ∧ KeepsEnd rest rest')
    (hrest : Near rest rest') : word c' (tail' ++ rest') = { word c cs with tail := tail' } := by
  obtain ⟨more, after, rfl, hmore, hafter⟩ := exists_takeWhile isNamePart cs
  obtain ⟨hc, htail⟩ := List.forall₂_cons.1 hletters
  by_cases hdollar : after.head? = some '$'
  · -- a name or a function of texts
    obtain ⟨r, rfl⟩ : ∃ r, after = '$' :: r := by
      cases after with
      | nil => cases hdollar
      | cons d r => exact ⟨r, by rw [Option.some.inj hdollar]⟩
    rw [word_dollar hmore] at hcs htail ⊢
    have htake : ∀ b : Bool, (if b then (⟨.keyword, upperWord c more ++ "$", more ++ ['$'], []⟩ : Piece)
        else ⟨.identifier, lowerWord c more ++ "$", more ++ ['$'], []⟩).tail = more ++ ['$'] := by
      intro b
      cases b <;> rfl
    rw [htake] at hcs htail
    obtain ⟨more', rfl, hmore'⟩ := SameLetters.split_sign (by decide) htail
    have hparts := SameLetters.all (fun _ _ => SameLetter.isNamePart) hmore' hmore
    rw [List.append_assoc, List.singleton_append, word_dollar hparts, upperWord_eq hc hmore', lowerWord_eq hc hmore']
    split <;> rfl
  by_cases hmark : ∃ m, after.head? = some m ∧ (m = '%' ∨ m = '!') ∧ isKeyword (upperWord c more) = false
  · obtain ⟨m, hm, hsign, hkey⟩ := hmark
    obtain ⟨r, rfl⟩ : ∃ r, after = m :: r := by
      cases after with
      | nil => cases hm
      | cons d r => exact ⟨r, by rw [Option.some.inj hm]⟩
    rw [word_mark hmore hsign hkey] at hcs htail ⊢
    obtain ⟨more', rfl, hmore'⟩ := SameLetters.split_sign (by rcases hsign with rfl | rfl <;> rfl) htail
    have hparts := SameLetters.all (fun _ _ => SameLetter.isNamePart) hmore' hmore
    rw [List.append_assoc, List.singleton_append, word_mark hparts hsign (by rw [upperWord_eq hc hmore', hkey]),
      lowerWord_eq hc hmore']
  have hkey : ∀ m ∈ after.head?, m = '%' ∨ m = '!' → isKeyword (upperWord c more) = true := by
    intro m hm hsign
    by_contra hne
    exact hmark ⟨m, hm, hsign, by simpa using hne⟩
  rw [word_plain hmore hafter hdollar hkey] at hcs htail hcomment ⊢
  by_cases hrem : (upperWord c more == "REM") = true
  · -- a comment takes the rest of the line, and nothing of it changes
    rw [if_pos hrem] at hcs htail hcomment ⊢
    obtain ⟨rfl, rfl, hend⟩ := hcomment rfl
    dsimp only at hcs ⊢
    rw [List.append_assoc, List.append_cancel_left_eq] at hcs
    obtain ⟨hline, hnext⟩ := restOfLine_near hcs hend
    have hhead : (restOfLine after ++ rest').head? = after.head? := by
      rw [List.head?_append, hnext, ← List.head?_append, ← hcs]
    rw [List.append_assoc, word_plain hmore (by rw [hhead, hafter]) (by rw [hhead]; exact hdollar)
      (by rw [hhead]; exact hkey), if_pos hrem, hline]
  · -- nothing but the word
    rw [if_neg hrem] at hcs htail ⊢
    have hplain : ∀ b : Bool, (if b then (⟨.keyword, upperWord c more, more, []⟩ : Piece)
        else ⟨.identifier, lowerWord c more, more, []⟩).tail = more := by
      intro b
      cases b <;> rfl
    rw [hplain] at hcs htail
    have hsame : after = rest := List.append_cancel_left hcs
    subst hsame
    have hafter' := hrest.head (by decide) (fun _ _ => SameLetter.isNamePart) hafter
    have hdollar' := hrest.head?_ne (by decide) (by decide) hdollar
    have hkey' : ∀ m ∈ rest'.head?, m = '%' ∨ m = '!' → isKeyword (upperWord c more) = true := by
      intro m hm hsign
      by_contra hne
      have hnone : ∀ n, n = '%' ∨ n = '!' → after.head? ≠ some n := fun n hn hhead => hne (hkey n hhead hn)
      refine hrest.head?_ne ?_ ?_ (hnone m hsign) hm <;> rcases hsign with rfl | rfl <;> rfl
    have hupper := upperWord_eq hc htail
    rw [word_plain (SameLetters.all (fun _ _ => SameLetter.isNamePart) htail hmore) hafter' hdollar'
      (by rw [hupper]; exact hkey'), hupper, if_neg hrem, lowerWord_eq hc htail]
    split <;> rfl

/-! ## Numbers -/

/-- A character that stands in the other text where no blank was put, and no line ends. -/
theorem Near.cons_inv {cs cs' : List Char} {c' : Char} (h : Near cs (c' :: cs')) (hgap : isGap c' = false)
    (hline : c' ≠ '\n') : ∃ c r, cs = c :: r ∧ SameLetter c c' ∧ Near r cs' := by
  cases h with
  | blank hc =>
    rw [hgap] at hc
    cases hc
  | newline => exact absurd rfl hline
  | cons hc rest => exact ⟨_, _, rfl, hc, rest⟩

/-- No exponent comes about. -/
theorem HasExponent.of_near {cs cs' : List Char} (h : Near cs cs') (hcs' : HasExponent cs') : HasExponent cs := by
  have hdigit : ∀ d, Text.isDigit d = true → isGap d = false ∧ d ≠ '\n' := by
    intro d hd
    constructor
    · cases hgap : isGap d with
      | false => rfl
      | true => rcases eq_of_isGap hgap with rfl | rfl <;> exact absurd hd (by decide)
    · rintro rfl
      exact absurd hd (by decide)
  have hmark : ∀ e, e = 'e' ∨ e = 'E' → isGap e = false ∧ e ≠ '\n' := by
    rintro e (rfl | rfl) <;> decide
  have hletter : ∀ e e', SameLetter e e' → e' = 'e' ∨ e' = 'E' → e = 'e' ∨ e = 'E' := by
    intro e e' he he'
    have heq : (e' == 'e' || e' == 'E') = (e == 'e' || e == 'E') :=
      SameLetter.congr (f := fun c => c == 'e' || c == 'E') (Text.forall_of_all (by decide)) he
    have htrue : (e' == 'e' || e' == 'E') = true := by rcases he' with rfl | rfl <;> rfl
    rw [htrue] at heq
    simpa using heq.symm
  rcases hcs' with ⟨e', d', r', rfl, he', hd'⟩ | ⟨e', s', d', r', rfl, he', hs', hd'⟩
  · obtain ⟨e, r, rfl, he, hr⟩ := h.cons_inv (hmark e' he').1 (hmark e' he').2
    obtain ⟨d, r, rfl, hd, -⟩ := hr.cons_inv (hdigit d' hd').1 (hdigit d' hd').2
    exact .inl ⟨e, d, r, rfl, hletter e e' he he', by rw [← hd.isDigit, hd']⟩
  · obtain ⟨e, r, rfl, he, hr⟩ := h.cons_inv (hmark e' he').1 (hmark e' he').2
    have hsign : isGap s' = false ∧ s' ≠ '\n' ∧ s'.isAlpha = false := by rcases hs' with rfl | rfl <;> decide
    obtain ⟨s, r, rfl, hs, hr⟩ := hr.cons_inv hsign.1 hsign.2.1
    obtain ⟨d, r, rfl, hd, -⟩ := hr.cons_inv (hdigit d' hd').1 (hdigit d' hd').2
    have hsame : s = s' := hs.symm.eq_of_not_isAlpha hsign.2.2
    exact .inr ⟨e, s, d, r, rfl, hletter e e' he he', hsame ▸ hs', by rw [← hd.isDigit, hd']⟩

section

variable {front rest rest' : List Char}

theorem digits_near (h : (front ++ rest).takeWhile Text.isDigit = front) (hrest : Near rest rest') :
    (front ++ rest').takeWhile Text.isDigit = front :=
  takeWhile_near (by decide) (fun _ _ => SameLetter.isDigit) h (.refl _) hrest

theorem exponent_near (h : exponent (front ++ rest) = front) (hrest : Near rest rest') :
    exponent (front ++ rest') = front := by
  by_cases hexp : HasExponent (front ++ rest)
  · -- the digits are as many as before, and the first of them is still one
    have hdigits : ∀ {ds : List Char} {d : Char} {r : List Char}, d :: r = ds ++ rest → Text.isDigit d = true →
        (d :: r).takeWhile Text.isDigit = ds →
        ∃ r', ds ++ rest' = d :: r' ∧ (d :: r').takeWhile Text.isDigit = ds := by
      intro ds d r hr hd htake
      cases ds with
      | nil => simp [hd] at htake
      | cons x ds =>
        obtain ⟨rfl, -⟩ := List.cons.inj hr
        refine ⟨ds ++ rest', rfl, ?_⟩
        rw [hr] at htake
        exact digits_near htake hrest
    rcases hexp with ⟨e, d, r, hcs, he, hd⟩ | ⟨e, s, d, r, hcs, he, hs, hd⟩
    · rw [hcs, exponent_digits he hd] at h
      subst h
      obtain ⟨r', hr', htake⟩ := hdigits (List.cons.inj hcs).2.symm hd rfl
      rw [List.cons_append, hr', exponent_digits he hd, htake]
    · rw [hcs, exponent_signed he hs hd] at h
      subst h
      obtain ⟨r', hr', htake⟩ := hdigits (List.cons.inj (List.cons.inj hcs).2).2.symm hd rfl
      rw [List.cons_append, List.cons_append, hr', exponent_signed he hs hd, htake]
  · rw [exponent_eq_nil hexp] at h
    subst h
    exact exponent_eq_nil (mt (HasExponent.of_near hrest) hexp)

theorem fraction_eq_nil {cs : List Char} (h : cs.head? ≠ some '.') : fraction cs = [] := by
  unfold fraction
  split
  · exact absurd rfl h
  · rfl

theorem fraction_near (h : fraction (front ++ rest) = front) (hrest : Near rest rest') :
    fraction (front ++ rest') = front := by
  by_cases hpoint : (front ++ rest).head? = some '.'
  · cases front with
    | nil =>
      obtain ⟨ds, hds⟩ : ∃ ds, rest = '.' :: ds := by
        cases rest with
        | nil => cases hpoint
        | cons d ds => exact ⟨ds, by rw [Option.some.inj hpoint]⟩
      rw [hds] at h
      cases h
    | cons d ds =>
      have hd : d = '.' := Option.some.inj hpoint
      subst hd
      have htake : (ds ++ rest).takeWhile Text.isDigit = ds := (List.cons.inj h).2
      show '.' :: (ds ++ rest').takeWhile Text.isDigit = '.' :: ds
      rw [digits_near htake hrest]
  · rw [fraction_eq_nil hpoint] at h
    subst h
    exact fraction_eq_nil (hrest.head?_ne (by decide) (by decide) hpoint)

/-- **A decimal number in parts**: digits, a fraction and an exponent, each before the next one. -/
structure NumeralParts (whole part exp rest : List Char) : Prop where
  whole : (whole ++ (part ++ (exp ++ rest))).takeWhile Text.isDigit = whole
  part : fraction (part ++ (exp ++ rest)) = part
  exp : exponent (exp ++ rest) = exp

theorem NumeralParts.numeral_eq {whole part exp rest : List Char} (h : NumeralParts whole part exp rest) :
    numeral (whole ++ (part ++ (exp ++ rest))) = whole ++ part ++ exp := by
  unfold numeral
  simp only [h.whole, List.drop_left, h.part]
  rw [← List.drop_drop, List.drop_left, List.drop_left, h.exp]

theorem exists_numeralParts (cs : List Char) : ∃ whole part exp rest, cs = whole ++ (part ++ (exp ++ rest)) ∧
    NumeralParts whole part exp rest := by
  obtain ⟨after, hwhole⟩ : cs.takeWhile Text.isDigit <+: cs := List.takeWhile_prefix _
  obtain ⟨after', hpart⟩ := (fraction_spec after).1
  obtain ⟨rest, hexp⟩ := (exponent_spec after').1
  refine ⟨cs.takeWhile Text.isDigit, fraction after, exponent after', rest, ?_, ?_, ?_, ?_⟩
  · rw [hexp, hpart, hwhole]
  · rw [hexp, hpart, hwhole]
  · rw [hexp, hpart]
  · rw [hexp]

/-- **A decimal number before other text.** -/
theorem numeral_near (h : numeral (front ++ rest) = front) (hrest : Near rest rest') :
    numeral (front ++ rest') = front := by
  obtain ⟨whole, part, exp, rest₀, hcs, hparts⟩ := exists_numeralParts (front ++ rest)
  rw [hcs, hparts.numeral_eq] at h
  subst h
  have hsame : rest = rest₀ := by simpa using hcs
  subst hsame
  have hexp := exponent_near hparts.exp hrest
  have hpart := fraction_near hparts.part (.append (.refl exp) hrest)
  have hwhole := digits_near hparts.whole (.append (.refl part) (.append (.refl exp) hrest))
  rw [List.append_assoc, List.append_assoc]
  exact NumeralParts.numeral_eq ⟨hwhole, hpart, hexp⟩

end

theorem number_near {c : Char} (hc : Text.isDigit c = true ∨ c = '.') {cs rest rest' : List Char}
    (hcs : cs = (number c cs).tail ++ rest) (hrest : Near rest rest') :
    number c ((number c cs).tail ++ rest') = number c cs := by
  have hbefore : numeral (c :: (number c cs).tail ++ rest) = c :: (number c cs).tail := by
    rw [List.cons_append, ← hcs, numeral_cons hc]
  have hafter : numeral (c :: ((number c cs).tail ++ rest')) = c :: (number c cs).tail := numeral_near hbefore hrest
  generalize (number c cs).tail = tail at hafter hcs hbefore ⊢
  unfold number
  rw [hafter, ← hbefore, List.cons_append, ← hcs]

/-! ## Numbers with a base, strings, external commands, signs -/

section

variable {p : Piece} {cs rest tail' rest' : List Char}

/-- The digits of a number with a base. -/
theorem based_near {kind : Kind} {lead lead' digits digits' : List Char} (hp : based kind lead digits = .ok p)
    (hdigits : SameLetters digits digits') :
    based kind lead' digits' = .ok { p with tail := lead' ++ digits' } := by
  obtain ⟨hne, rfl⟩ := based_eq_ok hp
  have hne' : digits'.isEmpty = false := List.isEmpty_eq_false_iff.2 (SameLetters.ne_nil hdigits hne)
  unfold based
  rw [if_neg (by rw [hne']; exact Bool.false_ne_true), SameLetters.map_eq (fun _ _ h => h) hdigits]

/-- A digit of a binary number. -/
def isBinDigit (d : Char) : Bool := d == '0' || d == '1'

/-- The letter of base two. -/
def isBinMark (x : Char) : Bool := x == 'x' || x == 'X'

/-- The letter of base sixteen. -/
def isHexMark (x : Char) : Bool := x == 'h' || x == 'H'

theorem isMark_of_isHexDigit {x : Char} (hx : isHexDigit x = true) : isBinMark x = false ∧ isHexMark x = false := by
  have hmarks : ∀ m ∈ ['x', 'X', 'h', 'H'], isHexDigit m = false := Text.forall_of_all (by decide)
  have hne : ∀ m ∈ ['x', 'X', 'h', 'H'], x ≠ m := by
    rintro m hm rfl
    rw [hmarks x hm] at hx
    cases hx
  simp [isBinMark, isHexMark, hne 'x', hne 'X', hne 'h', hne 'H']

/-- **The three forms of a number with a base.** -/
theorem ampersand_cons (x : Char) (ds : List Char) : ampersand (x :: ds) =
    if isBinMark x then based .binNumber [x] (ds.takeWhile isBinDigit)
    else if isHexMark x && ds.head?.any isHexDigit then based .hexNumber [x] (ds.takeWhile isHexDigit)
    else based .hexNumber [] ((x :: ds).takeWhile isHexDigit) := rfl

/-- The digits behind a letter. -/
theorem digits_of_based {q : Char → Bool} {kind : Kind} {x : Char} {ds : List Char}
    (hp : based kind [x] (ds.takeWhile q) = .ok p) (hcs : x :: ds = p.tail ++ rest)
    (hletters : SameLetters p.tail tail') :
    ∃ x' digits', tail' = x' :: digits' ∧ SameLetter x x' ∧ SameLetters (ds.takeWhile q) digits' ∧ digits' ≠ [] ∧
      (ds.takeWhile q ++ rest).takeWhile q = ds.takeWhile q := by
  obtain ⟨hne, rfl⟩ := based_eq_ok hp
  obtain ⟨x', digits', hx, hdigits, rfl⟩ := List.forall₂_cons_left_iff.1 hletters
  have hds : ds = ds.takeWhile q ++ rest := (List.cons.inj hcs).2
  exact ⟨x', digits', rfl, hx, hdigits, SameLetters.ne_nil hdigits hne, by rw [← hds]⟩

theorem ampersand_near (hp : ampersand cs = .ok p) (hcs : cs = p.tail ++ rest) (hletters : SameLetters p.tail tail')
    (hrest : Near rest rest') : ampersand (tail' ++ rest') = .ok { p with tail := tail' } := by
  have hbin : ∀ c c', SameLetter c c' → isBinDigit c' = isBinDigit c := fun _ _ h =>
    h.congr (Text.forall_of_all (by decide))
  have hbinMark : ∀ c c', SameLetter c c' → isBinMark c' = isBinMark c := fun _ _ h =>
    h.congr (Text.forall_of_all (by decide))
  have hhexMark : ∀ c c', SameLetter c c' → isHexMark c' = isHexMark c := fun _ _ h =>
    h.congr (Text.forall_of_all (by decide))
  cases cs with
  | nil => cases hp
  | cons x ds =>
    rw [ampersand_cons] at hp
    split at hp
    · -- a binary number
      rename_i hmark
      obtain ⟨x', digits', rfl, hx, hdigits, -, htake⟩ := digits_of_based hp hcs hletters
      rw [List.cons_append, ampersand_cons, hbinMark x x' hx, if_pos hmark,
        takeWhile_near (by decide) hbin htake hdigits hrest]
      exact based_near hp hdigits
    rename_i hmark
    split at hp
    · -- a hexadecimal number with its letter
      rename_i hhex
      obtain ⟨x', digits', rfl, hx, hdigits, hne, htake⟩ := digits_of_based hp hcs hletters
      have hhead : (digits' ++ rest').head?.any isHexDigit = true := by
        obtain ⟨d, r, rfl⟩ := List.exists_cons_of_ne_nil hne
        exact SameLetters.all (fun _ _ => SameLetter.isHexDigit) hdigits (forall_of_takeWhile htake) d (by simp)
      rw [Bool.and_eq_true] at hhex
      rw [List.cons_append, ampersand_cons, hbinMark x x' hx, if_neg hmark, hhexMark x x' hx, hhex.1, hhead,
        Bool.and_self, if_pos rfl, takeWhile_near (by decide) (fun _ _ => SameLetter.isHexDigit) htake hdigits hrest]
      exact based_near hp hdigits
    · -- digits only, and the first of them is none of the letters
      obtain ⟨hne, hpiece⟩ := based_eq_ok hp
      have htail : p.tail = (x :: ds).takeWhile isHexDigit := by rw [hpiece]; rfl
      rw [htail] at hcs hletters
      have htake : ((x :: ds).takeWhile isHexDigit ++ rest).takeWhile isHexDigit = (x :: ds).takeWhile isHexDigit := by
        rw [← hcs]
      have hall := SameLetters.all (fun _ _ => SameLetter.isHexDigit) hletters (forall_of_takeWhile htake)
      have htake' := takeWhile_near (by decide) (fun _ _ => SameLetter.isHexDigit) htake hletters hrest
      obtain ⟨x', ds', rfl⟩ := List.exists_cons_of_ne_nil (SameLetters.ne_nil hletters hne)
      have hx' := isMark_of_isHexDigit (hall x' (by simp))
      rw [List.cons_append] at htake' ⊢
      rw [ampersand_cons, hx'.1, hx'.2, if_neg Bool.false_ne_true, if_neg (by simp), htake']
      exact based_near hp hletters

theorem bar_near (hp : bar cs = .ok p) (hcs : cs = p.tail ++ rest) (hletters : SameLetters p.tail tail')
    (hrest : Near rest rest') : bar (tail' ++ rest') = .ok { p with tail := tail' } := by
  unfold bar at hp
  dsimp only at hp
  split at hp
  · cases hp
  · rename_i hne
    cases hp
    dsimp only at hcs hletters ⊢
    have htake : (cs.takeWhile isNamePart ++ rest).takeWhile isNamePart = cs.takeWhile isNamePart := by rw [← hcs]
    have htake' := takeWhile_near (by decide) (fun _ _ => SameLetter.isNamePart) htake hletters hrest
    have hne' : tail'.isEmpty = false :=
      List.isEmpty_eq_false_iff.2 (SameLetters.ne_nil hletters (mt List.isEmpty_iff.2 hne))
    unfold bar
    rw [htake']
    dsimp only
    rw [hne', if_neg Bool.false_ne_true, SameLetters.map_eq (fun _ _ h => h) hletters]

/-- A string and what stands behind its contents. -/
theorem string_append {contents after : List Char} (hcontents : ∀ c ∈ contents, (c != '"' && c != '\n') = true)
    (hafter : after.head?.any (fun c => c != '"' && c != '\n') = false) : string (contents ++ after) =
    { kind := .string
      lexeme := String.ofList contents
      tail := if after.head? == some '"' then contents ++ ['"'] else contents
      warnings :=
        (if after.head? == some '"' then [] else [.unterminated contents]) ++
          (if contents.any (·.toNat == 0xFFFD) then [.undecodable] else []) } := by
  unfold string
  rw [takeWhile_append_stop hcontents hafter]
  dsimp only
  rw [List.drop_left]

theorem string_near (hcs : cs = (string cs).tail ++ rest) (hend : KeepsEnd rest rest') :
    string ((string cs).tail ++ rest') = string cs := by
  obtain ⟨contents, after, rfl, hcontents, hafter⟩ := exists_takeWhile (fun c => c != '"' && c != '\n') cs
  -- what stands behind the contents starts with the same character as before
  have hrest : ∃ after', (string (contents ++ after)).tail ++ rest' = contents ++ after' ∧
      after'.head? = after.head? := by
    rw [string_append hcontents hafter] at hcs ⊢
    dsimp only at hcs ⊢
    by_cases hclosed : after.head? = some '"'
    · rw [if_pos (by simp [hclosed]), List.append_assoc]
      exact ⟨['"'] ++ rest', rfl, by rw [hclosed]; rfl⟩
    · rw [if_neg (by simp [hclosed]), List.append_cancel_left_eq] at hcs
      rw [if_neg (by simp [hclosed])]
      subst hcs
      refine ⟨rest', rfl, hend fun c hc => ?_⟩
      -- an open string reaches to the end of its line
      rw [Option.mem_def.1 hc] at hclosed hafter
      simp only [Option.any_some, Bool.and_eq_false_iff, bne_eq_false_iff_eq] at hafter
      exact hafter.resolve_left fun hquote => hclosed (congrArg some hquote)
  obtain ⟨after', hafter', hhead⟩ := hrest
  rw [hafter', string_append hcontents hafter, string_append hcontents (by rw [hhead, hafter]), hhead]

theorem sign_less {cs : List Char} (h : cs.head? ≠ some '>') (h' : cs.head? ≠ some '=') :
    sign '<' cs = .ok ⟨.less, "<", [], []⟩ := by
  cases cs with
  | nil => rfl
  | cons d r =>
    have hgreater : d ≠ '>' := fun hd => h (congrArg some hd)
    have hequals : d ≠ '=' := fun hd => h' (congrArg some hd)
    simp [sign, hgreater, hequals]

theorem sign_greater {cs : List Char} (h : cs.head? ≠ some '=') : sign '>' cs = .ok ⟨.greater, ">", [], []⟩ := by
  cases cs with
  | nil => rfl
  | cons d r =>
    have hequals : d ≠ '=' := fun hd => h (congrArg some hd)
    simp [sign, hequals]

theorem sign_near {c : Char} (hp : sign c cs = .ok p) (hcs : cs = p.tail ++ rest) (hrest : Near rest rest') :
    sign c (p.tail ++ rest') = .ok p := by
  -- a sign of one character that is not part of a longer one
  have hhead : ∀ m : Char, m.isAlpha = false → isGap m = false → (∀ r, cs = m :: r → False) → cs = rest →
      rest'.head? ≠ some m := by
    rintro m hm hgap hne rfl
    refine hrest.head?_ne hm hgap fun h => ?_
    cases cs with
    | nil => cases h
    | cons d r => exact hne r (by rw [Option.some.inj h])
  unfold sign at hp
  dsimp only at hp
  split at hp
  case h_18 =>
    split at hp
    · cases hp
      rfl
    · cases hp
      rfl
    · rename_i hgreater hequals
      cases hp
      exact sign_less (hhead '>' rfl rfl hgreater hcs) (hhead '=' rfl rfl hequals hcs)
  case h_19 =>
    split at hp
    · cases hp
      rfl
    · rename_i hequals
      cases hp
      exact sign_greater (hhead '=' rfl rfl hequals hcs)
  case h_20 => cases hp
  all_goals
    cases hp
    rfl

end

/-! ## All tokens -/

/-- The kinds of tokens whose letters may be written in either case. -/
def caseless : List Kind := [.identifier, .keyword, .rsx, .hexNumber, .binNumber]

/-- The kinds of tokens that may take the blanks behind them. -/
def greedy : List Kind := [.string, .comment, .dataItems]

/-- The characters of a token of the given kind in another spelling. -/
def Recased (kind : Kind) (span span' : List Char) : Prop :=
  span' = span ∨ kind ∈ caseless ∧ SameLetters span span'

theorem Recased.sameLetters {kind : Kind} {span span' : List Char} (h : Recased kind span span') :
    SameLetters span span' := by
  rcases h with rfl | ⟨-, h⟩
  · exact .refl _
  · exact h

theorem Recased.eq {kind : Kind} {span span' : List Char} (h : Recased kind span span') (hk : kind ∉ caseless) :
    span' = span := h.resolve_right fun h => hk h.1

/-- The number that starts with a point has a digit next. -/
theorem head?_number_point {cs : List Char} (h : cs.head?.any Text.isDigit = true) :
    (number '.' cs).tail.head? = cs.head? := by
  cases cs with
  | nil => cases h
  | cons d r =>
    have hd : Text.isDigit d = true := h
    have hpoint : Text.isDigit '.' = false := by decide
    simp [number, numeral, fraction, hd, hpoint]

/-- A point starts a number or nothing. -/
theorem piece_point (cs : List Char) : piece '.' cs =
    if cs.head?.any Text.isDigit then .ok (number '.' cs) else .error (.unexpected '.') := by
  unfold piece
  cases cs.head?.any Text.isDigit <;> rfl

theorem sign_kind_not_caseless {c : Char} {cs : List Char} {p : Piece} (hp : sign c cs = .ok p) :
    p.kind ∉ caseless := by
  unfold sign at hp
  dsimp only at hp
  split at hp
  case h_18 => split at hp <;> (cases hp; show _ ∉ caseless; decide)
  case h_19 => split at hp <;> (cases hp; show _ ∉ caseless; decide)
  case h_20 => cases hp
  all_goals
    cases hp
    show _ ∉ caseless
    decide

/-- **A token before other text**, in another spelling. -/
theorem piece_near {c c' : Char} {cs rest tail' rest' : List Char} {p : Piece} (hp : piece c cs = .ok p)
    (hcs : cs = p.tail ++ rest) (hspan : Recased p.kind (c :: p.tail) (c' :: tail')) (hrest : Near rest rest')
    (hend : p.kind ∈ greedy → KeepsEnd rest rest') :
    piece c' (tail' ++ rest') = .ok { p with tail := tail' } := by
  have hletters := hspan.sameLetters
  obtain ⟨hc, htail⟩ := List.forall₂_cons.1 hletters
  have hsame : p.kind ∉ caseless → tail' = p.tail := fun hk => (List.cons.inj (hspan.eq hk)).2
  cases halpha : c.isAlpha with
  | true =>
    have halpha' : c'.isAlpha = true := by rw [hc.isAlpha, halpha]
    rw [piece, if_pos halpha] at hp
    cases hp
    rw [piece, if_pos halpha', word_near hcs hletters (fun hk => ?_) hrest]
    have hk' : (word c cs).kind ∉ caseless := by rw [hk]; decide
    exact ⟨(List.cons.inj (hspan.eq hk')).1, hsame hk', hend (by rw [hk]; decide)⟩
  | false =>
    have hc' := hc.eq_of_not_isAlpha halpha
    subst hc'
    by_cases hpoint : c' = '.'
    · -- the one case that looks at a second character, which the number keeps
      subst hpoint
      rw [piece_point] at hp
      split at hp
      · rename_i hd
        cases hp
        have hhead : ((number '.' cs).tail ++ rest').head?.any Text.isDigit = true := by
          rw [List.head?_append, head?_number_point hd]
          cases hcs' : cs.head? with
          | none =>
            rw [hcs'] at hd
            cases hd
          | some d =>
            rw [hcs'] at hd
            exact hd
        rw [hsame (show Kind.number ∉ caseless by decide), piece_point, if_pos hhead, number_near (.inr rfl) hcs hrest]
      · cases hp
    have hdigit : ∀ ds : List Char,
        (Text.isDigit c' || (c' == '.' && ds.head?.any Text.isDigit)) = Text.isDigit c' := by
      intro ds
      simp [hpoint]
    -- from here on the first character decides, and it is the same on both sides
    unfold piece at hp ⊢
    rw [hdigit, halpha, if_neg Bool.false_ne_true] at hp ⊢
    split at hp
    · rename_i hd
      cases hp
      rw [if_pos hd, hsame (show Kind.number ∉ caseless by decide), number_near (.inl hd) hcs hrest]
    rename_i hd
    rw [if_neg hd]
    split at hp
    · rename_i hmark
      rw [if_pos hmark]
      exact ampersand_near hp hcs htail hrest
    rename_i hmark
    rw [if_neg hmark]
    split at hp
    · rename_i hquote
      cases hp
      rw [if_pos hquote, hsame (show Kind.string ∉ caseless by decide),
        string_near hcs (hend (show Kind.string ∈ greedy by decide))]
    rename_i hquote
    rw [if_neg hquote]
    split at hp
    · rename_i htick
      cases hp
      obtain ⟨hline, -⟩ := restOfLine_near hcs (hend (show Kind.comment ∈ greedy by decide))
      rw [if_pos htick, hsame (show Kind.comment ∉ caseless by decide)]
      dsimp only
      rw [hline]
    rename_i htick
    rw [if_neg htick]
    split at hp
    · rename_i hbar
      rw [if_pos hbar]
      exact bar_near hp hcs htail hrest
    · rename_i hbar
      rw [if_neg hbar, hsame (sign_kind_not_caseless hp), sign_near hp hcs hrest]

end Locomotive.Token
