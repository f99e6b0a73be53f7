import Locomotive.Proofs.Buffer
import Locomotive.Proofs.Split
import Mathlib.Data.List.Induction
import Mathlib.Data.List.Sort

/-!
# A buffer holds the latest lines

Entering lines is writing to a map: each line is written under its number, however many zeros stand in front of it,
and a number alone takes the line of that number out. What a buffer holds under a number depends on nothing but the
last line with that number, so the order of other lines does not matter, and neither does a line that is refused.

* `Buffer.Enters`: the number of a line and what stands behind it.
* `Buffer.mem_ofLines`: what a buffer holds under a number.
* `Buffer.ofLines_latest`: the text of a buffer.
-/

namespace Locomotive

/-! ## Numbers in front of lines -/

namespace Text

theorem dropWhile_eq_self_of_prefix {p : Char → Bool} {as cs : List Char} (h : as <+: cs.dropWhile p) :
    as.dropWhile p = as := by
  cases as with
  | nil => rfl
  | cons a as =>
    obtain ⟨rest, hrest⟩ := h
    have hfirst := List.head?_dropWhile_not p cs
    rw [← hrest] at hfirst
    exact List.dropWhile_cons_of_neg (by simpa using hfirst)

/-- There are no more blanks to trim. -/
theorem trimChars_trimChars (cs : List Char) : trimChars (trimChars cs) = trimChars cs := by
  have hend : (cs.dropWhile isBlank).reverse.dropWhile isBlank <:+ (cs.dropWhile isBlank).reverse :=
    List.dropWhile_suffix _
  have hfront : (trimChars cs).dropWhile isBlank = trimChars cs := by
    have hprefix := List.reverse_prefix.2 hend
    rw [List.reverse_reverse] at hprefix
    exact dropWhile_eq_self_of_prefix hprefix
  rw [trimChars, hfront, trimChars, dropEndWhile, dropEndWhile, List.reverse_reverse,
    dropWhile_eq_self_of_prefix (List.prefix_refl _)]

/-- **Digits** are zeros and the digits of their value. -/
theorem digits_eq {cs : List Char} (hne : cs ≠ []) (h : ∀ c ∈ cs, c.isDigit = true) :
    ∃ zeros, cs = List.replicate zeros '0' ++ (toString (digitsValue cs)).toList := by
  have hzeros : ∀ c ∈ cs.takeWhile (· == '0'), c = '0' := fun c hc =>
    beq_iff_eq.1 (List.all_eq_true.1 List.all_takeWhile c hc)
  have hsplit := (List.takeWhile_append_dropWhile (p := (· == '0')) (l := cs)).symm
  rw [← digitsValue_dropWhile, Nat.toString_eq_repr, Nat.toList_repr]
  cases hrest : cs.dropWhile (· == '0') with
  | nil =>
    -- nothing but zeros, of which the last one is the value
    rw [hrest, List.append_nil] at hsplit
    rw [← hsplit] at hzeros
    obtain ⟨c, r, rfl⟩ := List.exists_cons_of_ne_nil hne
    refine ⟨r.length, ?_⟩
    have hall := List.eq_replicate_of_mem hzeros
    rw [List.length_cons, List.replicate_succ'] at hall
    exact hall
  | cons d ds =>
    have hd : d ≠ '0' := by
      have hfirst := List.head?_dropWhile_not (· == '0') cs
      rw [hrest] at hfirst
      simpa using hfirst
    have hdigits : ∀ c ∈ d :: ds, c.isDigit = true := fun c hc => h c ((List.dropWhile_suffix _).mem (hrest ▸ hc))
    rw [hrest] at hsplit
    refine ⟨(cs.takeWhile (· == '0')).length, ?_⟩
    rw [toDigits_digitsValue hd hdigits, ← List.eq_replicate_of_mem hzeros]
    exact hsplit

/-- Zeros in front of a number do not change its value. -/
theorem digitsValue_zeros (zeros n : Nat) : digitsValue (List.replicate zeros '0' ++ (toString n).toList) = n := by
  induction zeros with
  | zero => exact digitsValue_toString n
  | succ zeros ih => exact ih

end Text

namespace Buffer

/-- **The line has the number `n`** and `rest` behind it: without the blanks around it, the line starts with the decimal
digits of a number that fits 64 bits, after any zeros. -/
structure Enters (line : String) (n : Nat) (rest : List Char) : Prop where
  digits : ∃ zeros, Text.trimChars line.toList = List.replicate zeros '0' ++ (toString n).toList ++ rest
  stops : ∀ c ∈ rest.head?, c.isDigit = false
  fits : n < 2 ^ 63

/-- The number of a line and what stands behind it. -/
def entered? (line : String) : Option (Nat × List Char) :=
  (Text.integerOf? ((Text.trimChars line.toList).takeWhile Char.isDigit)).map fun v =>
    (v.toNat, (Text.trimChars line.toList).dropWhile Char.isDigit)

theorem entered?_eq_some_iff {line : String} {n : Nat} {rest : List Char} :
    entered? line = some (n, rest) ↔ Enters line n rest := by
  unfold entered?
  constructor
  · intro h
    obtain ⟨v, hv, heq⟩ := Option.map_eq_some_iff.1 h
    obtain ⟨rfl, rfl⟩ := Prod.mk.inj heq
    have hdigits : ∀ c ∈ (Text.trimChars line.toList).takeWhile Char.isDigit, c.isDigit = true := fun c hc =>
      List.all_eq_true.1 List.all_takeWhile c hc
    obtain ⟨hsigned, hfits⟩ := Option.filter_eq_some_iff.1 hv
    have hne : (Text.trimChars line.toList).takeWhile Char.isDigit ≠ [] := by
      intro hnone
      rw [hnone] at hsigned
      cases hsigned
    rw [Text.signed?_digits hne hdigits] at hsigned
    cases hsigned
    rw [Int.toNat_natCast]
    obtain ⟨zeros, hzeros⟩ := Text.digits_eq hne hdigits
    refine ⟨⟨zeros, ?_⟩, fun c hc => ?_, ?_⟩
    · rw [← hzeros, List.takeWhile_append_dropWhile]
    · have hstop := List.head?_dropWhile_not Char.isDigit (Text.trimChars line.toList)
      rw [Option.mem_def.1 hc] at hstop
      simpa using hstop
    · unfold Text.leastWord at hfits
      simp only [Bool.and_eq_true, decide_eq_true_eq] at hfits
      omega
  · rintro ⟨⟨zeros, hline⟩, hstops, hfits⟩
    have hdigits : ∀ c ∈ List.replicate zeros '0' ++ (toString n).toList, c.isDigit = true :=
      List.forall_mem_append.2 ⟨fun c hc => List.eq_of_mem_replicate hc ▸ (by decide), fun c hc => isDigit_of_mem_toString hc⟩
    have hrest : rest.takeWhile Char.isDigit = [] ∧ rest.dropWhile Char.isDigit = rest := by
      cases rest with
      | nil => exact ⟨rfl, rfl⟩
      | cons c r =>
        have hc := hstops c rfl
        exact ⟨List.takeWhile_cons_of_neg (by simp [hc]), List.dropWhile_cons_of_neg (by simp [hc])⟩
    rw [hline, List.takeWhile_append_of_pos hdigits, List.dropWhile_append_of_pos hdigits, hrest.1, hrest.2,
      List.append_nil]
    have hne : List.replicate zeros '0' ++ (toString n).toList ≠ [] := by simp
    have hword : Text.leastWord ≤ (n : Int) ∧ (n : Int) < -Text.leastWord := by
      unfold Text.leastWord
      omega
    rw [Text.integerOf?, Text.signed?_digits hne hdigits, Text.digitsValue_zeros, Option.filter_some_pos (by simp [hword])]
    rfl

/-- **What entering a line does**: the line is written under its number, or taken out if there is nothing else. -/
theorem enter?_eq (b : Buffer) (line : String) : b.enter? line = (entered? line).map fun e =>
    if (Text.trimChars e.2).isEmpty then b.erase e.1 else b.put e.1 (Text.trim line) := by
  unfold enter? entered?
  dsimp only
  split
  · rename_i hnone
    rw [hnone]
    rfl
  · rename_i hsome
    rw [hsome]
    dsimp only [Option.map_some]
    split <;> rfl

/-! ## A line as a write -/

/-- What the line says about the number `n`: nothing, that there is no such line, or its text. -/
def says? (n : Nat) (line : String) : Option (Option String) :=
  (entered? line).bind fun e =>
    if e.1 = n then some (if (Text.trimChars e.2).isEmpty then none else some (Text.trim line)) else none

theorem says?_eq_none_iff {n : Nat} {line : String} : says? n line = none ↔ ∀ rest, ¬ Enters line n rest := by
  simp only [← entered?_eq_some_iff]
  unfold says?
  cases entered? line with
  | none => simp
  | some e =>
    obtain ⟨m, rest⟩ := e
    by_cases h : m = n <;> simp [h]

/-- The text that is written, and nothing but a text that has more than a number is. -/
theorem says?_eq_text_iff {n : Nat} {line text : String} : says? n line = some (some text) ↔
    ∃ rest, Enters line n rest ∧ Text.trimChars rest ≠ [] ∧ text = Text.trim line := by
  simp only [← entered?_eq_some_iff]
  unfold says?
  cases entered? line with
  | none => simp
  | some e =>
    obtain ⟨m, rest⟩ := e
    by_cases h : m = n
    · by_cases hblank : Text.trimChars rest = []
      · simp [h, hblank]
      · simp [h, hblank, @eq_comm _ (Text.trim line)]
    · simp [h]

theorem mem_insert_iff {n m : Nat} {text s : String} {ls : List (Nat × String)}
    (h : ls.Pairwise fun l k => l.1 < k.1) :
    (m, s) ∈ insert n text ls ↔ if m = n then s = text else (m, s) ∈ ls := by
  induction ls with
  | nil => by_cases hm : m = n <;> simp [insert, hm]
  | cons k ls ih =>
    obtain ⟨hfirst, hrest⟩ := List.pairwise_cons.1 h
    obtain ⟨l, t⟩ := k
    -- what has the number stands where the line is put, and nowhere else
    have hlater : n ≤ l → ∀ s, (n, s) ∉ ls := fun hle s hmem => Nat.not_lt.2 hle (hfirst _ hmem)
    rw [insert]
    split
    · rename_i hlt
      by_cases hm : m = n
      · subst hm
        simp [hlater (Nat.le_of_lt hlt), Nat.ne_of_lt hlt]
      · simp [hm]
    split
    · rename_i heq
      subst heq
      by_cases hm : m = n
      · subst hm
        simp [hlater (Nat.le_refl _)]
      · simp [hm]
    · rename_i hne
      rw [List.mem_cons, ih hrest]
      by_cases hm : m = n
      · subst hm
        simp [hne]
      · simp [hm]

theorem mem_erase_iff {b : Buffer} {n m : Nat} {s : String} : (m, s) ∈ (b.erase n).lines ↔ m ≠ n ∧ (m, s) ∈ b.lines := by
  simp [erase, and_comm]

/-- **One line**: what it says about a number is so, and what it says nothing about stays. -/
theorem mem_enter {b : Buffer} (h : b.lines.Pairwise fun l k => l.1 < k.1) (line : String) (n : Nat) (text : String) :
    (∀ said, says? n line = some said → ((n, text) ∈ ((b.enter? line).getD b).lines ↔ said = some text)) ∧
      (says? n line = none → ((n, text) ∈ ((b.enter? line).getD b).lines ↔ (n, text) ∈ b.lines)) := by
  rw [enter?_eq]
  unfold says?
  cases entered? line with
  | none => simp
  | some e =>
    obtain ⟨m, rest⟩ := e
    dsimp only [Option.map_some, Option.getD_some, Option.bind_some]
    by_cases hm : m = n
    · subst hm
      rw [if_pos rfl]
      refine ⟨?_, by simp⟩
      rintro said ⟨rfl⟩
      split
      · simp [mem_erase_iff]
      · rw [put, mem_insert_iff h, if_pos rfl, Option.some.injEq, eq_comm]
    · have hn : n ≠ m := fun heq => hm heq.symm
      rw [if_neg hm]
      refine ⟨by simp, fun _ => ?_⟩
      split
      · simp [mem_erase_iff, hn]
      · rw [put, mem_insert_iff h, if_neg hn]

theorem ascending_enter {b : Buffer} (h : b.lines.Pairwise fun l k => l.1 < k.1) (line : String) :
    ((b.enter? line).getD b).lines.Pairwise fun l k => l.1 < k.1 := by
  rw [enter?_eq]
  cases entered? line with
  | none => exact h
  | some e =>
    dsimp only [Option.map_some, Option.getD_some]
    split
    · exact h.sublist List.filter_sublist
    · exact insert_ascending h

theorem ofLines_snoc (ls : List String) (l : String) :
    ofLines (ls ++ [l]) = ((ofLines ls).enter? l).getD (ofLines ls) := by
  simp [ofLines]

/-- **All lines**: the numbers ascend, and the last line that says something about a number is right. -/
theorem ascending_ofLines (ls : List String) : (ofLines ls).lines.Pairwise fun l k => l.1 < k.1 := by
  induction ls using List.reverseRecOn with
  | nil => exact .nil
  | append_singleton ls l ih =>
    rw [ofLines_snoc]
    exact ascending_enter ih l

theorem mem_ofLines {ls : List String} {n : Nat} {text : String} :
    (n, text) ∈ (ofLines ls).lines ↔ ls.reverse.findSome? (says? n) = some (some text) := by
  induction ls using List.reverseRecOn with
  | nil => simp [ofLines]
  | append_singleton ls l ih =>
    obtain ⟨hsaid, hnone⟩ := mem_enter (ascending_ofLines ls) l n text
    rw [ofLines_snoc, List.reverse_append, List.reverse_singleton, List.singleton_append, List.findSome?_cons]
    cases hl : says? n l with
    | none => exact (hnone hl).trans ih
    | some said => simpa using hsaid said hl

/-- Buffers with the same lines are the same. -/
theorem eq_of_mem_iff {b b' : Buffer} (h : b.lines.Pairwise fun l k => l.1 < k.1)
    (h' : b'.lines.Pairwise fun l k => l.1 < k.1) (hmem : ∀ n text, (n, text) ∈ b.lines ↔ (n, text) ∈ b'.lines) :
    b = b' := by
  have hirrefl : Std.Irrefl fun l k : Nat × String => l.1 < k.1 := ⟨fun l => Nat.lt_irrefl l.1⟩
  have hantisymm : Std.Antisymm fun l k : Nat × String => l.1 < k.1 := ⟨fun l k hlk hkl => absurd hlk (Nat.lt_asymm hkl)⟩
  have hlines : b.lines = b'.lines := h.eq_of_mem_iff h' fun l => hmem l.1 l.2
  cases b
  cases b'
  rw [Buffer.mk.injEq]
  exact hlines

/-- **Lines with the same last words** on every number give the same buffer. -/
theorem ofLines_congr {ls ls' : List String}
    (h : ∀ n, ls.reverse.findSome? (says? n) = ls'.reverse.findSome? (says? n)) : ofLines ls = ofLines ls' :=
  eq_of_mem_iff (ascending_ofLines ls) (ascending_ofLines ls') fun n text => by rw [mem_ofLines, mem_ofLines, h n]

/-! ## The text of a buffer -/

/-- The texts of the lines. -/
def texts (b : Buffer) : List String := b.lines.map Prod.snd

/-- The text of a buffer is split into its lines again. -/
theorem splitAt_source {b : Buffer} (h : ∀ t ∈ b.texts, '\n' ∉ t.toList) :
    Text.splitAt '\n' b.source.toList = b.texts.map String.toList ++ [[]] := by
  unfold source texts at *
  generalize b.lines = ls at *
  induction ls with
  | nil => rfl
  | cons l ls ih =>
    obtain ⟨hl, hls⟩ := List.forall_mem_cons.1 h
    rw [List.map_cons, String.join_cons, String.toList_append, String.toList_append, List.append_assoc]
    refine (Text.splitAt_append '\n' _ _).trans ?_
    rw [Text.splitAt_of_not_mem hl]
    exact congrArg (l.2.toList :: ·) (ih hls)

theorem Enters.unique {line : String} {n m : Nat} {rest rest' : List Char} (h : Enters line n rest)
    (h' : Enters line m rest') : n = m := by
  have hsame := (entered?_eq_some_iff.2 h).symm.trans (entered?_eq_some_iff.2 h')
  exact congrArg Prod.fst (Option.some.inj hsame)

/-- The last words on a number, in terms of lines. -/
theorem mem_ofLines_iff {ls : List String} {n : Nat} {text : String} : (n, text) ∈ (ofLines ls).lines ↔
    ∃ before l after rest, ls = before ++ l :: after ∧ Enters l n rest ∧ Text.trimChars rest ≠ [] ∧ text = Text.trim l ∧
      ∀ k ∈ after, ∀ rest, ¬ Enters k n rest := by
  rw [mem_ofLines, List.findSome?_eq_some_iff]
  constructor
  · rintro ⟨after, l, before, hls, hsays, hafter⟩
    obtain ⟨rest, henters, hne, htext⟩ := says?_eq_text_iff.1 hsays
    refine ⟨before.reverse, l, after.reverse, rest, ?_, henters, hne, htext, fun k hk => ?_⟩
    · have := congrArg List.reverse hls
      simpa using this
    · exact says?_eq_none_iff.1 (hafter k (List.mem_reverse.1 hk))
  · rintro ⟨before, l, after, rest, rfl, henters, hne, htext, hafter⟩
    refine ⟨after.reverse, l, before.reverse, by simp, says?_eq_text_iff.2 ⟨rest, henters, hne, htext⟩, fun k hk => ?_⟩
    exact says?_eq_none_iff.2 (hafter k (List.mem_reverse.1 hk))

/-- A line of a buffer says itself, and this under its own number only. -/
theorem says?_of_mem {ls : List String} {n m : Nat} {text : String} (h : (n, text) ∈ (ofLines ls).lines) :
    says? m text = if m = n then some (some text) else none := by
  obtain ⟨before, l, after, rest, -, henters, hne, rfl, -⟩ := mem_ofLines_iff.1 h
  have htrim : Text.trimChars (Text.trim l).toList = Text.trimChars l.toList := by
    rw [Text.trim, String.toList_ofList, Text.trimChars_trimChars]
  have hself : Enters (Text.trim l) n rest := ⟨by rw [htrim]; exact henters.digits, henters.stops, henters.fits⟩
  split
  · rename_i hm
    exact says?_eq_text_iff.2 ⟨rest, hm ▸ hself, hne, (congrArg String.ofList htrim).symm⟩
  · rename_i hm
    exact says?_eq_none_iff.2 fun rest' h' => hm (h'.unique hself)

theorem ofLines_refused {before after : List String} {l : String} (h : entered? l = none) :
    ofLines (before ++ after) = ofLines (before ++ l :: after) := by
  refine ofLines_congr fun n => ?_
  have hnone : says? n l = none := by rw [says?, h, Option.bind_none]
  simp [List.findSome?_append, hnone]

theorem ofLines_swap {before after : List String} {l k : String}
    (h : ∀ n rest rest', Enters l n rest → ¬ Enters k n rest') :
    ofLines (before ++ k :: l :: after) = ofLines (before ++ l :: k :: after) := by
  refine ofLines_congr fun n => ?_
  -- only one of the two says something about a number
  have hnone : says? n l = none ∨ says? n k = none := by
    by_cases hl : ∃ rest, Enters l n rest
    · obtain ⟨rest, hl⟩ := hl
      exact .inr (says?_eq_none_iff.2 fun rest' => h n rest rest' hl)
    · exact .inl (says?_eq_none_iff.2 (not_exists.1 hl))
  obtain hnone | hnone := hnone <;> simp [List.findSome?_append, List.findSome?_cons, hnone]

/-- What the lines of a buffer say about a number is the line with this number, in whatever order they are. -/
theorem exists_mem_of_findSome? {ls ls' : List String} (h : ∀ l ∈ ls', l ∈ (ofLines ls).texts) {n : Nat}
    {said : Option String} (hfound : ls'.findSome? (says? n) = some said) :
    ∃ text, said = some text ∧ (n, text) ∈ (ofLines ls).lines := by
  obtain ⟨l, hl, hsays⟩ := List.exists_of_findSome?_eq_some hfound
  obtain ⟨⟨m, l⟩, hmem, rfl⟩ := List.mem_map.1 (h l hl)
  rw [says?_of_mem hmem] at hsays
  obtain ⟨rfl, hsaid⟩ := Option.ite_none_right_eq_some.1 hsays
  exact ⟨l, (Option.some.inj hsaid).symm, hmem⟩

theorem ofLines_again {ls ls' : List String} (h : ∀ l, l ∈ ls' ↔ l ∈ (ofLines ls).texts) :
    ofLines ls' = ofLines ls := by
  have hback : ∀ l ∈ ls'.reverse, l ∈ (ofLines ls).texts := fun l hl => (h l).1 (List.mem_reverse.1 hl)
  refine eq_of_mem_iff (ascending_ofLines ls') (ascending_ofLines ls) fun n text => ?_
  rw [mem_ofLines]
  constructor
  · intro hfound
    obtain ⟨text, ⟨rfl⟩, hmem⟩ := exists_mem_of_findSome? hback hfound
    exact hmem
  · intro hmem
    have htext : text ∈ ls'.reverse := List.mem_reverse.2 ((h text).2 (List.mem_map_of_mem hmem))
    have hsays : (says? n text).isSome = true := by
      rw [says?_of_mem hmem, if_pos rfl]
      rfl
    obtain ⟨said, hfound⟩ := Option.isSome_iff_exists.1 (List.findSome?_isSome_iff.2 ⟨text, htext, hsays⟩)
    obtain ⟨text', rfl, hmem'⟩ := exists_mem_of_findSome? hback hfound
    have hunique := (mem_ofLines.1 hmem).symm.trans (mem_ofLines.1 hmem')
    rw [hfound, Option.some.inj hunique]

/-- **What holds of the buffer after the lines `ls`.** -/
structure Latest (ls : List String) : Prop where
  /-- The text is one line for each number, in ascending order. -/
  ascending : (ofLines ls).numbers.Pairwise (· < ·)
  text : Text.splitAt '\n' (ofLines ls).source.toList = (ofLines ls).texts.map String.toList ++ [[]]
  /-- The last line with a number is the one that counts. The number has a line exactly if there is more than blanks
  behind it, and this line is kept without the blanks around it. -/
  latest : ∀ n text, (n, text) ∈ (ofLines ls).lines ↔ ∃ before l after rest, ls = before ++ l :: after ∧
    Enters l n rest ∧ Text.trimChars rest ≠ [] ∧ text = Text.trim l ∧ ∀ k ∈ after, ∀ rest, ¬ Enters k n rest
  /-- A line is accepted exactly if it has a number. -/
  accepted : ∀ (b : Buffer) (l : String), (b.enter? l).isSome = true ↔ ∃ n rest, Enters l n rest
  /-- A line that is refused changes nothing. -/
  refused : ∀ before l after, ls = before ++ l :: after → (ofLines before).enter? l = none →
    ofLines (before ++ after) = ofLines ls
  /-- Two lines with different numbers can be swapped. -/
  swapped : ∀ before l k after, ls = before ++ l :: k :: after →
    (∀ n rest rest', Enters l n rest → ¬ Enters k n rest') → ofLines (before ++ k :: l :: after) = ofLines ls
  /-- The lines of the text, in whatever order and however often, give the same buffer. -/
  again : ∀ ls', (∀ l, l ∈ ls' ↔ l ∈ (ofLines ls).texts) → ofLines ls' = ofLines ls

/-- **A buffer holds the latest lines**, whatever lines without line feeds have been entered. -/
theorem ofLines_latest (ls : List String) (h : ∀ l ∈ ls, '\n' ∉ l.toList) : Latest ls where
  ascending := List.pairwise_map.2 (ascending_ofLines ls)
  text := by
    refine splitAt_source fun t ht => ?_
    obtain ⟨⟨n, t⟩, hmem, rfl⟩ := List.mem_map.1 ht
    obtain ⟨before, l, after, rest, rfl, -, -, rfl, -⟩ := mem_ofLines_iff.1 hmem
    intro hfeed
    rw [Text.trim, String.toList_ofList] at hfeed
    exact h l (by simp) (Token.trimChars_subset _ _ hfeed)
  latest _ _ := mem_ofLines_iff
  accepted b l := by
    simp only [enter?_eq, Option.isSome_map, Option.isSome_iff_exists, Prod.exists, entered?_eq_some_iff]
  refused := by
    rintro before l after rfl hrefused
    rw [enter?_eq, Option.map_eq_none_iff] at hrefused
    exact ofLines_refused hrefused
  swapped := by
    rintro before l k after rfl hdifferent
    exact ofLines_swap hdifferent
  again _ := ofLines_again

/-- Lines in no order, one of them replaced under a number with zeros, one taken out and one refused. -/
theorem ofLines_latest_mixed :
    (∀ l ∈ [" 020 PRINT 1", "10 CLS", "20 PRINT 2 ", "10", "RUN", "5 END"], '\n' ∉ l.toList) ∧
      (ofLines [" 020 PRINT 1", "10 CLS", "20 PRINT 2 ", "10", "RUN", "5 END"]).texts = ["5 END", "20 PRINT 2"] ∧
      Latest [" 020 PRINT 1", "10 CLS", "20 PRINT 2 ", "10", "RUN", "5 END"] := by
  have h : ∀ l ∈ [" 020 PRINT 1", "10 CLS", "20 PRINT 2 ", "10", "RUN", "5 END"], '\n' ∉ l.toList := by decide +kernel
  exact ⟨h, by decide +kernel, ofLines_latest _ h⟩

end Buffer

end Locomotive
