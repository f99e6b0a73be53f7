import Locomotive.Proofs.Emit.Note
import Locomotive.Proofs.Js.Value
import Locomotive.Stmt.Data

/-!
# Items of data and their values

How the items of a `DATA` statement are spelled, and the value that each of them has: a text between
quotes stands for itself, and a number for what its digits spell. The items are told apart twice: while
scanning, a colon outside quotes ends them all, and later a comma outside quotes ends one of them. Both
times the quotes are counted anew. Whatever a text holds, both agree on where it ends.

* `DataItem.SpelledList`: the spellings of a list of items, with their values.
* `SpelledList.itemList`: scanning takes all of it, and nothing behind it.
* `SpelledList.split`: the literals of its items have their values.
-/

namespace Locomotive.DataItem

open Text (IsNumberIn valueIn digitsValue allDigits)

/-! ## Spellings -/

/-- The exponent of a decimal number, if it has one. -/
inductive Exponent : List Char → ℤ → Prop
  | absent : Exponent [] 0
  | bare {m : Char} {ds : List Char} (hm : m = 'e' ∨ m = 'E') (hne : ds ≠ []) (hds : ∀ c ∈ ds, c.isDigit = true) :
    Exponent (m :: ds) (digitsValue ds)
  | plus {m : Char} {ds : List Char} (hm : m = 'e' ∨ m = 'E') (hne : ds ≠ []) (hds : ∀ c ∈ ds, c.isDigit = true) :
    Exponent (m :: '+' :: ds) (digitsValue ds)
  | minus {m : Char} {ds : List Char} (hm : m = 'e' ∨ m = 'E') (hne : ds ≠ []) (hds : ∀ c ∈ ds, c.isDigit = true) :
    Exponent (m :: '-' :: ds) (-digitsValue ds)

/-- **A number without its sign**: decimal, with a point or without one, or after an ampersand
hexadecimal or binary. -/
inductive Numeral : List Char → ℚ → Prop
  | whole {ds e : List Char} {n : ℤ} (hne : ds ≠ []) (hds : ∀ c ∈ ds, c.isDigit = true) (he : Exponent e n) :
    Numeral (ds ++ e) (digitsValue ds * (10 : ℚ) ^ n)
  | point {ds ps e : List Char} {n : ℤ} (hne : ds ++ ps ≠ []) (hds : ∀ c ∈ ds ++ ps, c.isDigit = true)
    (he : Exponent e n) : Numeral (ds ++ '.' :: (ps ++ e)) (digitsValue (ds ++ ps) * (10 : ℚ) ^ (n - ps.length))
  | hex {ds : List Char} (h : IsNumberIn 16 ds) : Numeral ('&' :: ds) (valueIn 16 ds)
  | hexMarked {m : Char} {ds : List Char} (hm : m = 'h' ∨ m = 'H') (h : IsNumberIn 16 ds) :
    Numeral ('&' :: m :: ds) (valueIn 16 ds)
  | binary {m : Char} {ds : List Char} (hm : m = 'x' ∨ m = 'X') (h : IsNumberIn 2 ds) :
    Numeral ('&' :: m :: ds) (valueIn 2 ds)

/-- The sign of a number. -/
def sign (minus : Bool) : List Char := if minus then ['-'] else []

/-- **An item**: any text of one line between quotes, or a number. -/
inductive Spelled : List Char → Value → Prop
  | quoted {cs : List Char} (h : ∀ c ∈ cs, c ≠ '"' ∧ c ≠ '\n') :
    Spelled ('"' :: (cs ++ ['"'])) (.text (String.ofList cs))
  | number {cs : List Char} {q : ℚ} (minus : Bool) (h : Numeral cs q) :
    Spelled (sign minus ++ cs) (.number (if minus then -q else q))

/-- Blanks that may stand around an item. -/
def IsSpace (cs : List Char) : Prop := ∀ c ∈ cs, Text.isBlank c = true ∧ c ≠ '\n'

instance (cs : List Char) : Decidable (IsSpace cs) :=
  decidable_of_iff ((cs.all fun c => Text.isBlank c && c != '\n') = true) (by simp [IsSpace])

/-- **A list of items** with commas between them and blanks around them. -/
inductive SpelledList : List Char → List Value → Prop
  | one {before cs after : List Char} {v : Value} (hb : IsSpace before) (h : Spelled cs v) (ha : IsSpace after) :
    SpelledList (before ++ (cs ++ after)) [v]
  | more {before cs after rest : List Char} {v : Value} {vs : List Value} (hb : IsSpace before) (h : Spelled cs v)
    (ha : IsSpace after) (hrest : SpelledList rest vs) :
    SpelledList (before ++ (cs ++ (after ++ ',' :: rest))) (v :: vs)

/-! ## Characters of numbers -/

/-- The characters of a number. -/
def numeralChars : List Char := allDigits ++ ['.', '+', '-', '&', 'h', 'H', 'x', 'X']

theorem mem_allDigits_of_isDigit {c : Char} (h : c.isDigit = true) : c ∈ allDigits := by
  apply Text.mem_allDigits
  have hbounds := Text.toNat_of_isDigit h
  unfold Text.digitValue
  rw [if_pos h]
  omega

theorem digits_subset {cs : List Char} (h : ∀ c ∈ cs, c.isDigit = true) : cs ⊆ numeralChars :=
  fun c hc => List.mem_append_left _ (mem_allDigits_of_isDigit (h c hc))

theorem subset_of_isNumberIn {base : Nat} (hbase : base ≤ 16) {cs : List Char} (h : IsNumberIn base cs) :
    cs ⊆ numeralChars :=
  fun c hc => List.mem_append_left _ (Text.mem_allDigits (Nat.lt_of_lt_of_le (h.2 c hc) hbase))

theorem Exponent.subset {e : List Char} {n : ℤ} (h : Exponent e n) : e ⊆ numeralChars := by
  have hmark : ∀ m : Char, m = 'e' ∨ m = 'E' → m ∈ numeralChars := by rintro m (rfl | rfl) <;> decide
  cases h with
  | absent => exact List.nil_subset _
  | bare hm _ hds => exact List.cons_subset.2 ⟨hmark _ hm, digits_subset hds⟩
  | plus hm _ hds => exact List.cons_subset.2 ⟨hmark _ hm, List.cons_subset.2 ⟨by decide, digits_subset hds⟩⟩
  | minus hm _ hds => exact List.cons_subset.2 ⟨hmark _ hm, List.cons_subset.2 ⟨by decide, digits_subset hds⟩⟩

theorem Numeral.subset {cs : List Char} {q : ℚ} (h : Numeral cs q) : cs ⊆ numeralChars := by
  cases h with
  | whole _ hds he => exact List.append_subset.2 ⟨digits_subset hds, he.subset⟩
  | point _ hds he =>
    obtain ⟨hds, hps⟩ := List.forall_mem_append.1 hds
    refine List.append_subset.2 ⟨digits_subset hds, List.cons_subset.2 ⟨by decide, ?_⟩⟩
    exact List.append_subset.2 ⟨digits_subset hps, he.subset⟩
  | hex h => exact List.cons_subset.2 ⟨by decide, subset_of_isNumberIn (by decide) h⟩
  | hexMarked hm h =>
    refine List.cons_subset.2 ⟨by decide, List.cons_subset.2 ⟨?_, subset_of_isNumberIn (by decide) h⟩⟩
    rcases hm with rfl | rfl <;> decide
  | binary hm h =>
    refine List.cons_subset.2 ⟨by decide, List.cons_subset.2 ⟨?_, subset_of_isNumberIn (by decide) h⟩⟩
    rcases hm with rfl | rfl <;> decide

theorem Numeral.ne_nil {cs : List Char} {q : ℚ} (h : Numeral cs q) : cs ≠ [] := by
  cases h with
  | whole hne _ _ => simp [hne]
  | _ => simp

/-! ## Where an item ends -/

/-- The pieces of a text with some characters before it, which belong to the first of them. -/
def prepend (cs : List Char) : List (List Char) → List (List Char)
  | [] => [cs]
  | p :: ps => (cs ++ p) :: ps

theorem prepend_append (cs ds : List Char) (ps : List (List Char)) :
    prepend (cs ++ ds) ps = prepend cs (prepend ds ps) := by
  cases ps with
  | nil => rfl
  | cons p ps => exact congrArg (· :: ps) (List.append_assoc cs ds p)

theorem pieces_cons {inQuotes : Bool} {c : Char} (h : c = ',' → inQuotes = true) (cs : List Char) :
    pieces inQuotes (c :: cs) = prepend [c] (pieces (if c == '"' then !inQuotes else inQuotes) cs) := by
  have hcomma : ¬ (c == ',' && !inQuotes) = true := by
    simpa using h
  rw [pieces, if_neg hcomma]
  cases pieces (if c == '"' then !inQuotes else inQuotes) cs <;> rfl

/-- There is always a first piece. -/
theorem prepend_nil_pieces (inQuotes : Bool) (cs : List Char) :
    prepend [] (pieces inQuotes cs) = pieces inQuotes cs := by
  have hne : pieces inQuotes cs ≠ [] := by
    cases cs with
    | nil => simp [pieces]
    | cons c cs =>
      unfold pieces
      split
      · simp
      · split <;> simp
  obtain ⟨p, ps, hps⟩ := List.exists_cons_of_ne_nil hne
  rw [hps]
  rfl

/-- **Neither a list of items nor an item ends in the text**, if it starts outside quotes; and then it ends
outside quotes, too. -/
structure Closed (cs : List Char) : Prop where
  split (rest : List Char) : pieces false (cs ++ rest) = prepend cs (pieces false rest)
  scan (rest : List Char) : Token.itemList false (cs ++ rest) = cs ++ Token.itemList false rest

theorem Closed.append {cs ds : List Char} (h : Closed cs) (h' : Closed ds) : Closed (cs ++ ds) := by
  constructor
  · intro rest
    rw [List.append_assoc, h.split, h'.split, prepend_append]
  · intro rest
    rw [List.append_assoc, h.scan, h'.scan, List.append_assoc]

/-- A text without quotes and without anything that ends an item. -/
theorem Closed.of_quiet {cs : List Char} (h : ∀ c ∈ cs, c ∉ ['"', ',', ':', '\n']) : Closed cs := by
  induction cs with
  | nil => exact ⟨fun rest => (prepend_nil_pieces false rest).symm, fun rest => rfl⟩
  | cons c cs ih =>
    obtain ⟨hc, hcs⟩ := List.forall_mem_cons.1 h
    obtain ⟨hpieces, hlist⟩ := ih hcs
    simp only [List.mem_cons, List.not_mem_nil, or_false, not_or] at hc
    obtain ⟨hquote, hcomma, hcolon, hbreak⟩ := hc
    constructor
    · intro rest
      rw [List.cons_append, pieces_cons (fun hc => absurd hc hcomma), if_neg (by simpa using hquote), hpieces,
        ← prepend_append]
      rfl
    · intro rest
      rw [List.cons_append, Token.itemList, if_neg (by simp [hcolon, hbreak]), if_neg (by simpa using hquote), hlist]
      rfl

theorem pieces_quoted {cs : List Char} (h : '"' ∉ cs) (rest : List Char) :
    pieces true (cs ++ '"' :: rest) = prepend (cs ++ ['"']) (pieces false rest) := by
  induction cs with
  | nil => exact pieces_cons (by simp) rest
  | cons c cs ih =>
    rw [List.mem_cons, not_or] at h
    rw [List.cons_append, pieces_cons (fun _ => rfl), if_neg (by simpa using Ne.symm h.1), ih h.2, ← prepend_append]
    rfl

theorem itemList_quoted {cs : List Char} (h : '"' ∉ cs) (hbreak : '\n' ∉ cs) (rest : List Char) :
    Token.itemList true (cs ++ '"' :: rest) = cs ++ '"' :: Token.itemList false rest := by
  induction cs with
  | nil => rfl
  | cons c cs ih =>
    rw [List.mem_cons, not_or] at h hbreak
    rw [List.cons_append, Token.itemList, if_neg (by simp [Ne.symm hbreak.1]), if_neg (by simpa using Ne.symm h.1),
      ih h.2 hbreak.2]
    rfl

/-- **Whatever stands between quotes**, commas and colons included, belongs to the item. -/
theorem Closed.quoted {cs : List Char} (h : '"' ∉ cs) (hbreak : '\n' ∉ cs) : Closed ('"' :: (cs ++ ['"'])) := by
  constructor
  · intro rest
    have hopen : pieces false ('"' :: (cs ++ '"' :: rest)) = prepend ['"'] (pieces true (cs ++ '"' :: rest)) :=
      pieces_cons (by simp) _
    rw [List.cons_append, List.append_assoc, List.singleton_append, hopen, pieces_quoted h, ← prepend_append]
    rfl
  · intro rest
    have hopen : Token.itemList false ('"' :: (cs ++ '"' :: rest)) = '"' :: Token.itemList true (cs ++ '"' :: rest) :=
      rfl
    rw [List.cons_append, List.append_assoc, List.singleton_append, hopen, itemList_quoted h hbreak]
    simp

/-- Blanks end nothing. -/
theorem IsSpace.closed {cs : List Char} (h : IsSpace cs) : Closed cs := by
  refine .of_quiet fun c hc => ?_
  obtain ⟨hblank, hbreak⟩ := h c hc
  intro hmem
  simp only [List.mem_cons, List.not_mem_nil, or_false] at hmem
  rcases hmem with rfl | rfl | rfl | rfl
  · exact absurd hblank (by decide)
  · exact absurd hblank (by decide)
  · exact absurd hblank (by decide)
  · exact hbreak rfl

theorem sign_subset (minus : Bool) : sign minus ⊆ numeralChars := by
  cases minus with
  | true => exact List.cons_subset.2 ⟨by decide, List.nil_subset _⟩
  | false => exact List.nil_subset _

/-- What an item is made of: at its ends there are no blanks. -/
theorem Spelled.ends {cs : List Char} {v : Value} (h : Spelled cs v) :
    cs ≠ [] ∧ (∀ c ∈ cs.head?, Text.isBlank c = false) ∧ ∀ c ∈ cs.getLast?, Text.isBlank c = false := by
  have hchars : ∀ c ∈ numeralChars, Text.isBlank c = false := Text.forall_of_all (by decide)
  cases h with
  | quoted h =>
    have hquote : ∀ c ∈ some '"', Text.isBlank c = false := by
      rintro c ⟨⟩
      decide
    refine ⟨by simp, hquote, ?_⟩
    rw [← List.cons_append, List.getLast?_concat]
    exact hquote
  | @number cs q minus h =>
    have hall : ∀ c ∈ sign minus ++ cs, Text.isBlank c = false := by
      refine List.forall_mem_append.2 ⟨fun c hc => hchars c (sign_subset minus hc), fun c hc => hchars c (h.subset hc)⟩
    exact ⟨by simp [h.ne_nil], fun c hc => hall c (List.mem_of_mem_head? hc),
      fun c hc => hall c (List.mem_of_getLast? hc)⟩

/-- **An item ends** where it is written to. -/
theorem Spelled.closed {cs : List Char} {v : Value} (h : Spelled cs v) : Closed cs := by
  have hchars : ∀ c ∈ numeralChars, c ∉ ['"', ',', ':', '\n'] := Text.forall_of_all (by decide)
  cases h with
  | quoted h => exact .quoted (fun hq => (h _ hq).1 rfl) fun hb => (h _ hb).2 rfl
  | @number cs q minus h =>
    refine .of_quiet (List.forall_mem_append.2 ⟨fun c hc => hchars c (sign_subset minus hc), ?_⟩)
    exact fun c hc => hchars c (h.subset hc)

/-- An item with the blanks around it. -/
theorem Spelled.closed_around {before cs after : List Char} {v : Value} (h : Spelled cs v) (hb : IsSpace before)
    (ha : IsSpace after) : Closed (before ++ (cs ++ after)) :=
  hb.closed.append (h.closed.append ha.closed)

/-- **The blanks around an item** are trimmed off, and nothing else. -/
theorem Spelled.trimChars {before cs after : List Char} {v : Value} (h : Spelled cs v) (hb : IsSpace before)
    (ha : IsSpace after) : Text.trimChars (before ++ (cs ++ after)) = cs := by
  obtain ⟨hne, hhead, hlast⟩ := h.ends
  have hfront : (before ++ (cs ++ after)).dropWhile Text.isBlank = cs ++ after := by
    rw [List.dropWhile_append_of_pos fun c hc => (hb c hc).1]
    obtain ⟨c, r, rfl⟩ := List.exists_cons_of_ne_nil hne
    exact List.dropWhile_cons_of_neg (by simp [hhead c rfl])
  have hback : (cs ++ after).reverse.dropWhile Text.isBlank = cs.reverse := by
    rw [List.reverse_append, List.dropWhile_append_of_pos fun c hc => (ha c (List.mem_reverse.1 hc)).1]
    obtain ⟨c, r, hcr⟩ := List.exists_cons_of_ne_nil (List.reverse_ne_nil_iff.2 hne)
    rw [hcr]
    refine List.dropWhile_cons_of_neg ?_
    have hc : c ∈ cs.getLast? := by
      rw [← List.head?_reverse, hcr]
      rfl
    simp [hlast c hc]
  unfold Text.trimChars Text.dropEndWhile
  rw [hfront, hback, List.reverse_reverse]

/-! ## What an item is read as -/

theorem Exponent.exponent? {e : List Char} {n : ℤ} (h : Exponent e n) : Js.exponent? e = some n := by
  cases h with
  | absent => rfl
  | bare hm hne hds =>
    simp only [Js.exponent?]
    rw [if_pos hm, Text.signed?_digits hne hds]
  | plus hm hne hds =>
    simp only [Js.exponent?, Text.signed?]
    rw [if_pos hm, Text.natural?_eq_some_iff.2 ⟨hne, hds, rfl⟩]
    rfl
  | minus hm hne hds =>
    simp only [Js.exponent?, Text.signed?]
    rw [if_pos hm, Text.natural?_eq_some_iff.2 ⟨hne, hds, rfl⟩]
    rfl

/-- What may follow the digits of a decimal number. -/
theorem Exponent.complete {e : List Char} {n : ℤ} (h : Exponent e n) :
    e = [] ∨ ∃ m ds, e = m :: ds ∧ ((m == 'e' || m == 'E') && isExponent ds) = true := by
  have hmark : ∀ m : Char, m = 'e' ∨ m = 'E' → (m == 'e' || m == 'E') = true := by rintro m (rfl | rfl) <;> rfl
  cases h with
  | absent => exact .inl rfl
  | @bare m ds hm hne hds =>
    obtain ⟨d, r, rfl⟩ := List.exists_cons_of_ne_nil hne
    have hsign : ¬ (d == '+' || d == '-') = true := by
      have hd := hds d List.mem_cons_self
      intro hsign
      simp only [Bool.or_eq_true, beq_iff_eq] at hsign
      rcases hsign with rfl | rfl <;> exact absurd hd (by decide)
    refine .inr ⟨m, d :: r, rfl, ?_⟩
    rw [hmark m hm, Bool.true_and, isExponent, if_neg hsign]
    exact List.all_eq_true.2 hds
  | @plus m ds hm hne hds =>
    refine .inr ⟨m, '+' :: ds, rfl, ?_⟩
    rw [hmark m hm, Bool.true_and]
    simpa [isExponent, hne] using hds
  | @minus m ds hm hne hds =>
    refine .inr ⟨m, '-' :: ds, rfl, ?_⟩
    rw [hmark m hm, Bool.true_and]
    simpa [isExponent, hne] using hds

/-- A decimal number without a point. -/
theorem isDecimal_whole {ds e : List Char} {n : ℤ} (hne : ds ≠ []) (hds : ∀ c ∈ ds, c.isDigit = true)
    (he : Exponent e n) : isDecimal (ds ++ e) = true := by
  have hmark := Js.head_of_exponent? he.exponent?
  obtain ⟨htake, -⟩ := Js.span_digits hds (Js.isDigit_of_mark hmark)
  unfold isDecimal
  simp only [htake, List.drop_left]
  rcases he.complete with rfl | ⟨m, r, rfl, hr⟩
  · simp [hne]
  · have hpoint : m ≠ '.' := by
      rintro rfl
      rcases hmark '.' rfl with h | h <;> cases h
    simp [hne, hpoint, hr]

/-- A decimal number with a point. -/
theorem isDecimal_point {ds ps e : List Char} {n : ℤ} (hne : ds ++ ps ≠ []) (hds : ∀ c ∈ ds ++ ps, c.isDigit = true)
    (he : Exponent e n) : isDecimal (ds ++ '.' :: (ps ++ e)) = true := by
  obtain ⟨hds, hps⟩ := List.forall_mem_append.1 hds
  obtain ⟨htake, -⟩ := Js.span_digits hds (by simp : ∀ c ∈ ('.' :: (ps ++ e)).head?, c.isDigit = false)
  obtain ⟨htake', -⟩ := Js.span_digits hps (Js.isDigit_of_mark (Js.head_of_exponent? he.exponent?))
  unfold isDecimal
  simp only [htake, List.drop_left, htake']
  rw [if_neg (by simpa using hne)]
  rcases he.complete with rfl | ⟨m, r, rfl, hr⟩
  · rfl
  · exact hr

theorem isHexText_of_isNumberIn {ds : List Char} (h : IsNumberIn 16 ds) : Token.isHexText ds = true := by
  have hdigit : ∀ c ∈ allDigits, Token.isHexDigit c = true := Text.forall_of_all (by decide)
  unfold Token.isHexText
  rw [Bool.and_eq_true]
  exact ⟨by simpa using h.1, List.all_eq_true.2 fun c hc => hdigit c (Text.mem_allDigits (h.2 c hc))⟩

/-- Hexadecimal digits right after an ampersand. -/
theorem based?_hex {ds : List Char} (h : IsNumberIn 16 ds) : based? ds = some (.hex, ds.map Char.toLower) := by
  have hdigit : ∀ c ∈ allDigits, c ∉ ['x', 'X', 'h', 'H'] := Text.forall_of_all (by decide)
  have htext := isHexText_of_isNumberIn h
  obtain ⟨c, r, rfl⟩ := List.exists_cons_of_ne_nil h.1
  have hc := hdigit c (Text.mem_allDigits (h.2 c List.mem_cons_self))
  simp only [List.mem_cons, List.not_mem_nil, or_false, not_or] at hc
  simp [based?, hc, htext]

theorem based?_hexMarked {m : Char} {ds : List Char} (hm : m = 'h' ∨ m = 'H') (h : IsNumberIn 16 ds) :
    based? (m :: ds) = some (.hex, ds.map Char.toLower) := by
  have htext := isHexText_of_isNumberIn h
  rcases hm with rfl | rfl <;> simp [based?, htext]

theorem based?_binary {m : Char} {ds : List Char} (hm : m = 'x' ∨ m = 'X') (h : IsNumberIn 2 ds) :
    based? (m :: ds) = some (.binary, ds) := by
  have hbit : ∀ c ∈ allDigits, Text.digitValue c < 2 → c = '0' ∨ c = '1' := Text.forall_of_all (by decide)
  have hbits : (ds.all fun c => c == '0' || c == '1') = true := by
    rw [List.all_eq_true]
    intro c hc
    have hlt := h.2 c hc
    simpa using hbit c (Text.mem_allDigits (by omega)) hlt
  have hne : ds.isEmpty = false := by simpa using h.1
  unfold based?
  rcases hm with rfl | rfl <;> simp only [hbits, hne] <;> rfl

/-- A number after an ampersand, with its sign. -/
theorem number?_based (minus : Bool) {ds digits : List Char} {radix : Radix} (h : based? ds = some (radix, digits)) :
    number? (sign minus ++ '&' :: ds) = some (.number radix (String.ofList (sign minus ++ digits))) := by
  cases minus <;> simp [number?, sign, h]

/-- A decimal number, with its sign. -/
theorem number?_decimal (minus : Bool) {cs : List Char} (hsign : cs.head? ≠ some '-') (hbase : cs.head? ≠ some '&')
    (h : isDecimal cs = true) :
    number? (sign minus ++ cs) = some (.number .decimal (String.ofList (sign minus ++ cs))) := by
  cases minus with
  | true =>
    unfold number?
    simp only [sign, if_true, List.singleton_append, List.head?_cons, BEq.rfl, List.length_singleton, List.drop_one,
      List.tail_cons]
    split
    · exact absurd rfl hbase
    · rw [if_pos h]
  | false =>
    have hhead : (cs.head? == some '-') = false := by simpa using hsign
    unfold number?
    simp only [sign, Bool.false_eq_true, if_false, List.nil_append, hhead, List.length_nil, List.drop_zero]
    split
    · exact absurd rfl hbase
    · rw [if_pos h]

/-- A decimal number starts with a digit or a point. -/
theorem head_of_decimal {ds tail : List Char} (hds : ∀ c ∈ ds, c.isDigit = true)
    (hne : ds = [] → tail.head? = some '.') :
    (ds ++ tail).head? ≠ some '-' ∧ (ds ++ tail).head? ≠ some '&' := by
  cases ds with
  | nil =>
    rw [List.nil_append, hne rfl]
    decide
  | cons d ds =>
    have hd := hds d List.mem_cons_self
    simp only [List.cons_append, List.head?_cons, ne_eq, Option.some.injEq]
    constructor <;> rintro rfl <;> exact absurd hd (by decide)

/-- The digits after a sign and an ampersand start with no other sign. -/
theorem head_of_based {f : Char → Char} (hf : ∀ c ∈ allDigits, f c ≠ '-') {ds : List Char} (h : IsNumberIn 16 ds) :
    (ds.map f).head? ≠ some '-' := by
  obtain ⟨c, r, rfl⟩ := List.exists_cons_of_ne_nil h.1
  simpa using hf c (Text.mem_allDigits (h.2 c List.mem_cons_self))

/-- **A number** is read as one, and its literal has its value. -/
theorem Numeral.number? {cs : List Char} {q : ℚ} (h : Numeral cs q) (minus : Bool) :
    ∃ item, DataItem.number? (sign minus ++ cs) = some item ∧
      Js.literal? item.literal = some (.number (if minus then -q else q)) := by
  cases h with
  | whole hne hds he =>
    obtain ⟨hsign, hbase⟩ := head_of_decimal hds fun h => absurd h hne
    exact ⟨_, number?_decimal minus hsign hbase (isDecimal_whole hne hds he),
      Js.literal?_numberLiteral minus hsign (Js.number?_whole hds hne he.exponent?)⟩
  | @point ds ps e n hne hds he =>
    obtain ⟨hsign, hbase⟩ := head_of_decimal (List.forall_mem_append.1 hds).1
      fun _ => (rfl : ('.' :: (ps ++ e)).head? = some '.')
    exact ⟨_, number?_decimal minus hsign hbase (isDecimal_point hne hds he),
      Js.literal?_numberLiteral minus hsign (Js.number?_point hds hne he.exponent?)⟩
  | hex h =>
    exact ⟨_, number?_based minus (based?_hex h),
      Js.literal?_numberLiteral minus (head_of_based (Text.forall_of_all (by decide)) h) (Js.number?_hex h)⟩
  | hexMarked hm h =>
    exact ⟨_, number?_based minus (based?_hexMarked hm h),
      Js.literal?_numberLiteral minus (head_of_based (Text.forall_of_all (by decide)) h) (Js.number?_hex h)⟩
  | @binary m ds hm h =>
    have hhex : IsNumberIn 16 ds := ⟨h.1, fun c hc => Nat.lt_of_lt_of_le (h.2 c hc) (by decide)⟩
    have hsign := head_of_based (f := id) (Text.forall_of_all (by decide)) hhex
    rw [List.map_id] at hsign
    exact ⟨_, number?_based minus (based?_binary hm h), Js.literal?_numberLiteral minus hsign (Js.number?_binary h)⟩

/-- **An item** is read as what it is, and its literal has its value. -/
theorem Spelled.classify {cs : List Char} {v : Value} (h : Spelled cs v) :
    Js.literal? (DataItem.classify cs).literal = some v := by
  cases h with
  | @quoted cs h =>
    have hdrop : dropQuote (cs ++ ['"']) = cs := by
      unfold dropQuote
      rw [if_pos (by simp), List.dropLast_concat]
    show Js.literal? (Js.quote (String.ofList (dropQuote (cs ++ ['"'])))) = _
    rw [hdrop, Js.literal?_quote]
  | @number cs q minus h =>
    obtain ⟨item, hitem, hvalue⟩ := h.number? minus
    have hquote : (sign minus ++ cs).head? ≠ some '"' := by
      have hchars : '"' ∉ numeralChars := by decide
      intro hhead
      rcases List.mem_append.1 (List.mem_of_mem_head? hhead) with hsign | hcs
      · exact hchars (sign_subset minus hsign)
      · exact hchars (h.subset hcs)
    unfold DataItem.classify
    split
    · rename_i heq
      rw [heq] at hquote
      exact absurd rfl hquote
    · rw [hitem]
      exact hvalue

/-! ## Lists of items -/

/-- An item with the blanks around it. -/
theorem Spelled.literal {before cs after : List Char} {v : Value} (h : Spelled cs v) (hb : IsSpace before)
    (ha : IsSpace after) :
    Js.literal? (DataItem.literal (DataItem.classify (Text.trimChars (before ++ (cs ++ after))))) = some v := by
  rw [h.trimChars hb ha]
  exact h.classify

/-- **The items of a spelled list** are told apart, and the literal of each has its value. -/
theorem SpelledList.split {raw : List Char} {vs : List Value} (h : SpelledList raw vs) :
    List.Forall₂ (fun item v => Js.literal? (DataItem.literal item) = some v) (DataItem.split raw) vs := by
  induction h with
  | @one before cs after v hb h ha =>
    have hpieces := (h.closed_around hb ha).split []
    rw [List.append_nil] at hpieces
    unfold DataItem.split
    rw [hpieces, pieces, prepend, List.append_nil]
    exact .cons (h.literal hb ha) .nil
  | @more before cs after rest v vs hb h ha hrest ih =>
    have hcomma : pieces false (',' :: rest) = [] :: pieces false rest := rfl
    have hpieces := (h.closed_around hb ha).split (',' :: rest)
    rw [List.append_assoc, List.append_assoc] at hpieces
    unfold DataItem.split at ih ⊢
    rw [hpieces, hcomma, prepend, List.append_nil]
    exact .cons (h.literal hb ha) ih

/-- **A spelled list ends** at a colon, at the end of its line, or at the end of the text. -/
theorem SpelledList.itemList {raw rest : List Char} {vs : List Value} (h : SpelledList raw vs)
    (hrest : ∀ c ∈ rest.head?, c = ':' ∨ c = '\n') : Token.itemList false (raw ++ rest) = raw := by
  induction h with
  | @one before cs after v hb h ha =>
    have hend : Token.itemList false rest = [] := by
      cases rest with
      | nil => rfl
      | cons c rest =>
        rw [Token.itemList, if_pos]
        rcases hrest c rfl with rfl | rfl <;> rfl
    rw [(h.closed_around hb ha).scan, hend, List.append_nil]
  | @more before cs after raw v vs hb h ha _ ih =>
    have hcomma : Token.itemList false (',' :: (raw ++ rest)) = ',' :: Token.itemList false (raw ++ rest) := rfl
    have hscan := (h.closed_around hb ha).scan (',' :: (raw ++ rest))
    rw [hcomma, ih] at hscan
    simpa using hscan

theorem isBlank_of_isGap {c : Char} (h : Token.isGap c = true) : Text.isBlank c = true := by
  simp only [Token.isGap, Bool.or_eq_true, beq_iff_eq] at h
  rcases h with rfl | rfl <;> rfl

theorem IsSpace.dropGap {cs : List Char} (h : IsSpace cs) : IsSpace (cs.dropWhile Token.isGap) :=
  fun c hc => h c ((List.dropWhile_suffix _).mem hc)

/-- The spaces and tabs before an item end where it starts, at the latest. -/
theorem Spelled.dropGap {cs : List Char} {v : Value} (h : Spelled cs v) (before tail : List Char) :
    (before ++ (cs ++ tail)).dropWhile Token.isGap = before.dropWhile Token.isGap ++ (cs ++ tail) := by
  obtain ⟨hne, hhead, -⟩ := h.ends
  obtain ⟨c, r, rfl⟩ := List.exists_cons_of_ne_nil hne
  have hc : ¬ Token.isGap c = true := by
    intro hc
    have hblank := hhead c rfl
    rw [isBlank_of_isGap hc] at hblank
    cases hblank
  rw [List.dropWhile_append, List.cons_append, List.dropWhile_cons_of_neg hc]
  split
  · rename_i hempty
    rw [List.isEmpty_iff.1 hempty, List.nil_append]
  · rfl

/-- The spaces and tabs before a list may be left out. -/
theorem SpelledList.dropGap {raw : List Char} {vs : List Value} (h : SpelledList raw vs) (rest : List Char) :
    ∃ raw', (raw ++ rest).dropWhile Token.isGap = raw' ++ rest ∧ SpelledList raw' vs := by
  cases h with
  | @one before cs after v hb h ha =>
    refine ⟨before.dropWhile Token.isGap ++ (cs ++ after), ?_, .one hb.dropGap h ha⟩
    simp only [List.append_assoc]
    exact h.dropGap before _
  | @more before cs after raw v vs hb h ha hmore =>
    refine ⟨before.dropWhile Token.isGap ++ (cs ++ (after ++ ',' :: raw)), ?_, .more hb.dropGap h ha hmore⟩
    simp only [List.append_assoc]
    exact h.dropGap before _

/-- **The items after a `DATA`**: what scanning takes for their list is split into items whose literals have
their values. -/
theorem SpelledList.scanned {raw rest : List Char} {vs : List Value} (h : SpelledList raw vs)
    (hrest : ∀ c ∈ rest.head?, c = ':' ∨ c = '\n') :
    List.Forall₂ (fun item v => Js.literal? (DataItem.literal item) = some v)
      (DataItem.split (Token.itemList false ((raw ++ rest).dropWhile Token.isGap))) vs := by
  obtain ⟨raw', hraw, h'⟩ := h.dropGap rest
  rw [hraw, h'.itemList hrest]
  exact h'.split

end Locomotive.DataItem
