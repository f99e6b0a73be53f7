import Locomotive.Proofs.Js.Word
import Locomotive.Proofs.Name

/-!
# Tokens in their lines

No token but the one that ends a line holds a line break, so the text between two tokens of a line holds
none either. Names and numbers are written in characters that need no escape, and the text of
a comment ends with its line.

* `Laid`: all of this, for tokens from some place of a text on.
* `Laid.slice_unbroken`: the text of tokens of one line.
* `scan_laid`: the tokens of a source text are laid out so.
-/

namespace Locomotive

/-- The character ends no line of a source text. -/
def Text.Unbroken (c : Char) : Prop := c ≠ '\n' ∧ c ≠ '\r'

/-! ## Line endings -/

namespace Source

theorem return_not_mem_unifyEndings (cs : List Char) : '\r' ∉ unifyEndings cs := by
  fun_induction unifyEndings cs with
  | case1 => simp
  | case2 cs ih => simpa using ih
  | case3 c cs _ ih =>
    by_cases hc : c = '\r'
    · simpa [hc] using ih
    · simpa [hc, Ne.symm hc] using ih

/-- A text that is scanned has no carriage returns. -/
theorem return_not_mem_normalize (cs : List Char) : '\r' ∉ normalize cs := return_not_mem_unifyEndings _

end Source

namespace Token

open Text (Within Unbroken)

/-! ## The whole text -/

/-- The token is the end of a line at the position. -/
structure Ends (j : Nat) (t : Token) : Prop where
  kind : t.kind = .eol
  pos : t.pos = j
  stop : t.stop = j + 1

/-- Each line break of the text, which starts at `pos`, is a token of its own. -/
def Breaks (pos : Nat) (cs : List Char) (ts : List Token) : Prop :=
  ∀ j, cs[j]? = some '\n' → ∃ t ∈ ts, t.Ends (pos + j)

namespace Breaks

variable {pos : Nat} {cs front rest : List Char} {ts : List Token}

theorem cons (h : Breaks pos cs ts) (t : Token) : Breaks pos cs (t :: ts) := by
  intro j hj
  obtain ⟨u, hu, hends⟩ := h j hj
  exact ⟨u, List.mem_cons_of_mem t hu, hends⟩

/-- A front without line breaks. -/
theorem append (hfront : '\n' ∉ front) (h : Breaks (pos + front.length) rest ts) : Breaks pos (front ++ rest) ts := by
  intro j hj
  by_cases hlt : j < front.length
  · rw [List.getElem?_append_left hlt] at hj
    exact absurd (List.mem_of_getElem? hj) hfront
  · rw [List.getElem?_append_right (by omega)] at hj
    obtain ⟨t, ht, hends⟩ := h _ hj
    have hpos : pos + front.length + (j - front.length) = pos + j := by omega
    exact ⟨t, ht, hpos ▸ hends⟩

/-- A line break, which is the first token. -/
theorem newline (h : Breaks (pos + 1) rest ts) {t : Token} (ht : t.Ends pos) : Breaks pos ('\n' :: rest) (t :: ts) := by
  intro j hj
  cases j with
  | zero => exact ⟨t, List.mem_cons_self, ht⟩
  | succ j =>
    obtain ⟨u, hu, hends⟩ := h j (by simpa using hj)
    have hpos : pos + 1 + j = pos + (j + 1) := by omega
    exact ⟨u, List.mem_cons_of_mem t hu, hpos ▸ hends⟩

end Breaks

/-- **Scanning finds all line breaks**, unless it stops early. -/
theorem Scanned.breaks {cs : List Char} {pos line : Nat} {s : Scan} (h : Scanned cs pos line s) (hs : s.error = none) :
    Breaks pos cs s.tokens := by
  induction h with
  | done => exact fun j hj => by simp at hj
  | @blank c r pos line s hgap run ih =>
    have hne : '\n' ∉ [c] := by
      intro hc
      rw [← List.mem_singleton.1 hc] at hgap
      exact absurd hgap (by decide)
    exact Breaks.append hne (ih hs)
  | failed hgap he => cases hs
  | @token c rest p pos line s hgap hp hdata run ih =>
    have hlaid := piece_laid hp
    have hrest := ih hs
    rw [Nat.add_right_comm, Nat.add_assoc, ← List.length_cons (a := c)] at hrest
    by_cases hk : p.kind = .eol
    · obtain ⟨rfl, htail⟩ := hlaid.eol hk
      rw [htail] at hrest ⊢
      exact hrest.newline ⟨hk, rfl, by simp [Piece.token, htail]⟩
    · exact (Breaks.append (hlaid.inLine hk) hrest).cons _
  | @data c blanks items rest p pos line s hgap hp hdata hblanks hitems run ih =>
    -- the word, the blanks, and the items stand in one line
    have hkind : p.kind = .keyword := beq_iff_eq.1 (Bool.and_eq_true_iff.1 hdata).1
    have hword : '\n' ∉ c :: p.tail := (piece_laid hp).inLine (by rw [hkind]; decide)
    have hgaps : '\n' ∉ blanks := hblanks ▸ break_not_mem_takeWhile (by decide) _
    have hbreak : '\n' ∉ items := hitems ▸ (itemList_spec false _).2
    have hrest := ih hs
    rw [Nat.add_right_comm pos, Nat.add_assoc pos, ← List.length_cons (a := c)] at hrest
    exact ((Breaks.append hword (Breaks.append hgaps (Breaks.append hbreak hrest))).cons _).cons _

/-- The text of the token is what its kind promises. -/
structure Legible (t : Token) : Prop where
  name : t.kind = .identifier → Within Js.Plain t.lexeme
  number : t.kind = .number ∨ t.kind = .hexNumber ∨ t.kind = .binNumber → Within Js.Plain t.lexeme
  remark : t.kind = .comment → Within Unbroken t.lexeme

theorem Scanned.legible {cs : List Char} {pos line : Nat} {s : Scan} (h : Scanned cs pos line s) (hs : '\r' ∉ cs) :
    ∀ t ∈ s.tokens, t.Legible := by
  intro t ht
  by_cases hk : t.kind ∈ [.eof, .dataItems]
  · simp only [List.mem_cons, List.not_mem_nil, or_false] at hk
    rcases hk with hk | hk <;> refine ⟨?_, ?_, ?_⟩ <;> rw [hk] <;> simp
  · obtain ⟨before, c, r, p, row, rfl, hp, rfl⟩ := h.piece t ht hk
    have hlaid := piece_laid hp
    refine ⟨fun hk => (hlaid.name hk).plain, fun hk => (hlaid.number hk).1, fun hk d hd => ?_⟩
    obtain ⟨hmem, hne⟩ := hlaid.remark hk d hd
    exact ⟨hne, fun hd => hs (List.mem_append_right _ (List.mem_cons_of_mem c (hd ▸ hmem)))⟩

/-! ## Tokens of a text -/

/-- **Tokens from some place of a text on**, to its end. -/
structure Laid (source : List Char) (ts : List Token) : Prop extends InOrder source.length ts where
  legible : ∀ t ∈ ts, t.Legible
  breaks : ∀ t ∈ ts, ∀ j : Nat, t.pos ≤ j → source[j]? = some '\n' → ∃ e ∈ ts, e.Ends j
  smooth : '\r' ∉ source

namespace Laid

variable {source : List Char} {ts rest : List Token}

theorem suffix (hr : rest <:+ ts) (h : Laid source ts) : Laid source rest := by
  refine ⟨h.toInOrder.suffix hr, fun t ht => h.legible t (hr.mem ht), fun t ht j hj hbreak => ?_, h.smooth⟩
  obtain ⟨e, he, hends⟩ := h.breaks t (hr.mem ht) j hj hbreak
  obtain ⟨front, rfl⟩ := hr
  rcases List.mem_append.1 he with he | he
  · -- a token in front of `t` ends before the line break
    have hapart : e.stop ≤ t.pos := (List.pairwise_append.1 h.apart).2.2 e he t ht
    have := hends.stop
    omega
  · exact ⟨e, he, hends⟩

/-- **The text of tokens of one line** holds no line break. -/
theorem slice_unbroken {used : List Token} {start : Token} (h : Laid source (used ++ rest)) (hstart : start ∈ used)
    (hline : ∀ t ∈ used, t.kind ≠ .eol) {last : Token} (hlast : last ∈ used) {text : List Char}
    (hslice : Parse.slice? source start.pos last.stop = some text) : ∀ c ∈ text, Unbroken c := by
  unfold Parse.slice? at hslice
  split at hslice
  · rename_i hbounds
    cases hslice
    intro c hc
    obtain ⟨i, hi⟩ := List.mem_iff_getElem?.1 hc
    rw [List.getElem?_take] at hi
    split at hi
    · rename_i hlt
      rw [List.getElem?_drop] at hi
      refine ⟨?_, ?_⟩
      · rintro rfl
        obtain ⟨e, he, hends⟩ := h.breaks start (List.mem_append_left _ hstart) _ (by omega) hi
        rcases List.mem_append.1 he with he | he
        · exact hline e he hends.kind
        · -- a token behind the last one starts behind it
          have hapart : last.stop ≤ e.pos := (List.pairwise_append.1 h.apart).2.2 last hlast e he
          have := hends.pos
          omega
      · rintro rfl
        exact h.smooth (List.mem_of_getElem? hi)
    · cases hi
  · cases hslice

end Laid

theorem scan_legible (source : List Char) : ∀ t ∈ (scan source).tokens, t.Legible :=
  (scanned _ 0 1).legible (Source.return_not_mem_normalize source)

/-- **The tokens of a source text**, if it is scanned to its end. -/
theorem scan_laid {source : List Char} (h : (scan source).error = none) :
    Laid (Source.normalize source) (scan source).tokens := by
  refine ⟨scan_inOrder source, scan_legible source, fun t _ j _ hj => ?_, Source.return_not_mem_normalize source⟩
  obtain ⟨e, he, hends⟩ := (scanned _ 0 1).breaks h j hj
  rw [Nat.zero_add] at hends
  exact ⟨e, he, hends⟩

end Token

end Locomotive
