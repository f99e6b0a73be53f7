import Locomotive.Proofs.Token.Line

/-!
# The tokens of data

After each `DATA` keyword comes one token that holds the text of its items: from the keyword on, without
the spaces and tabs before it, up to a colon outside quotes or the end of the line. And the end of the
text is the last token.

* `Token.itemsFrom`: the text of the items after a position.
* `Token.scan_fed`: it is the token after the keyword.
-/

namespace Locomotive.Token

/-- The text of the items that stand in a text from a position on. -/
def itemsFrom (source : List Char) (pos : Nat) : List Char := itemList false ((source.drop pos).dropWhile isGap)

/-- **Tokens whose `DATA` keywords are followed by their items**, and whose last one is the end. -/
structure Fed (source : List Char) (ts : List Token) : Prop where
  items : ∀ t r, t :: r <:+ ts → t.isWord "DATA" = true →
    (r.headD endMark).lexeme = String.ofList (itemsFrom source t.stop.toNat)
  last : ∀ t r, t :: r <:+ ts → t.kind = .eof → r = []

theorem Fed.suffix {source : List Char} {ts rest : List Token} (h : Fed source ts) (hr : rest <:+ ts) :
    Fed source rest :=
  ⟨fun t r ht => h.items t r (ht.trans hr), fun t r ht => h.last t r (ht.trans hr)⟩

/-- A token in front of others. -/
theorem Fed.cons {source : List Char} {t : Token} {ts : List Token} (h : Fed source ts)
    (ht : t.isWord "DATA" = true → (ts.headD endMark).lexeme = String.ofList (itemsFrom source t.stop.toNat))
    (hlast : t.kind ≠ .eof) : Fed source (t :: ts) := by
  constructor
  · intro u r hu hword
    rcases List.suffix_cons_iff.1 hu with heq | hu
    · cases heq
      exact ht hword
    · exact h.items u r hu hword
  · intro u r hu heof
    rcases List.suffix_cons_iff.1 hu with heq | hu
    · cases heq
      exact absurd heof hlast
    · exact h.last u r hu heof

/-- **A run from a position on.** -/
theorem Scanned.fed {source cs : List Char} {pos line : Nat} {s : Scan} (h : Scanned cs pos line s)
    (hcs : cs = source.drop pos) : Fed source s.tokens := by
  -- what is left behind a part of the text
  have hdrop : ∀ (front : List Char) {rest : List Char} {pos : Nat}, front ++ rest = source.drop pos →
      rest = source.drop (pos + front.length) := by
    intro front rest pos hcs
    rw [← List.drop_drop, ← hcs, List.drop_left]
  induction h with
  | @done pos line =>
    constructor
    · intro t r ht hword
      rcases List.suffix_cons_iff.1 ht with heq | ht
      · cases heq
        cases hword
      · exact absurd ht (by simp)
    · intro t r ht _
      rcases List.suffix_cons_iff.1 ht with heq | ht
      · cases heq
        rfl
      · exact absurd ht (by simp)
  | @blank c r pos line s hgap run ih => exact ih (hdrop [c] hcs)
  | failed hgap he => exact ⟨by simp, by simp⟩
  | @token c rest p pos line s hgap hp hdata run ih =>
    have hrest := hdrop (c :: p.tail) hcs
    rw [List.length_cons, Nat.add_comm p.tail.length, ← Nat.add_assoc] at hrest
    refine (ih hrest).cons (fun h => ?_) (piece_kind_ne_eof hp)
    exact absurd (hdata.symm.trans h) (by decide)
  | @data c blanks items rest p pos line s hgap hp hdata hblanks hitems run ih =>
    have hafter := hdrop (c :: p.tail) hcs
    rw [List.length_cons, Nat.add_comm p.tail.length, ← Nat.add_assoc] at hafter
    have hrest : rest = source.drop _ := hdrop _ (hdrop _ hafter)
    refine ((ih hrest).cons (fun h => by cases h) (by simp)).cons (fun _ => ?_) (piece_kind_ne_eof hp)
    have hstop : (p.token pos line).stop.toNat = pos + 1 + p.tail.length := by simp only [Piece.token]; omega
    have hgaps : (blanks ++ (items ++ rest)).dropWhile isGap = items ++ rest := by
      have hsplit := List.takeWhile_append_dropWhile (p := isGap) (l := blanks ++ (items ++ rest))
      rwa [hblanks, List.append_cancel_left_eq] at hsplit
    show String.ofList items = _
    rw [hstop, itemsFrom, ← hafter, hgaps, hitems]

/-- **The tokens of a source text** have the items of its `DATA` keywords behind these. -/
theorem scan_fed (source : List Char) : Fed (Source.normalize source) (scan source).tokens :=
  (scanned _ 0 1).fed rfl

end Locomotive.Token
