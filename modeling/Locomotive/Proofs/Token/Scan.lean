import Locomotive.Proofs.Expr.Grammar
import Locomotive.Proofs.Token.Step

/-!
# What scanning gives

The tokens of a source text stand in it one after another, none of them overlaps the next,
plus and minus signs carry their own text, and a number starts with a digit or a point.

* `scan_inOrder`: all of this, for every source text.
-/

namespace Locomotive.Token

/-- The token stands in a text of length `n`, and its text is what its kind promises. -/
structure Fits (n : Nat) (t : Token) : Prop where
  signed : t.Signed
  numeral : t.kind = .number → IsNumeral t.lexeme
  start : 0 ≤ t.pos
  width : t.pos ≤ t.stop
  inside : t.stop ≤ n

/-- Tokens that stand in a text of length `n` one after another. -/
structure InOrder (n : Nat) (ts : List Token) : Prop where
  fits : ∀ t ∈ ts, t.Fits n
  apart : ts.Pairwise fun a b => a.stop ≤ b.pos

theorem InOrder.suffix {n : Nat} {ts rest : List Token} (hr : rest <:+ ts) (h : InOrder n ts) : InOrder n rest :=
  ⟨fun t ht => h.fits t (hr.mem ht), h.apart.sublist hr.sublist⟩

/-- A token starts before a later one ends, and that ends in the text. -/
theorem InOrder.pos_le_stop {n : Nat} {t u : Token} {ts : List Token} (h : InOrder n (t :: ts)) (hu : u ∈ ts) :
    t.pos ≤ u.stop ∧ u.stop ≤ n := by
  have hwidth := (h.fits t (by simp)).width
  have hapart := (List.pairwise_cons.1 h.apart).1 u hu
  have hfits := h.fits u (by simp [hu])
  have := hfits.width
  exact ⟨by omega, hfits.inside⟩

/-! ## The whole text -/

/-- Tokens from a position on, in a text that ends at `n`. -/
structure InOrderFrom (pos n : Nat) (ts : List Token) : Prop extends InOrder n ts where
  after : ∀ t ∈ ts, (pos : Int) ≤ t.pos

theorem InOrderFrom.cons {pos next n : Nat} {t : Token} {ts : List Token} (ht : t.Fits n) (hpos : (pos : Int) ≤ t.pos)
    (hstop : t.stop ≤ (next : Int)) (h : InOrderFrom next n ts) : InOrderFrom pos n (t :: ts) := by
  have hlater : ∀ u ∈ ts, t.stop ≤ u.pos := fun u hu => Int.le_trans hstop (h.after u hu)
  refine ⟨⟨List.forall_mem_cons.2 ⟨ht, h.fits⟩, List.pairwise_cons.2 ⟨hlater, h.apart⟩⟩, ?_⟩
  refine List.forall_mem_cons.2 ⟨hpos, fun u hu => ?_⟩
  have := ht.width
  have := hlater u hu
  omega

theorem Piece.Laid.fits {p : Piece} {c : Char} {cs : List Char} (h : p.Laid c cs) {pos n : Nat} (line : Nat)
    (hn : pos + 1 + p.tail.length ≤ n) : (p.token pos line).Fits n := by
  refine ⟨h.signed, fun hk => ?_, ?_, ?_, ?_⟩
  · have hspelled := h.spelled
    rw [show p.kind = _ from hk] at hspelled
    refine ⟨c, ?_, h.numeral hk⟩
    rw [show (p.token pos line).lexeme = _ from hspelled, String.toList_ofList]
    rfl
  all_goals simp only [Piece.token]
  all_goals omega

/-- **A run from a position on** gives tokens in order. -/
theorem Scanned.inOrder {cs : List Char} {pos line : Nat} {s : Scan} (h : Scanned cs pos line s) :
    InOrderFrom pos (pos + cs.length) s.tokens := by
  induction h with
  | @done pos line =>
    have hend : (⟨.eof, "", line, pos, pos⟩ : Token).Fits (pos + ([] : List Char).length) := by
      refine ⟨by simp [Signed], by simp, ?_, ?_, ?_⟩ <;> simp
    exact .cons hend (Int.le_refl _) (Int.le_refl _) ⟨⟨by simp, .nil⟩, by simp⟩
  | @blank c r pos line s hgap run ih =>
    rw [List.length_cons, Nat.add_comm r.length, ← Nat.add_assoc]
    refine ⟨ih.toInOrder, fun t ht => ?_⟩
    have := ih.after t ht
    omega
  | failed hgap he => exact ⟨⟨by simp, .nil⟩, by simp⟩
  | @token c rest p pos line s hgap hp hdata run ih =>
    have hlen : pos + (c :: (p.tail ++ rest)).length = pos + 1 + p.tail.length + rest.length := by
      rw [List.length_cons, List.length_append]
      omega
    rw [hlen]
    exact .cons ((piece_laid hp).fits line (Nat.le_add_right _ _)) (Int.le_refl _) (Int.le_refl _) ih
  | @data c blanks items rest p pos line s hgap hp hdata hblanks hitems run ih =>
    -- the items are one token, without the blanks before them
    have hlen : pos + (c :: (p.tail ++ (blanks ++ (items ++ rest)))).length =
        pos + 1 + p.tail.length + blanks.length + items.length + rest.length := by
      simp only [List.length_cons, List.length_append]
      omega
    rw [hlen]
    have hitem : (⟨.dataItems, String.ofList items, line, (pos + 1 + p.tail.length + blanks.length : Nat),
        (pos + 1 + p.tail.length + blanks.length + items.length : Nat)⟩ : Token).Fits
          (pos + 1 + p.tail.length + blanks.length + items.length + rest.length) := by
      refine ⟨by simp [Signed], by simp, ?_, ?_, ?_⟩ <;> simp only <;> omega
    have hrest := ih.cons hitem (Int.le_refl _) (Int.le_refl _)
    refine hrest.cons ((piece_laid hp).fits line (by omega)) (Int.le_refl _) ?_
    simp only [Piece.token]
    omega

/-- **The tokens of a source text stand in it in order.** -/
theorem scan_inOrder (source : List Char) : InOrder (Source.normalize source).length (scan source).tokens := by
  have h := (scanned (Source.normalize source) 0 1).inOrder
  rw [Nat.zero_add] at h
  exact h.toInOrder

/-- Lines are counted on from the first one. -/
theorem Scanned.line_le {cs : List Char} {pos line : Nat} {s : Scan} (h : Scanned cs pos line s) :
    ∀ t ∈ s.tokens, (line : Int) ≤ t.line := by
  induction h with
  | done => simp
  | blank hgap run ih => exact ih
  | failed hgap he => simp
  | token hgap hp hdata run ih =>
    refine List.forall_mem_cons.2 ⟨Int.le_refl _, fun u hu => ?_⟩
    have hlater := ih u hu
    split at hlater <;> omega
  | data hgap hp hdata hblanks hitems run ih =>
    exact List.forall_mem_cons.2 ⟨Int.le_refl _, List.forall_mem_cons.2 ⟨Int.le_refl _, ih⟩⟩

theorem scan_line (source : List Char) : ∀ t ∈ (scan source).tokens, 0 < t.line := by
  intro t ht
  have := (scanned (Source.normalize source) 0 1).line_le t ht
  omega

end Locomotive.Token
