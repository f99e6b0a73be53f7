import Locomotive.Proofs.Token.Piece

/-!
# Scanning step by step

What scanning does at the front of a text: it skips a blank, fails, takes a token, or takes the word `DATA` with the
items behind it. Each step is said of the text as its parts, so that it can be compared with a step on another text.

* `Front`: the five things that can stand at the front of a text, one of which does (`front`).
* `scanFrom_token`, `scanFrom_data`: the steps that take tokens.
* `Scanned`, `scanned`: a run of the scanner as these steps, on which the other facts about it are proved by induction.
-/

namespace Locomotive.Token

/-- The word that items follow. -/
def Piece.isData (p : Piece) : Bool := p.kind == .keyword && p.lexeme == "DATA"

/-- What is scanned behind some tokens and warnings. -/
def Scan.behind (ts : List Token) (ws : List (Nat × ScanWarning)) (s : Scan) : Scan :=
  ⟨ts ++ s.tokens, ws ++ s.warnings, s.error⟩

section

variable {c : Char} {r rest blanks items : List Char} {p : Piece} {pos line : Nat}

theorem scanFrom_blank (hgap : isGap c = true) : scanFrom (c :: r) pos line = scanFrom r (pos + 1) line := by
  rw [scanFrom, if_pos hgap]

theorem scanFrom_failed (hgap : isGap c = false) {e : ScanError} (he : piece c r = .error e) :
    scanFrom (c :: r) pos line = ⟨[], [], some (line, e)⟩ := by
  rw [scanFrom, if_neg (by rw [hgap]; exact Bool.false_ne_true), he]

/-- **A token and the text behind it.** -/
theorem scanFrom_token (hgap : isGap c = false) (hp : piece c r = .ok p) (hr : r = p.tail ++ rest)
    (hdata : p.isData = false) : scanFrom (c :: r) pos line =
      (scanFrom rest (pos + 1 + p.tail.length) (if p.kind = .eol then line + 1 else line)).behind [p.token pos line]
        (p.warnings.map fun w => (line, w)) := by
  have hafter : r.drop p.tail.length = rest := by rw [hr]; exact List.drop_left
  have hword : (p.token pos line).isWord "DATA" = false := hdata
  rw [scanFrom, if_neg (by rw [hgap]; exact Bool.false_ne_true), hp]
  dsimp only
  rw [hword, if_neg Bool.false_ne_true, hafter]
  rfl

/-- **The items behind the word `DATA`** and the text behind them. -/
theorem scanFrom_data (hgap : isGap c = false) (hp : piece c r = .ok p) (hr : r = p.tail ++ (blanks ++ (items ++ rest)))
    (hdata : p.isData = true)
    (hblanks : (blanks ++ (items ++ rest)).takeWhile isGap = blanks) (hitems : itemList false (items ++ rest) = items) :
    scanFrom (c :: r) pos line =
      (scanFrom rest (pos + 1 + p.tail.length + blanks.length + items.length) line).behind
        [p.token pos line, ⟨.dataItems, String.ofList items, line, (pos + 1 + p.tail.length + blanks.length : Nat),
          (pos + 1 + p.tail.length + blanks.length + items.length : Nat)⟩] [] := by
  have hafter : r.drop p.tail.length = blanks ++ (items ++ rest) := by rw [hr]; exact List.drop_left
  have hword : (p.token pos line).isWord "DATA" = true := hdata
  rw [scanFrom, if_neg (by rw [hgap]; exact Bool.false_ne_true), hp]
  dsimp only
  rw [hword, if_pos rfl, hafter, hblanks, List.drop_left, hitems, List.drop_left]
  rfl

end

/-! ## The front of a text -/

theorem itemList_spec (inQuotes : Bool) (cs : List Char) :
    itemList inQuotes cs <+: cs ∧ '\n' ∉ itemList inQuotes cs := by
  induction cs generalizing inQuotes with
  | nil => exact ⟨List.prefix_refl _, List.not_mem_nil⟩
  | cons c cs ih =>
    unfold itemList
    split
    · exact ⟨List.nil_prefix, List.not_mem_nil⟩
    · rename_i hc
      simp only [Bool.or_eq_true, beq_iff_eq, not_or] at hc
      obtain ⟨hfront, hbreak⟩ := ih (if c == '"' then !inQuotes else inQuotes)
      refine ⟨List.cons_prefix_cons.2 ⟨rfl, hfront⟩, fun h => ?_⟩
      rcases List.mem_cons.1 h with h | h
      · exact hc.1 h.symm
      · exact hbreak h

/-- **What stands at the front of a text.** -/
inductive Front : List Char → Prop
  | nil : Front []
  | blank {c : Char} {r : List Char} (hgap : isGap c = true) : Front (c :: r)
  | failed {c : Char} {r : List Char} {e : ScanError} (hgap : isGap c = false) (he : piece c r = .error e) :
      Front (c :: r)
  | token {c : Char} {rest : List Char} {p : Piece} (hgap : isGap c = false) (hp : piece c (p.tail ++ rest) = .ok p)
      (hdata : p.isData = false) : Front (c :: (p.tail ++ rest))
  | data {c : Char} {blanks items rest : List Char} {p : Piece} (hgap : isGap c = false)
      (hp : piece c (p.tail ++ (blanks ++ (items ++ rest))) = .ok p) (hdata : p.isData = true)
      (hblanks : (blanks ++ (items ++ rest)).takeWhile isGap = blanks)
      (hitems : itemList false (items ++ rest) = items) : Front (c :: (p.tail ++ (blanks ++ (items ++ rest))))

theorem front (cs : List Char) : Front cs := by
  cases cs with
  | nil => exact .nil
  | cons c r =>
    cases hgap : isGap c with
    | true => exact .blank hgap
    | false =>
      cases hp : piece c r with
      | error e => exact .failed hgap hp
      | ok p =>
        obtain ⟨after, rfl⟩ := (piece_laid hp).front
        cases hdata : p.isData with
        | false => exact .token hgap hp hdata
        | true =>
          obtain ⟨more, hmore⟩ : after.takeWhile isGap <+: after := List.takeWhile_prefix _
          obtain ⟨rest, hrest⟩ := (itemList_spec false more).1
          have hafter : after = after.takeWhile isGap ++ (itemList false more ++ rest) := by rw [hrest, hmore]
          rw [hafter] at hp ⊢
          exact .data hgap hp hdata (by rw [← hafter]) (by rw [hrest])

/-! ## Runs -/

/-- **A run of the scanner** over a text, which stands at `pos` on line `line`. -/
inductive Scanned : List Char → Nat → Nat → Scan → Prop
  | done {pos line : Nat} : Scanned [] pos line ⟨[⟨.eof, "", line, pos, pos⟩], [], none⟩
  | blank {c : Char} {r : List Char} {pos line : Nat} {s : Scan} (hgap : isGap c = true)
      (run : Scanned r (pos + 1) line s) : Scanned (c :: r) pos line s
  | failed {c : Char} {r : List Char} {pos line : Nat} {e : ScanError} (hgap : isGap c = false)
      (he : piece c r = .error e) : Scanned (c :: r) pos line ⟨[], [], some (line, e)⟩
  | token {c : Char} {rest : List Char} {p : Piece} {pos line : Nat} {s : Scan} (hgap : isGap c = false)
      (hp : piece c (p.tail ++ rest) = .ok p) (hdata : p.isData = false)
      (run : Scanned rest (pos + 1 + p.tail.length) (if p.kind = .eol then line + 1 else line) s) :
      Scanned (c :: (p.tail ++ rest)) pos line (s.behind [p.token pos line] (p.warnings.map fun w => (line, w)))
  | data {c : Char} {blanks items rest : List Char} {p : Piece} {pos line : Nat} {s : Scan} (hgap : isGap c = false)
      (hp : piece c (p.tail ++ (blanks ++ (items ++ rest))) = .ok p) (hdata : p.isData = true)
      (hblanks : (blanks ++ (items ++ rest)).takeWhile isGap = blanks) (hitems : itemList false (items ++ rest) = items)
      (run : Scanned rest (pos + 1 + p.tail.length + blanks.length + items.length) line s) :
      Scanned (c :: (p.tail ++ (blanks ++ (items ++ rest)))) pos line (s.behind
        [p.token pos line, ⟨.dataItems, String.ofList items, line, (pos + 1 + p.tail.length + blanks.length : Nat),
          (pos + 1 + p.tail.length + blanks.length + items.length : Nat)⟩] [])

theorem scanned (cs : List Char) (pos line : Nat) : Scanned cs pos line (scanFrom cs pos line) := by
  induction hn : cs.length using Nat.strongRecOn generalizing cs pos line with
  | ind n ih =>
    subst hn
    cases front cs with
    | nil =>
      rw [scanFrom]
      exact .done
    | @blank c r hgap =>
      rw [scanFrom_blank hgap]
      exact .blank hgap (ih _ (by simp) r _ _ rfl)
    | failed hgap he =>
      rw [scanFrom_failed hgap he]
      exact .failed hgap he
    | @token c rest p hgap hp hdata =>
      rw [scanFrom_token hgap hp rfl hdata]
      refine .token hgap hp hdata (ih _ ?_ rest _ _ rfl)
      rw [List.length_cons, List.length_append]
      omega
    | @data c blanks items rest p hgap hp hdata hblanks hitems =>
      rw [scanFrom_data hgap hp rfl hdata hblanks hitems]
      refine .data hgap hp hdata hblanks hitems (ih _ ?_ rest _ _ rfl)
      simp only [List.length_cons, List.length_append]
      omega

/-- There is one run only. -/
theorem Scanned.eq {cs : List Char} {pos line : Nat} {s : Scan} (h : Scanned cs pos line s) :
    s = scanFrom cs pos line := by
  induction h with
  | done => rw [scanFrom]
  | blank hgap run ih => rw [scanFrom_blank hgap, ih]
  | failed hgap he => rw [scanFrom_failed hgap he]
  | token hgap hp hdata run ih => rw [scanFrom_token hgap hp rfl hdata, ih]
  | data hgap hp hdata hblanks hitems run ih => rw [scanFrom_data hgap hp rfl hdata hblanks hitems, ih]

/-- **Every token is a piece of the text**, apart from the end and the items of data, which are no pieces. -/
theorem Scanned.piece {cs : List Char} {pos line : Nat} {s : Scan} (h : Scanned cs pos line s) :
    ∀ t ∈ s.tokens, t.kind ∉ [.eof, .dataItems] → ∃ before c r p row, cs = before ++ c :: r ∧ piece c r = .ok p ∧
      t = p.token (pos + before.length) row := by
  -- more text in front moves the place
  have hmove : ∀ (front : List Char) {pos : Nat} {rest : List Char} {t : Token},
      (∃ before c r p row, rest = before ++ c :: r ∧ Token.piece c r = .ok p ∧
        t = p.token (pos + front.length + before.length) row) →
      ∃ before c r p row, front ++ rest = before ++ c :: r ∧ Token.piece c r = .ok p ∧
        t = p.token (pos + before.length) row := by
    rintro front pos rest t ⟨before, c, r, p, row, rfl, hp, rfl⟩
    exact ⟨front ++ before, c, r, p, row, by rw [List.append_assoc], hp, by rw [List.length_append, Nat.add_assoc]⟩
  induction h with
  | done =>
    intro t ht hk
    rw [List.mem_singleton.1 ht] at hk
    exact absurd List.mem_cons_self hk
  | @blank c r _ _ _ hgap run ih => exact fun t ht hk => hmove [c] (ih t ht hk)
  | failed hgap he => exact fun t ht => by cases ht
  | @token c rest p pos line s hgap hp hdata run ih =>
    intro t ht hk
    rcases List.mem_cons.1 ht with rfl | ht
    · exact ⟨[], c, _, p, line, rfl, hp, rfl⟩
    · refine hmove (c :: p.tail) ?_
      rw [List.length_cons, Nat.add_comm p.tail.length, ← Nat.add_assoc]
      exact ih t ht hk
  | @data c blanks items rest p pos line s hgap hp hdata hblanks hitems run ih =>
    intro t ht hk
    rcases List.mem_cons.1 ht with rfl | ht
    · exact ⟨[], c, _, p, line, rfl, hp, rfl⟩
    rcases List.mem_cons.1 ht with rfl | ht
    · exact absurd (List.mem_cons_of_mem _ List.mem_cons_self) hk
    · have hnext : pos + (c :: (p.tail ++ (blanks ++ items))).length =
          pos + 1 + p.tail.length + blanks.length + items.length := by
        simp only [List.length_cons, List.length_append]
        omega
      have htext : c :: (p.tail ++ (blanks ++ (items ++ rest))) = c :: (p.tail ++ (blanks ++ items)) ++ rest := by
        simp only [List.append_assoc, List.cons_append]
      rw [htext]
      refine hmove _ ?_
      rw [hnext]
      exact ih t ht hk

/-- The items of data up to the same end. -/
theorem itemList_same {b : Bool} {front rest rest' : List Char} (h : itemList b (front ++ rest) = front)
    (hnext : rest'.head? = rest.head?) : itemList b (front ++ rest') = front := by
  induction front generalizing b with
  | nil =>
    cases rest' with
    | nil => rfl
    | cons d rest' =>
      cases rest with
      | nil => cases hnext
      | cons e rest =>
        obtain rfl : d = e := Option.some.inj hnext
        rw [List.nil_append, itemList] at h ⊢
        split at h
        · rename_i hstop
          rw [if_pos hstop]
        · cases h
  | cons c front ih =>
    rw [List.cons_append, itemList] at h ⊢
    split at h
    · cases h
    · rename_i hgo
      rw [if_neg hgo, ih (List.cons.inj h).2]

end Locomotive.Token
