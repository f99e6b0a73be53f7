import Locomotive.Proofs.Token.Near
import Locomotive.Proofs.Token.Step

/-!
# The same tokens in another style

A text can be written in another style: more blanks stand before its tokens, and its words and numbers with a base are
in other letters, upper or lower case. No blank is added behind a string, a comment or the items of data, which may
take it, and their own letters are kept. The tokens are the same up to their places.

* `Restyled`: a text in another style, token by token.
* `scanFrom_restyled`: what is scanned of it.
-/

namespace Locomotive.Token

/-- **A text in another style.** The text `cs`, which starts at place `pos` behind a token of kind `k`, consists of the
tokens `ts` with blanks before them; so does `cs'`, with tokens in another spelling and with more blanks, unless the
token before them may take blanks. -/
inductive Restyled : (k : Option Kind) → (pos : Nat) → (cs : List Char) → (ts : List Token) → (cs' : List Char) → Prop
  | done {k : Option Kind} {pos : Nat} : Restyled k pos [] [] []
  | token {k : Option Kind} {pos : Nat} {blanks blanks' span span' rest rest' : List Char} {t : Token} {ts : List Token}
      (hpos : t.pos = (pos + blanks.length : Nat)) (hstop : t.stop = (pos + blanks.length + span.length : Nat))
      (hblanks : blanks.Sublist blanks') (hgap : ∀ c ∈ blanks', isGap c = true)
      (hkeep : ∀ g ∈ k, g ∈ greedy → blanks' = blanks) (hspan : Recased t.kind span span')
      (hrest : Restyled (some t.kind) (pos + blanks.length + span.length) rest ts rest') :
      Restyled k pos (blanks ++ (span ++ rest)) (t :: ts) (blanks' ++ (span' ++ rest'))

/-- The second source text is the first one in another style, where the first is scanned without an error. -/
def Restyles (source source' : List Char) : Prop :=
  (scan source).error = none ∧
    Restyled none 0 (Source.normalize source) (scan source).tokens (Source.normalize source')

theorem Recased.nil {kind : Kind} {span' : List Char} (h : Recased kind [] span') : span' = [] :=
  List.forall₂_nil_left_iff.1 h.sameLetters

namespace Restyled

variable {k : Option Kind} {pos : Nat} {cs cs' : List Char} {ts : List Token}

/-- The first token, whose place says which characters it has. -/
theorem first (blanks span rest : List Char) {t : Token} (h : Restyled k pos (blanks ++ (span ++ rest)) (t :: ts) cs')
    (hpos : t.pos = (pos + blanks.length : Nat)) (hstop : t.stop = (pos + blanks.length + span.length : Nat)) :
    ∃ blanks' span' rest', cs' = blanks' ++ (span' ++ rest') ∧ (∀ c ∈ blanks', isGap c = true) ∧
      (∀ g ∈ k, g ∈ greedy → blanks' = blanks) ∧ Recased t.kind span span' ∧
      Restyled (some t.kind) (pos + blanks.length + span.length) rest ts rest' := by
  generalize hcs : blanks ++ (span ++ rest) = cs at h
  cases h with
  | @token _ _ blanks₀ blanks' span₀ span' rest₀ rest' _ _ hpos₀ hstop₀ hblanks hgap hkeep hspan hrest =>
    obtain ⟨rfl, hcore⟩ := List.append_inj hcs (by omega)
    obtain ⟨rfl, rfl⟩ := List.append_inj hcore (by omega)
    exact ⟨blanks', span', rest', rfl, hgap, hkeep, hspan, hrest⟩

/-- The same for a token with characters, which start with the same letter. -/
theorem first_piece (blanks : List Char) {c : Char} {rest : List Char} {p : Piece} {line : Nat}
    (h : Restyled k pos (blanks ++ c :: (p.tail ++ rest)) (p.token (pos + blanks.length) line :: ts) cs') :
    ∃ blanks' c' tail' rest', cs' = blanks' ++ c' :: (tail' ++ rest') ∧ (∀ d ∈ blanks', isGap d = true) ∧
      (∀ g ∈ k, g ∈ greedy → blanks' = blanks) ∧ SameLetter c c' ∧ Recased p.kind (c :: p.tail) (c' :: tail') ∧
      Restyled (some p.kind) (pos + blanks.length + 1 + p.tail.length) rest ts rest' := by
  have hplace : pos + blanks.length + (c :: p.tail).length = pos + blanks.length + 1 + p.tail.length := by
    rw [List.length_cons]
    omega
  obtain ⟨blanks', span', rest', rfl, hgap, hkeep, hspan, hrest⟩ := h.first blanks (c :: p.tail) rest rfl
    (by rw [hplace]; rfl)
  obtain ⟨c', tail', hc, -, rfl⟩ := List.forall₂_cons_left_iff.1 hspan.sameLetters
  rw [hplace] at hrest
  exact ⟨blanks', c', tail', rest', rfl, hgap, hkeep, hc, hspan, hrest⟩

theorem nil (h : Restyled k pos cs [] cs') : cs' = [] := by
  cases h
  rfl

/-- What stands behind a token in another style does not matter for it. -/
theorem near (h : Restyled k pos cs ts cs') : Near cs cs' := by
  induction h with
  | done => exact .nil
  | @token k pos blanks blanks' span span' rest rest' t ts hpos hstop hblanks hgap hkeep hspan hrest ih =>
    cases blanks' with
    | nil =>
      rw [List.sublist_nil.1 hblanks, List.nil_append, List.nil_append]
      exact Near.append hspan.sameLetters ih
    | cons c blanks' => exact .blank (hgap c List.mem_cons_self) _ _

end Restyled

/-! ## Scanning -/

theorem scanFrom_blanks {blanks : List Char} (h : ∀ c ∈ blanks, isGap c = true) (r : List Char) (pos line : Nat) :
    scanFrom (blanks ++ r) pos line = scanFrom r (pos + blanks.length) line := by
  induction blanks generalizing pos with
  | nil => rfl
  | cons c blanks ih =>
    rw [List.forall_mem_cons] at h
    rw [List.cons_append, scanFrom_blank h.1, ih h.2, List.length_cons, Nat.add_assoc, Nat.add_comm 1]

theorem scanFrom_first {c : Char} {r : List Char} {p : Piece} (hgap : isGap c = false) (hp : piece c r = .ok p)
    (pos line : Nat) : ∃ ts, (scanFrom (c :: r) pos line).tokens = p.token pos line :: ts := by
  rw [scanFrom, if_neg (by rw [hgap]; exact Bool.false_ne_true), hp]
  dsimp only
  split <;> exact ⟨_, rfl⟩

/-- The items of data end at a line break or a colon. -/
theorem itemList_stop {b : Bool} {front rest : List Char} (h : itemList b (front ++ rest) = front) :
    ∀ c ∈ rest.head?, c = '\n' ∨ c = ':' := by
  induction front generalizing b with
  | nil =>
    intro c hc
    cases rest with
    | nil => cases hc
    | cons d rest =>
      cases hc
      rw [List.nil_append, itemList] at h
      split at h
      · rename_i hstop
        simp only [Bool.or_eq_true, Bool.and_eq_true, beq_iff_eq] at hstop
        exact hstop.imp_right And.left
      · cases h
  | cons d front ih =>
    rw [List.cons_append, itemList] at h
    split at h
    · cases h
    · exact ih (List.cons.inj h).2

/-- **Behind a token that may take blanks** the text starts as before, unless a letter is there. -/
theorem Restyled.head? {k : Kind} {pos line : Nat} {cs cs' : List Char}
    (h : Restyled (some k) pos cs (scanFrom cs pos line).tokens cs') (herror : (scanFrom cs pos line).error = none)
    (hk : k ∈ greedy) (hcs : ∀ c ∈ cs.head?, c.isAlpha = false ∧ isGap c = false) : cs'.head? = cs.head? := by
  cases cs with
  | nil =>
    rw [scanFrom] at h
    obtain ⟨blanks', span', rest', rfl, -, hkeep, hspan, hrest⟩ := first [] [] [] h rfl rfl
    rw [hkeep k rfl hk, hspan.nil, hrest.nil]
    rfl
  | cons c r =>
    obtain ⟨halpha, hgap⟩ := hcs c rfl
    cases hp : piece c r with
    | error e =>
      rw [scanFrom_failed hgap hp] at herror
      cases herror
    | ok p =>
      obtain ⟨rest, rfl⟩ := (piece_laid hp).front
      obtain ⟨ts, hts⟩ := scanFrom_first hgap hp pos line
      rw [hts] at h
      obtain ⟨blanks', c', tail', rest', rfl, -, hkeep, hc, -, -⟩ := first_piece [] h
      rw [hkeep k rfl hk, hc.eq_of_not_isAlpha halpha]
      rfl

/-- What a token is, apart from its place in the text. -/
def content (t : Token) : Kind × String × Int := (t.kind, t.lexeme, t.line)

/-- **The same scan up to the places of the tokens.** -/
structure Scan.Alike (s s' : Scan) : Prop where
  tokens : s'.tokens.map content = s.tokens.map content
  warnings : s'.warnings = s.warnings
  error : s'.error = s.error

/-- Tokens in front of both. -/
theorem Scan.Alike.step {s s' : Scan} (h : s.Alike s') {ts ts' : List Token} (hts : ts'.map content = ts.map content)
    (ws : List (Nat × ScanWarning)) : (s.behind ts ws).Alike (s'.behind ts' ws) :=
  ⟨by simp only [Scan.behind, List.map_append, hts, h.tokens], by simp only [Scan.behind, h.warnings], h.error⟩

theorem SameLetter.isGap {c c' : Char} (h : SameLetter c c') : isGap c' = Token.isGap c :=
  h.congr (Text.forall_of_all (by decide))

/-- **A text in another style is scanned alike.** -/
theorem scanFrom_restyled {k : Option Kind} {cs cs' : List Char} {pos line : Nat}
    (herror : (scanFrom cs pos line).error = none) (h : Restyled k pos cs (scanFrom cs pos line).tokens cs')
    (pos' : Nat) : (scanFrom cs pos line).Alike (scanFrom cs' pos' line) := by
  induction hn : cs.length using Nat.strongRecOn generalizing k cs cs' pos line pos' with
  | ind n ih =>
    subst hn
    -- the blanks before the first token first, as they are before it in the other text
    obtain ⟨blanks, core, rfl, hblanks, hcore⟩ := exists_takeWhile isGap cs
    rw [scanFrom_blanks hblanks] at herror h ⊢
    have hfront := front core
    cases hfront with
    | nil =>
      rw [scanFrom] at h ⊢
      obtain ⟨blanks', span', rest', rfl, hgap', -, hspan, hrest⟩ := h.first blanks [] [] rfl rfl
      rw [hspan.nil, hrest.nil, scanFrom_blanks hgap', List.nil_append, scanFrom]
      exact ⟨rfl, rfl, rfl⟩
    | @blank c r hgap =>
      rw [List.head?_cons, Option.any_some, hgap] at hcore
      cases hcore
    | @failed c r e hgap he =>
      rw [scanFrom_failed hgap he] at herror
      cases herror
    | @token c rest p hgap hp hdata =>
      rw [scanFrom_token hgap hp rfl hdata] at herror h ⊢
      obtain ⟨blanks', c', tail', rest', rfl, hgap', -, hc, hspan, hrest⟩ := h.first_piece blanks
      have hp' := piece_near hp rfl hspan hrest.near fun hk hend => hrest.head? herror hk fun d hd => by
        rw [hend d hd]
        exact ⟨rfl, rfl⟩
      have hlt : rest.length < (blanks ++ c :: (p.tail ++ rest)).length := by
        simp only [List.length_append, List.length_cons]
        omega
      rw [scanFrom_blanks hgap', scanFrom_token (by rw [hc.isGap, hgap]) hp' rfl hdata]
      refine (ih rest.length hlt herror hrest _ rfl).step ?_ _
      rfl
    | @data c gap items rest p hgap hp hdata hgaps hitems =>
      rw [scanFrom_data hgap hp rfl hdata hgaps hitems] at herror h ⊢
      obtain ⟨blanks', c', tail', after', rfl, hgap', -, hc, hspan, hafter⟩ := h.first_piece blanks
      have hkind : p.kind = .keyword := beq_iff_eq.1 (Bool.and_eq_true_iff.1 hdata).1
      have hp' := piece_near hp rfl hspan hafter.near fun hk => absurd hk (by rw [hkind]; decide)
      -- the items behind the word are kept, and so is what ends them
      obtain ⟨gap', items', rest', rfl, hgaps', -, hsame, hrest⟩ := hafter.first gap items rest rfl rfl
      obtain rfl : items' = items := hsame.eq (show Kind.dataItems ∉ caseless by decide)
      have hhead : rest'.head? = rest.head? := by
        refine hrest.head? herror (show Kind.dataItems ∈ greedy by decide) fun d hd => ?_
        rcases itemList_stop hitems d hd with rfl | rfl <;> exact ⟨rfl, rfl⟩
      have hstop : (items' ++ rest').head?.any isGap = false := by
        rw [List.head?_append, hhead, ← List.head?_append]
        exact any_head?_of_takeWhile hgaps
      have hlt : rest.length < (blanks ++ c :: (p.tail ++ (gap ++ (items' ++ rest)))).length := by
        simp only [List.length_append, List.length_cons]
        omega
      rw [scanFrom_blanks hgap', scanFrom_data (by rw [hc.isGap, hgap]) hp' rfl hdata
        (takeWhile_append_stop hgaps' hstop) (itemList_same hitems hhead)]
      refine (ih rest.length hlt herror hrest _ rfl).step ?_ _
      rfl

theorem Restyles.alike {source source' : List Char} (h : Restyles source source') :
    (scan source).Alike (scan source') :=
  scanFrom_restyled h.1 h.2 0

end Locomotive.Token
