import Locomotive.Proofs.Parse.Outcome
import Locomotive.Stmt.Parse
import Mathlib.Data.List.Forall2

/-!
# Reading the same from two lists of tokens

Two lists of tokens that agree up to the end of a line, apart from where their tokens stand, are read alike: what
follows that line in either list does not matter. `SameLine` relates such lists and `Reply.Alike` what is read
from them. A reading that finds a token outside of the source text is compared with nothing.

* `Token.Alike`: tokens that differ in their places only.
* `SameLine`: two lists up to the end of the line.
* `Reply.Alike`: the results of two readings, with one lemma for each way to combine parsers.
-/

namespace Locomotive

namespace Token

/-- The tokens differ in their places only: the second stands on the line that `g` makes of that of the first. -/
structure Alike (g : Int → Int) (t t' : Token) : Prop where
  kind : t'.kind = t.kind
  lexeme : t'.lexeme = t.lexeme
  line : t'.line = g t.line

theorem Alike.isWord {g : Int → Int} {t t' : Token} (h : Alike g t t') (word : String) :
    t'.isWord word = t.isWord word := by
  rw [Token.isWord, h.kind, h.lexeme]
  rfl

theorem Alike.endsStatement {g : Int → Int} {t t' : Token} (h : Alike g t t') :
    Parse.endsStatement t' = Parse.endsStatement t := by
  rw [Parse.endsStatement, h.kind, h.isWord]
  rfl

/-- The token is the last one of a line. -/
def EndsLine (t : Token) : Prop := t.kind = .eol ∨ t.kind = .eof

instance (t : Token) : Decidable t.EndsLine := inferInstanceAs (Decidable (_ ∨ _))

theorem EndsLine.endsStatement {t : Token} (h : t.EndsLine) : Parse.endsStatement t = true := by
  rcases h with h | h <;> simp [Parse.endsStatement, h]

theorem EndsLine.isWord {t : Token} (h : t.EndsLine) (word : String) : t.isWord word = false := by
  rcases h with h | h <;> simp [Token.isWord, h]

end Token

namespace Parse

/-- **Two lists that agree up to the end of the line**: their tokens are related by `ρ` one by one, and `v` and
`v'` follow the last of them. Nothing follows the end of the text. -/
inductive SameLine (ρ : Token → Token → Prop) (v v' : List Token) : List Token → List Token → Prop
  | stop {t t' : Token} (h : ρ t t') (hend : t.kind = .eol ∨ t.kind = .eof ∧ v = [] ∧ v' = []) :
      SameLine ρ v v' (t :: v) (t' :: v')
  | cons {t t' : Token} {ts ts' : List Token} (h : ρ t t') (hmid : ¬ t.EndsLine) (rest : SameLine ρ v v' ts ts') :
      SameLine ρ v v' (t :: ts) (t' :: ts')

section

variable {ρ : Token → Token → Prop} {v v' ts ts' : List Token} {α α' β β' : Type}

/-- The first tokens are related, and so are the others unless the line ends there. -/
theorem SameLine.head (h : SameLine ρ v v' ts ts') : ∃ t r t' r', ts = t :: r ∧ ts' = t' :: r' ∧ ρ t t' ∧
    (t.EndsLine ∨ ¬ t.EndsLine ∧ SameLine ρ v v' r r') := by
  cases h with
  | stop h hend => exact ⟨_, _, _, _, rfl, rfl, h, .inl (hend.imp_right And.left)⟩
  | cons h hmid rest => exact ⟨_, _, _, _, rfl, rfl, h, .inr ⟨hmid, rest⟩⟩

/-- What follows the last token of the line. -/
theorem SameLine.tail_of_endsLine {t t' : Token} {r r' : List Token} (h : SameLine ρ v v' (t :: r) (t' :: r'))
    (ht : t.EndsLine) : r = v ∧ r' = v' := by
  cases h with
  | stop h hend => exact ⟨rfl, rfl⟩
  | cons h hmid rest => exact absurd ht hmid

theorem SameLine.headD (h : SameLine ρ v v' ts ts') : ρ (ts.headD Token.endMark) (ts'.headD Token.endMark) := by
  obtain ⟨t, r, t', r', rfl, rfl, ht, -⟩ := h.head
  exact ht

/-! ## Results -/

/-- The failures blame related tokens, if both blame a token. -/
def Failure.Alike (ρ : Token → Token → Prop) : Failure → Failure → Prop
  | .rejected t _ _, .rejected t' _ _ => ρ t t'
  | _, _ => True

/-- A failure that blames no token is like any other. -/
theorem Failure.alike_of_not_rejects {f f' : Failure} (h : ¬ f.Rejects ∨ ¬ f'.Rejects) : f.Alike ρ f' := by
  cases f <;> cases f' <;> simp_all [Failure.Alike, Failure.Rejects]

/-- **The results of two readings**: both give values that `R` relates and go on in the same line, or both fail and
blame related tokens; if only one fails, it finds a token outside of the source text. -/
def Reply.Alike (ρ : Token → Token → Prop) (v v' : List Token) (R : α → α' → Prop) (o : Reply α) (o' : Reply α') :
    Prop :=
  match o, o' with
  | .ok (a, rest), .ok (a', rest') => R a a' ∧ SameLine ρ v v' rest rest'
  | .ok _, .error f' => ¬ f'.Rejects
  | .error f, .ok _ => ¬ f.Rejects
  | .error f, .error f' => f.Alike ρ f'

namespace Reply

variable {R : α → α' → Prop} {S : β → β' → Prop} {o : Reply α} {o' : Reply α'}

theorem Alike.mono {S : α → α' → Prop} (h : Alike ρ v v' R o o') (hRS : ∀ a a', R a a' → S a a') :
    Alike ρ v v' S o o' := by
  rcases o with f | ⟨a, rest⟩ <;> rcases o' with f' | ⟨a', rest'⟩
  · exact h
  · exact h
  · exact h
  · exact ⟨hRS a a' h.1, h.2⟩

/-- One reading after another. -/
theorem Alike.andThen {f : α → List Token → Reply β} {f' : α' → List Token → Reply β'} (h : Alike ρ v v' R o o')
    (hf : ∀ a a' rest rest', o = .ok (a, rest) → R a a' → SameLine ρ v v' rest rest' →
      Alike ρ v v' S (f a rest) (f' a' rest')) :
    Alike ρ v v' S (o.andThen f) (o'.andThen f') := by
  rcases o with e | ⟨a, rest⟩ <;> rcases o' with e' | ⟨a', rest'⟩
  · exact h
  · -- the failure of the first reading excuses whatever the second one does
    have he : ¬ e.Rejects := h
    show Alike ρ v v' S (.error e) (f' a' rest')
    rcases f' a' rest' with _ | ⟨b, u⟩
    · exact Failure.alike_of_not_rejects (.inl he)
    · exact he
  · have he : ¬ e'.Rejects := h
    show Alike ρ v v' S (f a rest) (.error e')
    rcases f a rest with _ | ⟨b, u⟩
    · exact Failure.alike_of_not_rejects (.inr he)
    · exact he
  · exact hf a a' rest rest' rfl h.1 h.2

end Reply

/-- The results of two parsers are alike. -/
def Outcome.Alike (ρ : Token → Token → Prop) (v v' : List Token) (R : α → α' → Prop) (o : Outcome α ts)
    (o' : Outcome α' ts') : Prop := Reply.Alike ρ v v' R o.read o'.read

end

/-! ## Parsers -/

namespace Parser

open Outcome

variable {ρ : Token → Token → Prop} {v v' ts ts' : List Token} {α α' β β' : Type} {R : α → α' → Prop}
  {S : β → β' → Prop}

/-- **Two parsers read alike** from lists that agree up to the end of the line: what they read is related by `R`. -/
def ReadAlike (ρ : Token → Token → Prop) (v v' : List Token) (R : α → α' → Prop) (p : Parser α) (p' : Parser α') :
    Prop := ∀ ⦃ts ts'⦄, SameLine ρ v v' ts ts' → (p ts).Alike ρ v v' R (p' ts')

/-- **The second parser reads what `φ` makes** of what the first one reads. -/
abbrev ReadAs (ρ : Token → Token → Prop) (v v' : List Token) (φ : α → α') (p : Parser α) (p' : Parser α') : Prop :=
  ReadAlike ρ v v' (fun a a' => a' = φ a) p p'

theorem alike_pure {a : α} {a' : α'} (hR : R a a') : ReadAlike ρ v v' R (pure a) (pure a') :=
  fun _ _ h => ⟨hR, h⟩

theorem alike_fail {t t' : Token} (ht : ρ t t') {c c' : Complaint} :
    ReadAlike ρ v v' R (fail t c : Parser α) (fail t' c' : Parser α') :=
  fun _ _ _ => ht

/-- One parser after another. -/
theorem ReadAlike.bind {p : Parser α} {p' : Parser α'} {f : α → Parser β} {f' : α' → Parser β'}
    (hp : ReadAlike ρ v v' R p p') (hf : ∀ a a', R a a' → ReadAlike ρ v v' S (f a) (f' a')) :
    ReadAlike ρ v v' S (p >>= f) (p' >>= f') := by
  intro ts ts' h
  unfold Outcome.Alike
  rw [read_bind, read_bind]
  exact Reply.Alike.andThen (hp h) fun a a' rest rest' _ ha hrest => hf a a' ha hrest

theorem ReadAs.bind {φ : α → α'} {p : Parser α} {p' : Parser α'} {f : α → Parser β} {f' : α' → Parser β'}
    (hp : ReadAs ρ v v' φ p p') (hf : ∀ a, ReadAlike ρ v v' S (f a) (f' (φ a))) :
    ReadAlike ρ v v' S (p >>= f) (p' >>= f') :=
  ReadAlike.bind hp fun a _ ha => ha ▸ hf a

/-- A look at the next token. -/
theorem alike_peek {f : Token → Parser β} {f' : Token → Parser β'}
    (hf : ∀ t t', ρ t t' → ReadAlike ρ v v' S (f t) (f' t')) : ReadAlike ρ v v' S (peek >>= f) (peek >>= f') := by
  intro ts ts' h
  unfold Outcome.Alike
  rw [read_bind, read_bind]
  exact hf _ _ h.headD h

/-- The next token is taken, which may be the last one of the line. -/
theorem alike_next {f : Token → Parser β} {f' : Token → Parser β'}
    (hmid : ∀ t t', ρ t t' → ¬ t.EndsLine → ReadAlike ρ v v' S (f t) (f' t'))
    (hend : ∀ t t' r r', ρ t t' → t.EndsLine → (f t r).Alike ρ v v' S (f' t' r')) :
    ReadAlike ρ v v' S (next >>= f) (next >>= f') := by
  intro ts ts' h
  unfold Outcome.Alike
  rw [read_bind, read_bind]
  obtain ⟨t, r, t', r', rfl, rfl, ht, hends | ⟨hends, hr⟩⟩ := h.head
  · exact hend t t' r r' ht hends
  · exact hmid t t' ht hends hr

/-- The next token is taken if it is one of those that `c` is about, and none of them ends the line. -/
theorem alike_takeIf {c : Token → Prop} [DecidablePred c] {f : Token → Parser β} {f' : Token → Parser β'}
    {q : Parser β} {q' : Parser β'} (hc : ∀ t t', ρ t t' → (c t' ↔ c t)) (hmid : ∀ t, c t → ¬ t.EndsLine)
    (hf : ∀ t t', ρ t t' → ReadAlike ρ v v' S (f t) (f' t')) (hq : ReadAlike ρ v v' S q q') :
    ReadAlike ρ v v' S (peek >>= fun t => if c t then next >>= f else q)
      (peek >>= fun t => if c t then next >>= f' else q') := by
  intro ts ts' h
  unfold Outcome.Alike
  rw [read_bind, read_bind]
  obtain ⟨t, r, t', r', rfl, rfl, ht, hends⟩ := h.head
  show Reply.Alike ρ v v' S ((if c t then next >>= f else q : Parser β) (t :: r)).read
    ((if c t' then next >>= f' else q' : Parser β') (t' :: r')).read
  by_cases htaken : c t
  · rw [if_pos htaken, if_pos ((hc t t' ht).2 htaken), read_bind, read_bind]
    exact hf t t' ht (hends.resolve_left (hmid t htaken)).2
  · rw [if_neg htaken, if_neg (mt (hc t t' ht).1 htaken)]
    exact hq h

theorem read_commaList (item : Parser α) (ts : List Token) : (commaList item ts).read =
    (item ts).read.andThen fun a rest =>
      if (rest.headD Token.endMark).kind = .comma then
        (commaList item rest.tail).read.andThen fun as rest => .ok (a :: as, rest)
      else .ok ([a], rest) := by
  rw [commaList]
  rcases item ts with e | ⟨a, _ | ⟨t, r⟩, hs⟩
  · rfl
  · rfl
  · simp only [read_ok, Reply.andThen_ok, List.headD_cons, List.tail_cons]
    by_cases hc : t.kind = .comma <;> simp only [hc, if_true, if_false]
    · cases commaList item r <;> rfl
    · rfl

theorem read_separated (stops isSeparator : Token → Bool) (item : Parser α) (ts : List Token) :
    (separated stops isSeparator item ts).read =
      if stops (ts.headD Token.endMark) then .ok ([], ts)
      else (item ts).read.andThen fun a rest =>
        if rest ≠ [] ∧ isSeparator (rest.headD Token.endMark) = true then
          (separated stops isSeparator item rest.tail).read.andThen fun as rest => .ok (a :: as, rest)
        else .ok ([a], rest) := by
  rw [separated]
  by_cases hstop : stops (ts.headD Token.endMark) = true <;> simp only [hstop, if_true, if_false, Bool.false_eq_true]
  · rfl
  · rcases item ts with e | ⟨a, _ | ⟨t, r⟩, hs⟩
    · rfl
    · rfl
    · simp only [read_ok, Reply.andThen_ok, List.headD_cons, List.tail_cons, ne_eq, reduceCtorEq, not_false_eq_true,
        true_and]
      by_cases hsep : isSeparator t = true <;> simp only [hsep, if_true, if_false, Bool.false_eq_true]
      · cases separated stops isSeparator item r <;> rfl
      · rfl

/-- Items with separators behind them. -/
theorem alike_separated {stops isSeparator : Token → Bool} {item : Parser α} {item' : Parser α'}
    (hstops : ∀ t t', ρ t t' → stops t' = stops t) (hsep : ∀ t t', ρ t t' → isSeparator t' = isSeparator t)
    (hmid : ∀ t, isSeparator t = true → ¬ t.EndsLine)
    (hitem : ∀ ⦃ts ts'⦄, SameLine ρ v v' ts ts' → stops (ts.headD Token.endMark) = false →
      (item ts).Alike ρ v v' R (item' ts')) :
    ReadAlike ρ v v' (List.Forall₂ R) (separated stops isSeparator item) (separated stops isSeparator item') := by
  intro ts ts' h
  induction hn : ts.length using Nat.strongRecOn generalizing ts ts' with
  | ind n ih =>
    unfold Outcome.Alike
    rw [read_separated, read_separated]
    obtain ⟨u, q, u', q', rfl, rfl, hu, -⟩ := h.head
    rw [List.headD_cons, List.headD_cons, hstops u u' hu]
    split
    · exact ⟨.nil, h⟩
    · rename_i hstop
      refine Reply.Alike.andThen (hitem h (by simpa using hstop)) fun a a' rest rest' hrest ha hsame => ?_
      have hlen := (suffix_of_read hrest).length_le
      obtain ⟨t, r, t', r', rfl, rfl, ht, hends⟩ := hsame.head
      simp only [List.headD_cons, List.tail_cons, ne_eq, reduceCtorEq, not_false_eq_true, true_and, hsep t t' ht]
      split
      · rename_i hkind
        have hr := (hends.resolve_left (hmid t hkind)).2
        simp only [List.length_cons] at hlen hn
        refine Reply.Alike.andThen (ih r.length (by omega) hr rfl) fun as as' w w' _ has hw => ?_
        exact ⟨.cons ha has, hw⟩
      · exact ⟨.cons ha .nil, hsame⟩

theorem not_endsLine {t : Token} {kind : Token.Kind} (hk : kind ≠ .eol ∧ kind ≠ .eof) (ht : t.kind = kind) :
    ¬ t.EndsLine := by
  subst ht
  exact not_or.2 hk

theorem eq_map_of_forall₂ {φ : α → β} {as : List α} {bs : List β} (h : List.Forall₂ (fun a b => b = φ a) as bs) :
    bs = as.map φ := by
  induction h with
  | nil => rfl
  | cons hab _ ih => rw [hab, ih, List.map_cons]

variable {g : Int → Int} (hρ : ∀ t t', ρ t t' → Token.Alike g t t')
include hρ

theorem alike_expect {kind : Token.Kind} (hk : kind ≠ .eol ∧ kind ≠ .eof) :
    ReadAlike ρ v v' ρ (expect kind) (expect kind) := by
  refine alike_next (fun t t' ht _ => ?_) fun t t' r r' ht hends => ?_
  · rw [(hρ t t' ht).kind]
    split
    · exact alike_pure ht
    · exact alike_fail ht
  · have hne : t.kind ≠ kind := fun hkind => not_endsLine hk hkind hends
    rw [(hρ t t' ht).kind, if_neg hne, if_neg hne]
    exact ht

theorem alike_expectWord (word : String) : ReadAlike ρ v v' ρ (expectWord word) (expectWord word) := by
  refine alike_next (fun t t' ht _ => ?_) fun t t' r r' ht hends => ?_
  · rw [(hρ t t' ht).isWord]
    split
    · exact alike_pure ht
    · exact alike_fail ht
  · rw [(hρ t t' ht).isWord, hends.isWord]
    exact ht

theorem alike_skip {kind : Token.Kind} (hk : kind ≠ .eol ∧ kind ≠ .eof) :
    ReadAlike ρ v v' (fun b b' => b' = b) (skip kind) (skip kind) :=
  alike_takeIf (fun t t' ht => by rw [(hρ t t' ht).kind]) (fun _ => not_endsLine hk) (fun _ _ _ => alike_pure rfl)
    (alike_pure rfl)

/-- What follows depends on whether a token is skipped. -/
theorem alike_ifSkip {kind : Token.Kind} (hk : kind ≠ .eol ∧ kind ≠ .eof) {p q : Parser β} {p' q' : Parser β'}
    (hp : ReadAlike ρ v v' S p p') (hq : ReadAlike ρ v v' S q q') :
    ReadAlike ρ v v' S (skip kind >>= fun b => if b then p else q)
      (skip kind >>= fun b => if b then p' else q') := by
  refine (alike_skip hρ hk).bind fun b b' hb => ?_
  subst hb
  cases b' with
  | false => exact hq
  | true => exact hp

/-- Items with commas between them. -/
theorem alike_commaList {item : Parser α} {item' : Parser α'} (hitem : ReadAlike ρ v v' R item item') :
    ReadAlike ρ v v' (List.Forall₂ R) (commaList item) (commaList item') := by
  intro ts ts' h
  induction hn : ts.length using Nat.strongRecOn generalizing ts ts' with
  | ind n ih =>
    unfold Outcome.Alike
    rw [read_commaList, read_commaList]
    refine Reply.Alike.andThen (hitem h) fun a a' rest rest' hrest ha hsame => ?_
    have hlen := (suffix_of_read hrest).length_le
    obtain ⟨t, r, t', r', rfl, rfl, ht, hends⟩ := hsame.head
    rw [List.headD_cons, List.headD_cons, (hρ t t' ht).kind, List.tail_cons, List.tail_cons]
    split
    · rename_i hkind
      have hr := (hends.resolve_left (not_endsLine (by decide) hkind)).2
      rw [List.length_cons] at hlen
      refine Reply.Alike.andThen (ih r.length (by omega) hr rfl) fun as as' u u' _ has hu => ?_
      exact ⟨.cons ha has, hu⟩
    · exact ⟨.cons ha .nil, hsame⟩

/-- Items that `φ` makes of others. -/
theorem readAs_commaList {φ : α → α'} {item : Parser α} {item' : Parser α'} (hitem : ReadAs ρ v v' φ item item') :
    ReadAs ρ v v' (List.map φ) (commaList item) (commaList item') :=
  fun _ _ h => Reply.Alike.mono (alike_commaList hρ hitem h) fun _ _ => eq_map_of_forall₂

end Parser

end Parse

end Locomotive
