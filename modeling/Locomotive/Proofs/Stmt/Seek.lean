import Locomotive.Proofs.Stmt.Reads

/-!
# Places outside of skipped statements

Which keywords of a text belong to its grammar can be told from the tokens alone: all but those that stand in
a statement without a counterpart, which extends from its keyword, or from the label that a `THEN` or an `ELSE`
jumps to, up to the end of the statement.

* `Parse.seek`: the places of some tokens outside of such statements.
* `Parse.Marks.seek_taken`: tokens that stay inside a statement have none of them among them.
* `Parse.dataWords`: the `DATA` keywords.
-/

namespace Locomotive

namespace Parse

/-- The token is the first one of a statement without a counterpart, or it is followed by a label to
jump to. -/
def opensSkipped (t : Token) (ts : List Token) : Bool :=
  t.kind == .keyword && Token.isUnsupported t.lexeme ||
    (t.isWord "THEN" || t.isWord "ELSE") && (ts.headD Token.endMark).kind == .number

/-- **The places of the sought tokens** outside of statements without a counterpart, each with the tokens from
there on; `skipping` says whether the first token stands in such a statement. -/
def seek (sought : Token → Bool) : (skipping : Bool) → List Token → List (List Token)
  | _, [] => []
  | skipping, t :: ts =>
    if skipping && !endsStatement t then seek sought true ts
    else if sought t then (t :: ts) :: seek sought (opensSkipped t ts) ts
    else seek sought (opensSkipped t ts) ts

/-- Tokens to seek: none of them can stand anywhere in a statement or open one without a counterpart. -/
structure Marks (sought : Token → Bool) : Prop where
  inner : ∀ t, Inner t → sought t = false
  skipped : ∀ t, t.kind = .keyword → Token.isUnsupported t.lexeme = true → sought t = false

section

variable {sought : Token → Bool} {t : Token} {ts rest : List Token}

theorem seek_cons (t : Token) (ts : List Token) : seek sought false (t :: ts) =
    if sought t then (t :: ts) :: seek sought (opensSkipped t ts) ts else seek sought (opensSkipped t ts) ts := by
  rw [seek, if_neg (by simp)]

/-- The first token is not sought. -/
theorem seek_other (h : sought t = false) (ts : List Token) :
    seek sought false (t :: ts) = seek sought (opensSkipped t ts) ts := by
  rw [seek_cons, if_neg (by simp [h])]

/-- A skipped statement goes on up to its end. -/
theorem seek_skip (sought : Token → Bool) (ts : List Token) :
    seek sought true ts = seek sought false (ts.dropWhile fun t => !endsStatement t) := by
  induction ts with
  | nil => rfl
  | cons t ts ih =>
    by_cases hend : endsStatement t = true
    · rw [List.dropWhile_cons_of_neg (by simp [hend]), seek, seek]
      simp [hend]
    · rw [List.dropWhile_cons_of_pos (by simpa using hend), ← ih, seek, if_pos (by simpa using hend)]

/-- Only these keywords open something to skip. -/
theorem opensSkipped_eq_false (h : t.kind = .keyword → t.lexeme ∉ "THEN" :: "ELSE" :: Token.unsupportedWords)
    (ts : List Token) : opensSkipped t ts = false := by
  unfold opensSkipped Token.isWord
  by_cases hkind : t.kind = .keyword
  · have hword := h hkind
    simp only [List.mem_cons, not_or] at hword
    simp [hword, Token.isUnsupported]
  · simp [hkind]

theorem Inner.opensSkipped (h : Inner t) (ts : List Token) : opensSkipped t ts = false := by
  refine opensSkipped_eq_false (fun hkind hmem => h.word hkind ?_) ts
  exact List.mem_cons_of_mem _ (List.mem_cons_of_mem _ hmem)

/-- Such tokens are passed over. -/
theorem Marks.seek_taken (hsought : Marks sought) (h : Taken ts rest) : seek sought false ts = seek sought false rest := by
  obtain ⟨used, rfl, hused⟩ := h
  induction used with
  | nil => rfl
  | cons t used ih =>
    obtain ⟨ht, hused⟩ := List.forall_mem_cons.1 hused
    rw [List.cons_append, seek_other (hsought.inner t ht), ht.opensSkipped, ih hused]

/-- A statement without a counterpart is passed over. -/
theorem Marks.seek_skipped (hsought : Marks sought) (h : Skipped ts rest) :
    seek sought false ts = seek sought false rest := by
  obtain ⟨kw, mid, htaken, hkind, hunsupported, rfl⟩ := h
  have hopens : opensSkipped kw mid = true := by simp [opensSkipped, hkind, hunsupported]
  rw [hsought.seek_taken htaken, seek_other (hsought.skipped kw hkind hunsupported), hopens, seek_skip]

end

/-! ## `DATA` keywords -/

/-- **The `DATA` keywords** of tokens, except those in statements without a counterpart; `skipping` says
whether the first token stands in one. -/
def dataWords : (skipping : Bool) → List Token → List Token
  | _, [] => []
  | skipping, t :: ts =>
    if skipping && !endsStatement t then dataWords true ts
    else if t.isWord "DATA" then t :: dataWords false ts
    else dataWords (opensSkipped t ts) ts

theorem marks_data : Marks fun t => t.isWord "DATA" := by
  refine ⟨fun t ht => ht.isWord (by decide), fun t _ hunsupported => Bool.eq_false_iff.2 fun hword => ?_⟩
  rw [(eq_of_isWord hword).2] at hunsupported
  exact absurd hunsupported (by decide)

/-- They are what stands at the places of these keywords. -/
theorem dataWords_eq (skipping : Bool) (ts : List Token) :
    dataWords skipping ts = (seek (fun t => t.isWord "DATA") skipping ts).map fun ts => ts.headD Token.endMark := by
  induction ts generalizing skipping with
  | nil => rfl
  | cons t ts ih =>
    rw [dataWords, seek]
    split
    · exact ih true
    split
    · rename_i hword
      have hopens : opensSkipped t ts = false :=
        opensSkipped_eq_false (fun _ => by rw [(eq_of_isWord hword).2]; decide) ts
      rw [hopens, List.map_cons, ih]
      rfl
    · exact ih _

/-- Nothing is sought at the first token. -/
theorem dataWords_other {t : Token} (h : t.isWord "DATA" = false) (ts : List Token) :
    dataWords false (t :: ts) = dataWords (opensSkipped t ts) ts := by
  rw [dataWords_eq, seek_other h, ← dataWords_eq]

/-- A token other than a keyword is passed over. -/
theorem dataWords_of_kind {t : Token} (h : t.kind ≠ .keyword) (ts : List Token) :
    dataWords false (t :: ts) = dataWords false ts := by
  rw [dataWords_other (by simp [Token.isWord, h]), opensSkipped_eq_false fun hkind => absurd hkind h]

theorem dataWords_taken {ts rest : List Token} (h : Taken ts rest) : dataWords false ts = dataWords false rest := by
  rw [dataWords_eq, marks_data.seek_taken h, ← dataWords_eq]

theorem dataWords_skipped {ts rest : List Token} (h : Skipped ts rest) :
    dataWords false ts = dataWords false rest := by
  rw [dataWords_eq, marks_data.seek_skipped h, ← dataWords_eq]

theorem dataWords_skip (ts : List Token) :
    dataWords true ts = dataWords false (ts.dropWhile fun t => !endsStatement t) := by
  rw [dataWords_eq, seek_skip, ← dataWords_eq]

end Parse

end Locomotive
