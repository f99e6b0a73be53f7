import Locomotive.Proofs.Parse.Alike

/-!
# The tokens of a statement

Some keywords stand for a statement of their own: `IF` with its `THEN` and `ELSE`, `DATA`, and those without a
counterpart. The other parts of a statement take none of these and nothing that ends a statement, for any tokens at
all. If such a part cannot be read, the complaint is about something inside of the line: three complaints are about how
the labels of lines follow one another, and they are made where lines are put together and nowhere else.

* `Parse.Inner`: the tokens that may stand anywhere in a statement.
* `Parse.Complaint.OfOrder`: the complaints about labels.
* `Parse.Taken`: from one place to another there are only such tokens.
* `Parse.Parser.Takes`: parsers that take no others and make no such complaint, with one lemma for each way to combine
  parsers.
-/

namespace Locomotive

namespace Parse

/-- The keywords that stand for a statement of their own. -/
def outerWords : List String := "IF" :: "DATA" :: "THEN" :: "ELSE" :: Token.unsupportedWords

/-- **The token stays inside a statement**: it does not end one and is none of these keywords. -/
structure Inner (t : Token) : Prop where
  ends : endsStatement t = false
  word : t.kind = .keyword → t.lexeme ∉ outerWords

/-- The kinds that only such tokens have. -/
def InnerKind (kind : Token.Kind) : Prop := kind ∉ [.colon, .eol, .eof, .comment, .keyword]

instance (kind : Token.Kind) : Decidable (InnerKind kind) := inferInstanceAs (Decidable (¬ _))

theorem inner_of_kind {t : Token} {kind : Token.Kind} (h : t.kind = kind) (hk : InnerKind kind) : Inner t := by
  subst h
  simp only [InnerKind, List.mem_cons, List.not_mem_nil, or_false, not_or] at hk
  obtain ⟨hcolon, heol, heof, hcomment, hkeyword⟩ := hk
  refine ⟨?_, fun h => absurd h hkeyword⟩
  simp [endsStatement, Token.isWord, hcolon, heol, heof, hcomment, hkeyword]

theorem eq_of_isWord {t : Token} {w : String} (h : t.isWord w = true) : t.kind = .keyword ∧ t.lexeme = w := by
  simpa [Token.isWord] using h

theorem inner_of_keyword {t : Token} (h : t.kind = .keyword) (hw : t.lexeme ∉ outerWords) : Inner t := by
  refine ⟨?_, fun _ => hw⟩
  have helse : t.lexeme ≠ "ELSE" := fun helse => hw (by rw [helse]; decide)
  simp [endsStatement, Token.isWord, h, helse]

theorem inner_of_isWord {t : Token} {w : String} (h : t.isWord w = true) (hw : w ∉ outerWords) : Inner t := by
  obtain ⟨hkind, rfl⟩ := eq_of_isWord h
  exact inner_of_keyword hkind hw

theorem Inner.isWord {t : Token} (h : Inner t) {w : String} (hw : w ∈ outerWords) : t.isWord w = false := by
  refine Bool.eq_false_iff.2 fun hword => ?_
  obtain ⟨hkind, rfl⟩ := eq_of_isWord hword
  exact h.word hkind hw

/-- **From the tokens up to the rest of them** there are only tokens that stay inside a statement. -/
def Taken (ts rest : List Token) : Prop := ∃ used, ts = used ++ rest ∧ ∀ t ∈ used, Inner t

namespace Taken

variable {t : Token} {ts mid rest : List Token}

theorem refl (ts : List Token) : Taken ts ts := ⟨[], rfl, by simp⟩

theorem trans (h : Taken ts mid) (h' : Taken mid rest) : Taken ts rest := by
  obtain ⟨used, rfl, hused⟩ := h
  obtain ⟨used', rfl, hused'⟩ := h'
  exact ⟨used ++ used', by rw [List.append_assoc], List.forall_mem_append.2 ⟨hused, hused'⟩⟩

theorem cons (ht : Inner t) (h : Taken ts rest) : Taken (t :: ts) rest := by
  obtain ⟨used, rfl, hused⟩ := h
  exact ⟨t :: used, rfl, List.forall_mem_cons.2 ⟨ht, hused⟩⟩

theorem suffix (h : Taken ts rest) : rest <:+ ts := h.imp fun _ hused => hused.1.symm

theorem forall_mem {K : Token → Prop} (h : Taken ts rest) (hts : ∀ t ∈ ts, K t) : ∀ t ∈ rest, K t := by
  obtain ⟨used, rfl, -⟩ := h
  exact fun t ht => hts t (List.mem_append_right used ht)

/-- The next token. -/
theorem head (ht : Inner (ts.headD Token.endMark)) : Taken ts ts.tail := by
  cases ts with
  | nil => exact refl []
  | cons t ts => exact cons ht (refl ts)

end Taken

/-- There is a next token if it stays inside a statement. -/
theorem eq_cons_of_inner {ts : List Token} (ht : Inner (ts.headD Token.endMark)) :
    ts = ts.headD Token.endMark :: ts.tail := by
  cases ts with
  | nil => exact absurd ht.ends (by decide)
  | cons t ts => rfl

theorem length_tail_lt_of_inner {ts : List Token} (ht : Inner (ts.headD Token.endMark)) :
    ts.tail.length < ts.length := by
  have hlength := congrArg List.length (eq_cons_of_inner ht)
  rw [List.length_cons] at hlength
  omega

theorem head_mem_of_inner {ts : List Token} (ht : Inner (ts.headD Token.endMark)) : ts.headD Token.endMark ∈ ts := by
  rw [eq_cons_of_inner ht]
  exact List.mem_cons_self

/-! ## Parsers that take no other tokens -/

/-- **The complaint is about how labels follow one another.** -/
def Complaint.OfOrder : Complaint → Prop
  | duplicateLabel _ _ => True
  | noLabel => True
  | descendingLabel _ _ => True
  | _ => False

/-- The failure is about something else. -/
def Failure.Inside : Failure → Prop
  | rejected _ c _ => ¬ c.OfOrder
  | outsideSource _ => True

/-- The failure is another complaint about a token. -/
def Failure.OfStatement : Failure → Prop
  | rejected _ c _ => ¬ c.OfOrder
  | outsideSource _ => False

variable {α β : Type} {ts : List Token}

/-- Nothing is said of a value. -/
def Any (_ : α) : Prop := True

theorem read_eq_ok {o : Outcome α ts} {q : Parsed α ts} (h : o = .ok q) : o.read = .ok (q.value, q.rest) :=
  read_eq_ok_iff.2 h

/-- What is read and what remains have the property, or a token is rejected for another reason than how labels follow
one another, with some of the tokens still unread. -/
def Reply.Within (o : Reply α) (ts : List Token) (R : α → List Token → Prop) : Prop :=
  match o with
  | .error f => f.OfStatement ∧ f.rest <:+ ts
  | .ok (a, rest) => R a rest

/-- What is given has the property, and only such tokens are taken before what remains. -/
def Reply.Takes (o : Reply α) (V : α → Prop) (ts : List Token) : Prop := o.Within ts fun a rest => V a ∧ Taken ts rest

namespace Reply

variable {V : α → Prop} {W : β → Prop} {o : Reply α} {R : α → List Token → Prop} {S : β → List Token → Prop}

theorem Within.mono {R' : α → List Token → Prop} (h : o.Within ts R) (hR : ∀ a rest, R a rest → R' a rest) :
    o.Within ts R' := by
  rcases o with e | ⟨a, rest⟩
  · exact h
  · exact hR a rest h

/-- What is read from a later place. -/
theorem Within.after {mid : List Token} (hmid : mid <:+ ts) (h : o.Within mid R) : o.Within ts R := by
  rcases o with e | ⟨a, rest⟩
  · exact ⟨h.1, h.2.trans hmid⟩
  · exact h

theorem Within.of_ok {a : α} {rest : List Token} (h : o.Within ts R) (ho : o = .ok (a, rest)) : R a rest := by
  rw [ho] at h
  exact h

theorem Within.andThen {f : α → List Token → Reply β} (h : o.Within ts R)
    (hf : ∀ a rest, o = .ok (a, rest) → R a rest → (f a rest).Within ts S) : (o.andThen f).Within ts S := by
  rcases o with e | ⟨a, rest⟩
  · exact h
  · exact hf a rest rfl h

/-- What is taken after such tokens. -/
theorem Takes.after {mid : List Token} (htaken : Taken ts mid) (h : o.Takes V mid) : o.Takes V ts :=
  (Within.after htaken.suffix h).mono fun _ _ hread => ⟨hread.1, htaken.trans hread.2⟩

theorem Takes.andThen {f : α → List Token → Reply β} (h : o.Takes V ts)
    (hf : ∀ a rest, o = .ok (a, rest) → V a ∧ Taken ts rest → (f a rest).Takes W rest) : (o.andThen f).Takes W ts :=
  Within.andThen h fun a rest hread htaken => Takes.after htaken.2 (hf a rest hread htaken)

theorem takes_ok {a : α} (h : V a) (ts : List Token) : Takes (.ok (a, ts)) V ts := ⟨h, .refl ts⟩

end Reply

namespace Parser

variable {K : Token → Prop} {V : α → Prop} {W : β → Prop}

/-- **The parser takes only tokens that stay inside a statement**, and what it gives has the property, if all tokens
are of the class `K`. -/
def Takes (K : Token → Prop) (p : Parser α) (V : α → Prop) : Prop := ∀ ts, (∀ t ∈ ts, K t) → (p ts).read.Takes V ts

theorem takes_pure {a : α} (h : V a) : Takes K (pure a) V := fun ts _ => Reply.takes_ok h ts

theorem takes_fail (blamed : Token) {c : Complaint} (h : ¬ c.OfOrder) : Takes K (fail blamed c : Parser α) V :=
  fun ts _ => ⟨h, List.suffix_refl ts⟩

theorem takes_peek : Takes K peek Any := fun ts _ => Reply.takes_ok trivial ts

theorem takes_bind {p : Parser β} {f : β → Parser α} (hp : Takes K p W) (hf : ∀ b, W b → Takes K (f b) V) :
    Takes K (p >>= f) V := by
  intro ts hts
  rw [read_bind]
  exact (hp ts hts).andThen fun b rest _ hread => hf b hread.1 rest (hread.2.forall_mem hts)

/-- What is read by two parsers is read by the first and then by the second. -/
theorem read_bind_eq_ok {p : Parser β} {f : β → Parser α} {a : α} {rest : List Token}
    (h : ((p >>= f) ts).read = .ok (a, rest)) :
    ∃ b mid, (p ts).read = .ok (b, mid) ∧ (f b mid).read = .ok (a, rest) := by
  rw [read_bind] at h
  rcases hp : (p ts).read with e | ⟨b, mid⟩ <;> rw [hp] at h
  · cases h
  · exact ⟨b, mid, rfl, h⟩

theorem read_next (ts : List Token) : (next ts).read = .ok (ts.headD Token.endMark, ts.tail) := by
  cases ts <;> rfl

/-- A token that is taken and then found to stay inside the statement. -/
theorem takes_next_bind {f : Token → Parser α} (hf : ∀ t, Takes K (f t) fun a => Inner t ∧ (K t → V a)) :
    Takes K (next >>= f) V := by
  intro ts hts
  rw [read_bind, read_next, Reply.andThen_ok]
  have h := hf (ts.headD Token.endMark) ts.tail fun t ht => hts t (List.mem_of_mem_tail ht)
  refine (Reply.Within.after (List.tail_suffix ts) h).mono ?_
  rintro a rest ⟨⟨hinner, hvalue⟩, htaken⟩
  exact ⟨hvalue (hts _ (head_mem_of_inner hinner)), .trans (.head hinner) htaken⟩

/-- A token that is taken if it is of a sort that stays inside the statement. -/
theorem takes_take {c : Token → Prop} [DecidablePred c] {f p : Token → Parser α} (hc : ∀ t, c t → Inner t)
    (hf : ∀ t, c t → K t → Takes K (f t) V) (hp : ∀ t, Takes K (p t) V) :
    Takes K (do
      let o ← peek
      if c o then
        let t ← next
        f t
      else p o) V := by
  intro ts hts
  rw [read_bind]
  refine (takes_peek ts hts).andThen fun o rest h _ => ?_
  cases h
  split
  · rename_i ho
    rw [read_bind, read_next, Reply.andThen_ok]
    have hhead := hts _ (head_mem_of_inner (hc _ ho))
    exact (hf _ ho hhead ts.tail fun t ht => hts t (List.mem_of_mem_tail ht)).after (.head (hc _ ho))
  · exact hp _ ts hts

/-- A token of a kind that is expected. -/
theorem expect_within {kind : Token.Kind} (hk : InnerKind kind) (ts : List Token) :
    (expect kind ts).read.Within ts fun c rest => ts = c :: rest ∧ c.kind = kind := by
  rw [read_expect]
  split
  · rename_i hkind
    exact ⟨eq_cons_of_inner (inner_of_kind hkind hk), hkind⟩
  · exact ⟨id, List.tail_suffix ts⟩

theorem takes_expect {kind : Token.Kind} (hk : InnerKind kind) :
    Takes K (expect kind) fun t => K t ∧ t.kind = kind := by
  refine takes_next_bind fun t => ?_
  split
  · rename_i hkind
    exact takes_pure ⟨inner_of_kind hkind hk, fun ht => ⟨ht, hkind⟩⟩
  · exact takes_fail _ id

theorem takes_expectWord {w : String} (hw : w ∉ outerWords) : Takes K (expectWord w) Any := by
  refine takes_next_bind fun t => ?_
  split
  · exact takes_pure ⟨inner_of_isWord ‹_› hw, fun _ => trivial⟩
  · exact takes_fail _ id

theorem takes_skip {kind : Token.Kind} (hk : InnerKind kind) : Takes K (skip kind) Any :=
  takes_take (fun _ h => inner_of_kind h hk) (fun _ _ _ => takes_pure trivial) fun _ => takes_pure trivial

/-- A list with commas. What is said of an item and the tokens it takes holds of it and those of the list. -/
theorem uses_commaList {item : Parser α} {U : α → List Token → Prop}
    (hmono : ∀ {a : α} {u u' : List Token}, u ⊆ u' → U a u → U a u')
    (hitem : ∀ ts, (∀ t ∈ ts, K t) → (item ts).read.Within ts fun a rest =>
      ∃ used, ts = used ++ rest ∧ (∀ t ∈ used, Inner t) ∧ U a used) (ts : List Token) (hts : ∀ t ∈ ts, K t) :
    (commaList item ts).read.Within ts fun as rest =>
      ∃ used, ts = used ++ rest ∧ (∀ t ∈ used, Inner t) ∧ as ≠ [] ∧ ∀ a ∈ as, U a used := by
  -- the list goes on with fewer tokens after each comma
  induction hn : ts.length using Nat.strongRecOn generalizing ts with
  | ind n ih =>
    rw [read_commaList]
    refine (hitem ts hts).andThen ?_
    rintro a rest - ⟨used, rfl, hused, ha⟩
    split
    · rename_i hcomma
      have hinner : Inner (rest.headD Token.endMark) := inner_of_kind hcomma (by decide)
      have hlt := length_tail_lt_of_inner hinner
      rw [List.length_append] at hn
      have htail : ∀ t ∈ rest.tail, K t := fun t ht => hts t (List.mem_append_right used (List.mem_of_mem_tail ht))
      have hsuffix := (List.tail_suffix rest).trans (List.suffix_append used rest)
      refine ((ih rest.tail.length (by omega) rest.tail htail rfl).after hsuffix).andThen ?_
      rintro as last - ⟨more, hmore, hall, -, has⟩
      refine ⟨used ++ rest.headD Token.endMark :: more, ?_, ?_, List.cons_ne_nil a as, ?_⟩
      · rw [List.append_assoc, List.cons_append, ← hmore, ← eq_cons_of_inner hinner]
      · exact List.forall_mem_append.2 ⟨hused, List.forall_mem_cons.2 ⟨hinner, hall⟩⟩
      · refine List.forall_mem_cons.2 ⟨hmono (List.subset_append_left _ _) ha, fun b hb => hmono ?_ (has b hb)⟩
        exact List.Subset.trans (List.subset_cons_self _ _) (List.subset_append_right _ _)
    · exact ⟨used, rfl, hused, by simp, List.forall_mem_singleton.2 ha⟩

theorem takes_commaList {item : Parser α} (hitem : Takes K item V) :
    Takes K (commaList item) fun as => as ≠ [] ∧ ∀ a ∈ as, V a := by
  intro ts hts
  refine (uses_commaList (U := fun a _ => V a) (fun _ h => h) (fun ts hts => ?_) ts hts).mono ?_
  · refine (hitem ts hts).mono ?_
    rintro a rest ⟨ha, used, hused, hinner⟩
    exact ⟨used, hused, hinner, ha⟩
  · rintro as rest ⟨used, hused, hinner, has⟩
    exact ⟨has, used, hused, hinner⟩

/-- A list with separators. An item is only read where the list does not stop. -/
theorem takes_separated {stops isSeparator : Token → Bool} {item : Parser α}
    (hseparator : ∀ t, isSeparator t = true → Inner t)
    (hitem : ∀ ts, (∀ t ∈ ts, K t) → stops (ts.headD Token.endMark) = false → (item ts).read.Takes V ts) :
    Takes K (separated stops isSeparator item) fun as => ∀ a ∈ as, V a := by
  intro ts hts
  induction hn : ts.length using Nat.strongRecOn generalizing ts with
  | ind n ih =>
    rw [read_separated]
    split
    · exact Reply.takes_ok (by simp) ts
    rename_i hstop
    refine (hitem ts hts (Bool.eq_false_iff.2 hstop)).andThen fun a rest hread ha => ?_
    have hlen := (suffix_of_read hread).length_le
    split
    · rename_i hsep
      have hinner := hseparator _ hsep.2
      have hlt := length_tail_lt_of_inner hinner
      have htail := fun t ht => ha.2.forall_mem hts t (List.mem_of_mem_tail ht)
      refine .after (.head hinner) ?_
      refine (ih rest.tail.length (by omega) rest.tail htail rfl).andThen fun as last _ has => ?_
      exact Reply.takes_ok (List.forall_mem_cons.2 ⟨ha.1, has.1⟩) last
    · exact Reply.takes_ok (List.forall_mem_singleton.2 ha.1) rest

end Parser

end Parse

end Locomotive
