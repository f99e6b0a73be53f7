import Locomotive.Proofs.Stmt.Reading
import Locomotive.Proofs.Stmt.Recast

/-!
# Statements from two lists of tokens

From lists that agree up to the end of the line the same statements are read, apart from the lines they record and
from what they quote of the source text. No parser looks behind the end of its line.

* `Setting.Alike`: two source texts that quote alike.
* `simple_alike`: a statement other than `IF`.
* `statements_alike`: the statements of a line or of a branch.
-/

namespace Locomotive.Parse

open Parse.Outcome Parse.Parser

/-- **Two settings**: they are equally strict, and where both quote the text of related tokens, `f` makes the same of
the quotations. -/
structure Setting.Alike (ρ : Token → Token → Prop) (f : String → String) (s s' : Setting) : Prop where
  strict : s'.strict = s.strict
  quotes : ∀ a a' b b' x x', ρ a a' → ρ b b' → slice? s.source a.pos b.stop = some x →
    slice? s'.source a'.pos b'.stop = some x' → f (String.ofList x') = f (String.ofList x)

section

variable {ρ : Token → Token → Prop} {v v' ts ts' : List Token} {g : Int → Int}

/-- What follows a token that does not end the line. -/
theorem SameLine.tail (h : SameLine ρ v v' ts ts') (hmid : ¬ (ts.headD Token.endMark).EndsLine) :
    SameLine ρ v v' ts.tail ts'.tail := by
  obtain ⟨t, r, t', r', rfl, rfl, ht, hends⟩ := h.head
  exact (hends.resolve_left hmid).2

variable (hρ : ∀ t t', ρ t t' → Token.Alike g t t')
include hρ

/-- Related tokens have the same texts. -/
theorem map_lexeme_of_forall₂ {ns ns' : List Token} (h : List.Forall₂ ρ ns ns') :
    ns'.map Token.lexeme = ns.map Token.lexeme := by
  induction h with
  | nil => rfl
  | cons ht _ ih => rw [List.map_cons, List.map_cons, ih, (hρ _ _ ht).lexeme]

/-! ## Parts of statements -/

theorem labelRef_alike : ReadAlike ρ v v' (fun l l' => ρ l.1 l'.1 ∧ l'.2 = l.2) labelRef labelRef := by
  refine (alike_expect hρ (by decide)).bind fun t t' ht => ?_
  rw [(hρ t t' ht).lexeme]
  cases label? t.lexeme with
  | none => exact alike_fail ht
  | some l => exact alike_pure ⟨ht, rfl⟩

/-- What is taken up to the end of a statement: the last token of it, if there is one, ends the quotation. -/
theorem SameLine.split (h : SameLine ρ v v' ts ts') {b b' : Token} (hb : ρ b b') :
    SameLine ρ v v' (ts.dropWhile fun t => !endsStatement t) (ts'.dropWhile fun t => !endsStatement t) ∧
      ∃ c c', ρ c c' ∧
        ((ts.takeWhile fun t => !endsStatement t).getLast?.map Token.stop).getD b.stop = c.stop ∧
        ((ts'.takeWhile fun t => !endsStatement t).getLast?.map Token.stop).getD b'.stop = c'.stop := by
  have hlast : ∀ (t b : Token) (r : List Token), ((t :: r).getLast?.map Token.stop).getD b.stop =
      (r.getLast?.map Token.stop).getD t.stop := by
    intro t b r
    cases r with
    | nil => rfl
    | cons u r => rw [List.getLast?_cons_cons, List.getLast?_cons]; rfl
  induction h generalizing b b' with
  | @stop t t' ht hend =>
    have hends : endsStatement t = true := Token.EndsLine.endsStatement (hend.imp_right And.left)
    have hends' : endsStatement t' = true := by rw [(hρ t t' ht).endsStatement, hends]
    simp only [List.dropWhile_cons, List.takeWhile_cons, hends, hends', Bool.not_true, Bool.false_eq_true, if_false]
    exact ⟨.stop ht hend, b, b', hb, rfl, rfl⟩
  | @cons t t' r r' ht hmid rest ih =>
    cases hends : endsStatement t with
    | true =>
      have hends' : endsStatement t' = true := by rw [(hρ t t' ht).endsStatement, hends]
      simp only [List.dropWhile_cons, List.takeWhile_cons, hends, hends', Bool.not_true, Bool.false_eq_true, if_false]
      exact ⟨.cons ht hmid rest, b, b', hb, rfl, rfl⟩
    | false =>
      have hends' : endsStatement t' = false := by rw [(hρ t t' ht).endsStatement, hends]
      simp only [List.dropWhile_cons, List.takeWhile_cons, hends, hends', Bool.not_false, if_true, hlast]
      exact ih ht

/-- **A statement without a counterpart** quotes what related tokens span. -/
theorem unsupported_alike {f : String → String} {s s' : Setting} (hs : s.Alike ρ f s') {start start' b b' : Token}
    (hstart : ρ start start') (hb : ρ b b') (keyword : String) :
    ReadAlike ρ v v' (fun st st' => st'.recast id f = st.recast g f) (unsupported s start keyword b.stop)
      (unsupported s' start' keyword b'.stop) := by
  intro ts ts' h
  unfold unsupported
  rw [hs.strict]
  by_cases hstrict : s.strict = true
  · rw [if_pos hstrict, if_pos hstrict]
    exact hstart
  · rw [if_neg hstrict, if_neg hstrict]
    obtain ⟨hrest, c, c', hc, hstop, hstop'⟩ := h.split hρ hb
    dsimp only
    rw [hstop, hstop']
    cases hx : slice? s.source start.pos c.stop with
    | none =>
      -- the quotation lies outside of the source text, which is compared with nothing
      cases slice? s'.source start'.pos c'.stop with
      | none => trivial
      | some x' => exact fun hrejects => hrejects
    | some x =>
      cases hx' : slice? s'.source start'.pos c'.stop with
      | none => exact fun hrejects => hrejects
      | some x' =>
        refine ⟨?_, hrest⟩
        simp only [Stmt.recast, hs.quotes _ _ _ _ _ _ hstart hc hx hx', (hρ start start' hstart).line, id]

theorem skipStream_alike : ReadAlike ρ v v' (fun _ _ => True) skipStream skipStream := by
  refine alike_ifSkip hρ (by decide) ?_ (alike_pure trivial)
  refine (alike_skip hρ (by decide)).bind fun _ _ _ => ?_
  exact (alike_skip hρ (by decide)).bind fun _ _ _ => alike_pure trivial

theorem stream_alike : ReadAs ρ v v' (Option.map (Expr.renumber g)) stream stream := by
  refine alike_ifSkip hρ (by decide) ?_ (alike_pure rfl)
  refine (expressionOf_alike hρ .number).bind fun e => ?_
  exact (alike_skip hρ (by decide)).bind fun _ _ _ => alike_pure rfl

theorem commandWith_alike (c : Command) (least most : Nat) :
    ReadAs ρ v v' (Stmt.recast g id) (commandWith c least most) (commandWith c least most) := by
  refine alike_peek fun t t' ht => ?_
  rw [(hρ t t' ht).endsStatement]
  split
  on_goal 1 => refine ReadAs.bind (φ := List.map (Expr.renumber g)) (alike_pure rfl) fun args => ?_
  on_goal 2 => refine (numbers_alike hρ).bind fun args => ?_
  all_goals
    dsimp only
    rw [List.length_map]
    split
    · exact alike_pure rfl
    · exact alike_peek fun _ _ hu => alike_fail hu

theorem place_alike {t t' : Token} (ht : ρ t t') : ReadAs ρ v v' (Expr.renumber g) (place t) (place t') := by
  unfold place
  rw [(hρ t t' ht).lexeme]
  refine alike_takeIf (fun u u' hu => by rw [(hρ u u' hu).kind]) ?_ (fun o o' ho => ?_) (alike_pure rfl)
  · rintro u (hk | hk) <;> exact not_endsLine (by decide) hk
  · exact ReadAs.bind (fun ts ts' h => indices_alike hρ o o' ho ts ts' h) fun is => alike_pure rfl

theorem target_alike : ReadAs ρ v v' (Expr.renumber g) target target := by
  refine (alike_expect hρ (by decide)).bind fun t t' ht => ?_
  rw [(hρ t t' ht).lexeme]
  split
  · exact alike_fail ht
  · exact place_alike hρ ht

/-- What is assigned to a place. -/
theorem assigned_alike (place : Expr) : ReadAs ρ v v' (Stmt.recast g id)
    (do
      let _ ← expect .equals
      let value ← expressionOf place.type
      pure (.assign place value) : Parser Stmt)
    (do
      let _ ← expect .equals
      let value ← expressionOf (place.renumber g).type
      pure (.assign (place.renumber g) value) : Parser Stmt) := by
  refine (alike_expect hρ (by decide)).bind fun _ _ _ => ?_
  rw [Expr.type_renumber]
  exact (expressionOf_alike hρ _).bind fun e => alike_pure rfl

theorem assignment_alike : ReadAs ρ v v' (Stmt.recast g id) assignment assignment :=
  (target_alike hρ).bind (assigned_alike hρ)

/-! ## Output -/

theorem formattedValues_alike (format : Expr) : ReadAs ρ v v' (List.map (PrintItem.renumber g))
    (formattedValues format) (formattedValues (format.renumber g)) := by
  intro ts ts' h
  induction hn : ts.length using Nat.strongRecOn generalizing ts ts' with
  | ind n ih =>
    unfold Outcome.Alike
    rw [read_formattedValues, read_formattedValues]
    refine Reply.Alike.andThen (expressionOf_alike hρ .number h) fun e e' rest rest' hread he hrest => ?_
    have hlen := (suffix_of_read hread).length_le
    rw [he, (hρ _ _ hrest.headD).kind]
    by_cases hsep : (rest.headD Token.endMark).kind = .semicolon ∨ (rest.headD Token.endMark).kind = .comma
    · have hmid : ¬ (rest.headD Token.endMark).EndsLine := by
        rcases hsep with hk | hk <;> exact not_endsLine (by decide) hk
      have htail := hrest.tail hmid
      have hlt : rest.tail.length < n := by
        obtain ⟨t, r, t', r', rfl, -⟩ := hrest.head
        simp only [List.tail_cons, List.length_cons] at hlen ⊢
        omega
      rw [if_pos hsep, if_pos hsep, (hρ _ _ htail.headD).endsStatement]
      by_cases hend : endsStatement (rest.tail.headD Token.endMark) = true
      · rw [if_pos hend, if_pos hend]
        exact ⟨rfl, htail⟩
      · rw [if_neg hend, if_neg hend]
        refine Reply.Alike.andThen (ih _ hlt htail rfl) fun is is' u u' _ his hu => ?_
        exact ⟨by rw [his]; rfl, hu⟩
    · rw [if_neg hsep, if_neg hsep]
      exact ⟨rfl, hrest⟩

theorem parenthesized_alike : ReadAs ρ v v' (Expr.renumber g) parenthesized parenthesized := by
  refine (alike_expect hρ (by decide)).bind fun _ _ _ => (expressionOf_alike hρ .number).bind fun e => ?_
  exact (alike_expect hρ (by decide)).bind fun _ _ _ => alike_pure rfl

theorem printItem_alike {t t' : Token} (ht : ρ t t') (hmid : ¬ t.EndsLine) :
    ReadAs ρ v v' (List.map (PrintItem.renumber g)) (printItem t) (printItem t') := by
  intro ts ts' h
  have htoken := hρ t t' ht
  unfold printItem
  rw [htoken.kind, htoken.isWord, htoken.isWord, htoken.isWord]
  split
  · exact ⟨rfl, h⟩
  split
  · exact ⟨rfl, h⟩
  split
  · refine ReadAs.bind (parenthesized_alike hρ) (fun e => ?_) h
    exact alike_pure rfl
  split
  · refine ReadAs.bind (parenthesized_alike hρ) (fun e => ?_) h
    exact alike_pure rfl
  split
  · refine ReadAs.bind (expressionOf_alike hρ .string) (fun format => ?_) h
    exact (alike_expect hρ (by decide)).bind fun _ _ _ => formattedValues_alike hρ format
  · have hvalue := atLayer_alike hρ .exclusive (t :: ts) (t' :: ts') (.cons ht hmid h)
    revert hvalue
    rcases atLayer .exclusive (t :: ts) with f | q <;> rcases atLayer .exclusive (t' :: ts') with f' | q' <;>
      intro hvalue
    · exact hvalue
    · exact hvalue
    · exact hvalue
    · exact ⟨congrArg (fun e => [PrintItem.value e]) hvalue.1, hvalue.2⟩

theorem printItems_alike : ReadAs ρ v v' (List.map (PrintItem.renumber g)) printItems printItems := by
  intro ts ts' h
  induction hn : ts.length using Nat.strongRecOn generalizing ts ts' with
  | ind n ih =>
    obtain ⟨t, r, t', r', rfl, rfl, ht, hends⟩ := h.head
    unfold Outcome.Alike
    rw [read_printItems, read_printItems, (hρ t t' ht).endsStatement]
    by_cases hend : endsStatement t = true
    · rw [if_pos hend, if_pos hend]
      exact ⟨rfl, h⟩
    · have hmid : ¬ t.EndsLine := fun hline => hend hline.endsStatement
      have hr := (hends.resolve_left hmid).2
      rw [if_neg hend, if_neg hend]
      refine Reply.Alike.andThen (printItem_alike hρ ht hmid hr) fun items items' rest rest' hread hitems hrest => ?_
      have hlen := (suffix_of_read hread).length_le
      rw [List.length_cons] at hn
      refine Reply.Alike.andThen (ih rest.length (by omega) hrest rfl) fun is is' u u' _ his hu => ?_
      refine ⟨?_, hu⟩
      show items' ++ is' = (items ++ is).map (PrintItem.renumber g)
      rw [hitems, his, List.map_append]

theorem print_alike : ReadAs ρ v v' (Stmt.recast g id) print print :=
  (stream_alike hρ).bind fun _ => (printItems_alike hρ).bind fun _ => alike_pure rfl

theorem write_alike : ReadAs ρ v v' (Stmt.recast g id) write write := by
  refine (stream_alike hρ).bind fun e => ?_
  refine (alike_separated (fun t t' ht => (hρ t t' ht).endsStatement) (fun t t' ht => by rw [(hρ t t' ht).kind])
    (fun t hsep => ?_) fun _ _ h _ => expression_alike hρ h).bind fun es es' hes => ?_
  · rcases Bool.or_eq_true_iff.1 hsep with hk | hk <;> exact not_endsLine (by decide) (beq_iff_eq.1 hk)
  · rw [eq_map_of_forall₂ hes]
    exact alike_pure rfl

theorem graphics_alike (name : String) : ReadAs ρ v v' (Stmt.recast g id) (graphics name) (graphics name) := by
  refine (numbers_alike hρ).bind fun args => ?_
  rcases args with _ | ⟨x, _ | ⟨y, _ | ⟨pen, _ | ⟨more, args⟩⟩⟩⟩
  · exact alike_peek fun _ _ ht => alike_fail ht
  · exact alike_peek fun _ _ ht => alike_fail ht
  · exact alike_pure rfl
  · exact alike_pure rfl
  · exact alike_peek fun _ _ ht => alike_fail ht

/-! ## Loops, jumps, data, functions -/

theorem forLoop_alike : ReadAs ρ v v' (Stmt.recast g id) forLoop forLoop := by
  refine (alike_expect hρ (by decide)).bind fun t t' ht => ?_
  rw [(hρ t t' ht).lexeme]
  split
  · exact alike_fail ht
  · refine (alike_expect hρ (by decide)).bind fun _ _ _ => (expressionOf_alike hρ .number).bind fun start => ?_
    refine (alike_expectWord hρ "TO").bind fun _ _ _ => (expressionOf_alike hρ .number).bind fun stop => ?_
    refine alike_takeIf (fun u u' hu => by rw [(hρ u u' hu).isWord]) (fun u hstep hends => ?_) ?_ (alike_pure rfl)
    · rw [hends.isWord] at hstep
      cases hstep
    · exact fun _ _ _ => (expressionOf_alike hρ .number).bind fun step => alike_pure rfl

theorem next_alike : ReadAs ρ v v' (Stmt.recast g id) next next := by
  refine (alike_separated (R := ρ) (fun t t' ht => by rw [(hρ t t' ht).kind])
    (fun t t' ht => by rw [(hρ t t' ht).kind]) (fun t hsep => not_endsLine (by decide) (beq_iff_eq.1 hsep))
    fun us us' hus hstop => ?_).bind fun ns ns' hns => ?_
  · -- the name is taken, and a name does not end the line
    have hkind : (us.headD Token.endMark).kind = .identifier := by simpa using hstop
    have htail := hus.tail (not_endsLine (by decide) hkind)
    obtain ⟨t, r, t', r', rfl, rfl, ht, -⟩ := hus.head
    exact ⟨ht, htail⟩
  · rw [map_lexeme_of_forall₂ hρ hns]
    exact alike_pure rfl

omit hρ in
theorem map_snd_of_forall₂ {ls ls' : List (Token × String)}
    (h : List.Forall₂ (fun l l' => ρ l.1 l'.1 ∧ l'.2 = l.2) ls ls') : ls'.map Prod.snd = ls.map Prod.snd := by
  induction h with
  | nil => rfl
  | cons hl _ ih => rw [List.map_cons, List.map_cons, ih, hl.2]

omit hρ in
/-- The last label, or the keyword if there is none. -/
theorem getLast_of_forall₂ {ls ls' : List (Token × String)}
    (h : List.Forall₂ (fun l l' => ρ l.1 l'.1 ∧ l'.2 = l.2) ls ls') {kw kw' : Token} (hkw : ρ kw kw') :
    ∃ c c', ρ c c' ∧ ((ls.getLast?.map fun l => l.1.stop).getD kw.stop) = c.stop ∧
      ((ls'.getLast?.map fun l => l.1.stop).getD kw'.stop) = c'.stop := by
  induction h generalizing kw kw' with
  | nil => exact ⟨kw, kw', hkw, rfl, rfl⟩
  | @cons l l' ls ls' hl htail ih =>
    obtain ⟨c, c', hc, hstop, hstop'⟩ := ih hl.1
    refine ⟨c, c', hc, ?_, ?_⟩
    · rw [← hstop]
      cases ls with
      | nil => rfl
      | cons m ms => rw [List.getLast?_cons_cons, List.getLast?_cons]; rfl
    · rw [← hstop']
      cases ls' with
      | nil => rfl
      | cons m ms => rw [List.getLast?_cons_cons, List.getLast?_cons]; rfl

theorem onJump_alike {f : String → String} {s s' : Setting} (hs : s.Alike ρ f s') {start start' : Token}
    (hstart : ρ start start') :
    ReadAlike ρ v v' (fun st st' => st'.recast id f = st.recast g f) (onJump s start) (onJump s' start') := by
  refine (expressionOf_alike hρ .number).bind fun sel => ?_
  refine alike_next (fun kw kw' hkw _ => ?_) fun kw kw' r r' hkw hends => ?_
  · rw [(hρ kw kw' hkw).isWord, (hρ kw kw' hkw).isWord]
    split
    · refine (alike_commaList hρ (labelRef_alike hρ)).bind fun ls ls' hls => alike_pure ?_
      rw [map_snd_of_forall₂ hls, Stmt.recast, Stmt.recast, Expr.renumber_renumber]
      rfl
    split
    · refine (alike_commaList hρ (labelRef_alike hρ)).bind fun ls ls' hls => ?_
      obtain ⟨c, c', hc, hstop, hstop'⟩ := getLast_of_forall₂ hls hkw
      rw [hstop, hstop']
      exact unsupported_alike hρ hs hstart hc "ON GOTO"
    · exact alike_fail hkw
  · rw [(hρ kw kw' hkw).isWord, (hρ kw kw' hkw).isWord, hends.isWord, hends.isWord]
    exact hkw

theorem data_alike : ReadAs ρ v v' (Stmt.recast g id) data data :=
  (alike_expect hρ (by decide)).bind fun t t' ht => alike_pure (by rw [(hρ t t' ht).lexeme]; rfl)

theorem restore_alike : ReadAs ρ v v' (Stmt.recast g id) restore restore := by
  refine alike_peek fun t t' ht => ?_
  rw [(hρ t t' ht).kind]
  split
  · exact (labelRef_alike hρ).bind fun l l' hl => alike_pure (by rw [hl.2]; rfl)
  · exact alike_pure rfl

theorem dimension_alike : ReadAs ρ v v' (Expr.renumber g) dimension dimension := by
  refine (alike_expect hρ (by decide)).bind fun t t' ht => alike_peek fun o o' ho => ?_
  rw [(hρ o o' ho).kind]
  split
  · exact place_alike hρ ht
  · exact alike_fail ho

theorem fnName_alike : ReadAs ρ v v' id fnName fnName := by
  refine alike_next (fun t t' ht _ => ?_) fun t t' r r' ht hends => ?_
  · rw [(hρ t t' ht).isWord, (hρ t t' ht).kind, (hρ t t' ht).lexeme]
    split
    · exact (alike_expect hρ (by decide)).bind fun n n' hn => alike_pure (by rw [(hρ n n' hn).lexeme]; rfl)
    split
    · exact alike_pure rfl
    · exact alike_fail ht
  · have hkind : t.kind ≠ .identifier := fun hk => not_endsLine (by decide) hk hends
    rw [(hρ t t' ht).isWord, (hρ t t' ht).kind, hends.isWord]
    simp only [Bool.false_eq_true, if_false, hkind, false_and]
    exact ht

theorem fnParams_alike : ReadAs ρ v v' id fnParams fnParams := by
  refine alike_ifSkip hρ (by decide) ?_ (alike_pure rfl)
  refine (alike_separated (fun t t' ht => by rw [(hρ t t' ht).kind]) (fun t t' ht => by rw [(hρ t t' ht).kind])
    (fun t hsep => not_endsLine (by decide) (beq_iff_eq.1 hsep))
    fun _ _ h _ => alike_expect hρ (by decide) h).bind fun ns ns' hns => ?_
  exact (alike_expect hρ (by decide)).bind fun _ _ _ => alike_pure (map_lexeme_of_forall₂ hρ hns)

theorem defFn_alike : ReadAs ρ v v' (Stmt.recast g id) defFn defFn := by
  refine (fnName_alike hρ).bind fun name => (fnParams_alike hρ).bind fun params => ?_
  refine (alike_expect hρ (by decide)).bind fun _ _ _ => ?_
  exact (expressionOf_alike hρ _).bind fun e => alike_pure rfl

/-! ## Input, timers, external commands -/

theorem prompt_alike : ReadAs ρ v v' id prompt prompt := by
  refine alike_takeIf (fun t t' ht => by rw [(hρ t t' ht).kind]) (fun _ => not_endsLine (by decide)) ?_ (alike_pure rfl)
  intro p p' hp
  refine alike_next (fun mark mark' hmark _ => ?_) fun mark mark' r r' hmark hends => ?_
  · rw [(hρ mark mark' hmark).kind, (hρ p p' hp).lexeme]
    split
    · exact alike_pure rfl
    split
    · exact alike_pure rfl
    · exact alike_fail hmark
  · -- the line ends behind the prompt, so neither mark follows it
    have hsemi : mark.kind ≠ .semicolon := fun hk => not_endsLine (by decide) hk hends
    have hcomma : mark.kind ≠ .comma := fun hk => not_endsLine (by decide) hk hends
    rw [(hρ mark mark' hmark).kind, if_neg hsemi, if_neg hsemi, if_neg hcomma, if_neg hcomma]
    exact hmark

theorem input_alike : ReadAs ρ v v' (Stmt.recast g id) input input := by
  refine (skipStream_alike hρ).bind fun _ _ _ => (prompt_alike hρ).bind fun p => ?_
  exact (readAs_commaList hρ (target_alike hρ)).bind fun es => alike_pure rfl

theorem timer_alike (name : String) : ReadAs ρ v v' (Stmt.recast g id) (timer name) (timer name) := by
  refine (expressionOf_alike hρ .number).bind fun e => ?_
  refine ReadAs.bind (φ := Option.map (Expr.renumber g)) ?_ fun which => ?_
  · exact alike_ifSkip hρ (by decide) ((expressionOf_alike hρ .number).bind fun e => alike_pure rfl) (alike_pure rfl)
  · refine (alike_expectWord hρ "GOSUB").bind fun _ _ _ => ?_
    exact (labelRef_alike hρ).bind fun l l' hl => alike_pure (by rw [hl.2]; rfl)

theorem rsxArg_alike : ReadAs ρ v v' (RsxArg.renumber g) rsxArg rsxArg :=
  alike_ifSkip hρ (by decide) ((target_alike hρ).bind fun e => alike_pure rfl)
    ((expression_alike hρ).bind fun e => alike_pure rfl)

theorem rsxArgs_alike : ReadAs ρ v v' (List.map (RsxArg.renumber g)) rsxArgs rsxArgs := by
  intro ts ts' h
  induction hn : ts.length using Nat.strongRecOn generalizing ts ts' with
  | ind n ih =>
    obtain ⟨t, r, t', r', rfl, rfl, ht, hends⟩ := h.head
    unfold Outcome.Alike
    rw [read_rsxArgs, read_rsxArgs, (hρ t t' ht).kind]
    by_cases hcomma : t.kind = .comma
    · have hr := (hends.resolve_left (not_endsLine (by decide) hcomma)).2
      rw [if_pos hcomma, if_pos hcomma]
      refine Reply.Alike.andThen (rsxArg_alike hρ hr) fun a a' rest rest' hread ha hrest => ?_
      have hlen := (suffix_of_read hread).length_le
      rw [List.length_cons] at hn
      refine Reply.Alike.andThen (ih rest.length (by omega) hrest rfl) fun as as' u u' _ has hu => ?_
      exact ⟨by rw [ha, has]; rfl, hu⟩
    · rw [if_neg hcomma, if_neg hcomma]
      exact ⟨rfl, h⟩

theorem rsx_alike (name : String) : ReadAs ρ v v' (Stmt.recast g id) (rsx name) (rsx name) :=
  (rsxArgs_alike hρ).bind fun _ => alike_pure rfl

omit hρ in
/-- A statement that quotes nothing stands on its other line whatever is made of quotations. -/
theorem alike_unquoted {f : String → String} {p p' : Parser Stmt} (h : ReadAs ρ v v' (Stmt.recast g id) p p') :
    ReadAlike ρ v v' (fun st st' => st'.recast id f = st.recast g f) p p' :=
  fun _ _ hts => Reply.Alike.mono (h hts) fun st st' hst => by
    rw [hst, Stmt.recast_recast]
    rfl

theorem streamCommand_alike (c : Command) (least most : Nat) : ReadAs ρ v v' (Stmt.recast g id)
    (do skipStream; commandWith c least most : Parser Stmt) (do skipStream; commandWith c least most : Parser Stmt) :=
  (skipStream_alike hρ).bind fun _ _ _ => commandWith_alike hρ c least most

theorem streamOnly_alike (c : Command) : ReadAs ρ v v' (Stmt.recast g id)
    (do skipStream; pure (.command c []) : Parser Stmt) (do skipStream; pure (.command c []) : Parser Stmt) :=
  (skipStream_alike hρ).bind fun _ _ _ => alike_pure rfl

/-- **A statement that starts with a keyword.** -/
theorem keywordStatement_alike {f : String → String} {s s' : Setting} (hs : s.Alike ρ f s') {t t' : Token}
    (ht : ρ t t') : ReadAlike ρ v v' (fun st st' => st'.recast id f = st.recast g f) (keywordStatement s t)
      (keywordStatement s' t') := by
  have hlexeme := (hρ t t' ht).lexeme
  by_cases hunsupported : Token.isUnsupported t.lexeme = true
  · rw [keywordStatement, keywordStatement, hlexeme, if_pos hunsupported, if_pos hunsupported]
    exact unsupported_alike hρ hs ht ht t.lexeme
  · rw [keywordStatement, keywordStatement, hlexeme, if_neg hunsupported, if_neg hunsupported]
    split
    · exact alike_unquoted (assignment_alike hρ)
    · exact alike_unquoted (print_alike hρ)
    · exact alike_unquoted (write_alike hρ)
    · exact alike_unquoted (streamOnly_alike hρ _)
    · exact alike_unquoted (alike_pure rfl)
    · exact alike_unquoted (alike_pure rfl)
    · exact alike_unquoted (alike_pure rfl)
    · exact alike_unquoted (streamOnly_alike hρ _)
    · exact alike_unquoted (streamOnly_alike hρ _)
    · exact alike_unquoted (alike_pure rfl)
    · exact alike_unquoted (alike_pure rfl)
    · exact alike_unquoted (streamCommand_alike hρ _ _ _)
    · exact alike_unquoted (streamCommand_alike hρ _ _ _)
    · exact alike_unquoted (streamCommand_alike hρ _ _ _)
    · exact alike_unquoted (streamCommand_alike hρ _ _ _)
    · exact alike_unquoted (streamCommand_alike hρ _ _ _)
    · exact alike_unquoted (commandWith_alike hρ _ _ _)
    · exact alike_unquoted (commandWith_alike hρ _ _ _)
    · exact alike_unquoted ((alike_expectWord hρ "PEN").bind fun _ _ _ => commandWith_alike hρ _ _ _)
    · exact alike_unquoted (graphics_alike hρ _)
    · exact alike_unquoted (graphics_alike hρ _)
    · exact alike_unquoted (graphics_alike hρ _)
    · exact alike_unquoted (graphics_alike hρ _)
    · exact alike_unquoted (graphics_alike hρ _)
    · exact alike_unquoted (graphics_alike hρ _)
    · exact alike_unquoted (forLoop_alike hρ)
    · exact alike_unquoted (next_alike hρ)
    · exact alike_unquoted ((expressionOf_alike hρ .number).bind fun e => alike_pure rfl)
    · exact alike_unquoted (alike_pure rfl)
    · exact alike_unquoted ((labelRef_alike hρ).bind fun l l' hl => alike_pure (by rw [hl.2]; rfl))
    · exact alike_unquoted (alike_pure rfl)
    · exact onJump_alike hρ hs ht
    · exact alike_unquoted (data_alike hρ)
    · exact alike_unquoted ((readAs_commaList hρ (target_alike hρ)).bind fun es => alike_pure rfl)
    · exact alike_unquoted (restore_alike hρ)
    · exact alike_unquoted ((readAs_commaList hρ (dimension_alike hρ)).bind fun es => alike_pure rfl)
    · refine alike_unquoted ((alike_commaList hρ (alike_expect hρ (by decide))).bind fun ns ns' hns => ?_)
      exact alike_pure (by rw [map_lexeme_of_forall₂ hρ hns]; rfl)
    · exact alike_unquoted (defFn_alike hρ)
    · exact alike_unquoted (input_alike hρ)
    · exact alike_unquoted (timer_alike hρ _)
    · exact alike_unquoted (timer_alike hρ _)
    · exact alike_fail ht

/-- **A statement other than `IF`.** -/
theorem simple_alike {f : String → String} {s s' : Setting} (hs : s.Alike ρ f s') {t t' : Token} (ht : ρ t t') :
    ReadAlike ρ v v' (fun st st' => st'.recast id f = st.recast g f) (simple s t) (simple s' t') := by
  unfold simple
  rw [(hρ t t' ht).kind, (hρ t t' ht).lexeme]
  split
  · exact alike_pure rfl
  · refine alike_unquoted ?_
    split
    · exact alike_fail ht
    · exact (place_alike hρ ht).bind (assigned_alike hρ)
  · exact alike_unquoted (rsx_alike hρ t.lexeme)
  · exact keywordStatement_alike hρ hs ht
  · exact fun _ _ _ => ht

end

end Locomotive.Parse
