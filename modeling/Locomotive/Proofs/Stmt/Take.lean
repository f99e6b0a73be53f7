import Locomotive.Proofs.Expr.Take
import Locomotive.Proofs.Stmt.Proper
import Locomotive.Proofs.Stmt.Reading

/-!
# The tokens of a statement

What a statement other than `IF` takes and what it is read as, for any tokens at all: none of the keywords that stand
for a statement of their own and nothing that ends a statement, except that `DATA` starts with its keyword and that a
statement without a counterpart takes everything from its keyword up to the end of the statement. It is read into one
node, which is proper and written in plain characters if the tokens are those of a source text.

* `Parse.SoundStmt`: what is known of the node.
* `Parse.Skipped`: the tokens of a statement without a counterpart.
* `Parse.Start`, `Parse.simple_start`: how a statement is read, by its first token.
* `Parse.Simple`, `Parse.simple_read`: what it is read as.
-/

namespace Locomotive

theorem IsLabel.plain {s : String} (h : IsLabel s) : Text.Within Js.Plain s := by
  obtain ⟨n, rfl⟩ := h
  exact Js.plain_toString n

namespace Parse

open Parse.Parser

variable {ts : List Token} (K : Token → Prop)

/-- What is known of a name if the tokens are those of a source text. -/
def SoundName (name : String) : Prop := Sourced K → Text.Within Js.Plain name

/-- What is known of something that can be assigned to. -/
structure SoundTarget (e : Expr) : Prop where
  apart : e.Apart
  sound : Sourced K → e.Target ∧ e.Spelled Js.Plain

/-- What is known of an element of a `PRINT` list. -/
structure SoundItem (i : PrintItem) : Prop where
  apart : ∀ e ∈ i.exprs, e.Apart
  sound : Sourced K → i.Proper ∧ Stmt.Spell Js.Plain i.exprs

/-- What is known of an argument of an external command. -/
structure SoundArg (a : RsxArg) : Prop where
  apart : a.expr.Apart
  sound : Sourced K → a.Fits ∧ a.expr.Spelled Js.Plain

/-- **What is known of a statement** that is read into one node, and is neither a comment nor a `DATA` statement. -/
structure SoundStmt (st : Stmt) : Prop where
  isSimple : st.isBranch = false
  noLack : st.gather Stmt.unsupported? = []
  noData : st.dataLists = []
  noRemark : st.gather Stmt.remark? = []
  apart : ∀ e ∈ st.exprs, e.Apart
  sound : Sourced K → st.Proper ∧ st.Spelled Js.Plain

variable {K}

theorem soundName_of_kind {t : Token} (ht : K t) (hk : t.kind = .identifier) : SoundName K t.lexeme := by
  rintro ⟨n, hn⟩
  exact (hn t ht).2.name hk

theorem soundNames_lexemes {us : List Token} (h : ∀ t ∈ us, K t ∧ t.kind = .identifier) :
    ∀ name ∈ us.map Token.lexeme, SoundName K name := by
  intro name hname
  obtain ⟨t, ht, rfl⟩ := List.mem_map.1 hname
  exact soundName_of_kind (h t ht).1 (h t ht).2

/-! ## Parts of statements -/

/-- A name with indices. -/
theorem read_place {t : Token}
    (ho : (ts.headD Token.endMark).kind = .lparen ∨ (ts.headD Token.endMark).kind = .lbracket) :
    (place t ts).read = (indices (ts.headD Token.endMark) ts.tail).read.andThen fun is rest =>
      .ok (.index t.lexeme is, rest) := by
  have hpeek : (peek ts).read = .ok (ts.headD Token.endMark, ts) := rfl
  rw [place, read_bind, hpeek, Reply.andThen_ok, if_pos ho, read_bind, read_next, Reply.andThen_ok]
  exact read_bind (indices (ts.headD Token.endMark)) _ ts.tail

theorem element_takes {t : Token} (hts : ∀ t ∈ ts, K t)
    (ho : (ts.headD Token.endMark).kind = .lparen ∨ (ts.headD Token.endMark).kind = .lbracket) :
    (place t ts).read.Takes (fun e => ∃ is, e = .index t.lexeme is ∧ SoundExprs K is ∧
      ∀ i ∈ is, i.type = .number) ts := by
  rw [read_place ho]
  refine .after (.head (inner_of_open ho)) ?_
  refine (indices_takes ho fun t ht => hts t (List.mem_of_mem_tail ht)).andThen fun is rest _ his => ?_
  exact Reply.takes_ok ⟨is, rfl, his.1⟩ rest

/-- A variable or an element that is no function. -/
theorem place_takes {t : Token} (ht : SoundName K t.lexeme) (hf : isFnName t.lexeme = false) :
    (place t).Takes K (SoundTarget K) := by
  intro ts hts
  by_cases ho : (ts.headD Token.endMark).kind = .lparen ∨ (ts.headD Token.endMark).kind = .lbracket
  · refine (element_takes hts ho).mono ?_
    rintro e rest ⟨⟨is, rfl, his, hty⟩, htaken⟩
    refine ⟨⟨Expr.apart_iff.2 ⟨hf, his.apart⟩, fun hK => ?_⟩, htaken⟩
    obtain ⟨hproper, hspell⟩ := his.sound hK
    refine ⟨⟨trivial, ?_, ?_⟩, Expr.spelled_iff.2 ⟨ht hK, hspell⟩⟩
    · exact Expr.wellFormed_iff.2 ⟨trivial, hty, hf, fun c hc => (hproper c hc).wellFormed⟩
    · exact Expr.numeric_iff.2 ⟨trivial, fun c hc => (hproper c hc).numeric⟩
  · have hvar : (place t ts).read = .ok (.var t.lexeme, ts) := by
      have hpeek : (peek ts).read = .ok (ts.headD Token.endMark, ts) := rfl
      rw [place, read_bind, hpeek, Reply.andThen_ok, if_neg ho]
      rfl
    rw [hvar]
    refine Reply.takes_ok ⟨?_, fun hK => ⟨⟨trivial, Expr.wellFormed_leaf trivial trivial hf rfl, ?_⟩, ?_⟩⟩ ts
    · exact Expr.apart_iff.2 ⟨hf, by simp [Expr.children]⟩
    · exact Expr.numeric_iff.2 ⟨trivial, by simp [Expr.children]⟩
    · exact Expr.spelled_iff.2 ⟨ht hK, by simp [Expr.children]⟩

theorem target_takes : target.Takes K (SoundTarget K) := by
  refine takes_bind (takes_expect (by decide)) fun t ht => ?_
  split
  · exact takes_fail _ id
  · exact place_takes (soundName_of_kind ht.1 ht.2) (Bool.eq_false_iff.2 ‹_›)

/-- A label takes its token. -/
theorem labelRef_uses (hts : ∀ t ∈ ts, K t) : (labelRef ts).read.Within ts fun l rest =>
    ∃ used, ts = used ++ rest ∧ (∀ t ∈ used, Inner t) ∧ l.1 ∈ used ∧ (Sourced K → IsLabel l.2) := by
  rw [labelRef, read_bind]
  refine (expect_within (by decide) ts).andThen ?_
  rintro t rest - ⟨rfl, hk⟩
  cases hl : label? t.lexeme with
  | none => exact ⟨id, List.suffix_cons t rest⟩
  | some l =>
    refine ⟨[t], rfl, List.forall_mem_singleton.2 (inner_of_kind hk (by decide)), List.mem_cons_self, ?_⟩
    rintro ⟨n, hn⟩
    exact label?_isLabel hl ((hn t (hts t List.mem_cons_self)).1.numeral hk)

theorem labelRef_takes : labelRef.Takes K fun l => Sourced K → IsLabel l.2 := by
  intro ts hts
  refine (labelRef_uses hts).mono ?_
  rintro l rest ⟨used, hused, hinner, -, hl⟩
  exact ⟨hl, used, hused, hinner⟩

theorem skipStream_takes : skipStream.Takes K Any := by
  refine takes_bind (takes_skip (by decide)) fun b _ => ?_
  split
  · exact takes_bind (takes_skip (by decide)) fun _ _ => takes_bind (takes_skip (by decide)) fun _ _ =>
      takes_pure trivial
  · exact takes_pure trivial

theorem stream_takes : stream.Takes K fun s => ∀ e ∈ s.toList, e.Apart := by
  refine takes_bind (takes_skip (by decide)) fun b _ => ?_
  split
  · exact takes_bind (expressionOf_takes _) fun e he => takes_bind (takes_skip (by decide)) fun _ _ =>
      takes_pure (List.forall_mem_singleton.2 he.apart)
  · exact takes_pure (by simp)

theorem parenthesized_takes : parenthesized.Takes K (SoundExpr K) :=
  takes_bind (takes_expect (by decide)) fun _ _ => takes_bind (expressionOf_takes _) fun _ he =>
    takes_bind (takes_expect (by decide)) fun _ _ => takes_pure he

theorem dimension_takes : dimension.Takes K fun e => (∀ c ∈ e.children, c.Apart) ∧
    (Sourced K → e.IsArray ∧ e.Spelled Js.Plain) := by
  refine takes_bind (takes_expect (by decide)) fun t ht ts hts => ?_
  rw [read_bind, show (peek ts).read = .ok (ts.headD Token.endMark, ts) from rfl, Reply.andThen_ok]
  split
  · refine (element_takes hts ‹_›).mono ?_
    rintro e rest ⟨⟨is, rfl, his, -⟩, htaken⟩
    have hname := soundName_of_kind ht.1 ht.2
    refine ⟨⟨his.apart, fun hK => ?_⟩, htaken⟩
    obtain ⟨hproper, hspell⟩ := his.sound hK
    exact ⟨hproper, Expr.spelled_iff.2 ⟨hname hK, hspell⟩⟩
  · exact ⟨id, List.suffix_refl ts⟩

theorem fnName_takes : fnName.Takes K (SoundName K) := by
  refine takes_next_bind fun t => ?_
  split
  · refine takes_bind (takes_expect (by decide)) fun n hn => takes_pure ⟨inner_of_isWord ‹_› (by decide), ?_⟩
    exact fun _ hK => Text.within_append.2 ⟨by decide, soundName_of_kind hn.1 hn.2 hK⟩
  split
  · rename_i hid
    exact takes_pure ⟨inner_of_kind hid.1 (by decide), fun ht => soundName_of_kind ht hid.1⟩
  · exact takes_fail _ id

theorem fnParams_takes : fnParams.Takes K fun ps => ∀ p ∈ ps, SoundName K p := by
  refine takes_bind (takes_skip (by decide)) fun b _ => ?_
  split
  · refine takes_bind (takes_separated ?_ ?_) fun us hus => takes_bind (takes_expect (by decide)) fun _ _ =>
      takes_pure (soundNames_lexemes hus)
    · intro t ht
      exact inner_of_kind (by simpa using ht) (by decide)
    · exact fun ts hts _ => takes_expect (by decide) ts hts
  · exact takes_pure (by simp)

theorem prompt_takes : prompt.Takes K Any := by
  refine takes_take (fun t ht => inner_of_kind ht (by decide)) (fun t _ _ => ?_) fun t => takes_pure trivial
  refine takes_next_bind fun mark => ?_
  split
  · exact takes_pure ⟨inner_of_kind ‹_› (by decide), fun _ => trivial⟩
  split
  · exact takes_pure ⟨inner_of_kind ‹_› (by decide), fun _ => trivial⟩
  · exact takes_fail _ id

theorem rsxArg_takes : rsxArg.Takes K (SoundArg K) := by
  refine takes_bind (takes_skip (by decide)) fun b _ => ?_
  split
  · refine takes_bind target_takes fun _ he => takes_pure ⟨he.apart, fun hK => ?_⟩
    obtain ⟨htarget, hspelled⟩ := he.sound hK
    exact ⟨⟨htarget.proper, fun _ => htarget.isPlace⟩, hspelled⟩
  · refine takes_bind expression_takes fun _ he => takes_pure ⟨he.apart, fun hK => ?_⟩
    exact ⟨⟨(he.sound hK).1, fun h => by cases h⟩, (he.sound hK).2⟩

theorem rsxArgs_takes : Takes K rsxArgs fun as => ∀ a ∈ as, SoundArg K a := by
  intro ts hts
  induction hn : ts.length using Nat.strongRecOn generalizing ts with
  | ind n ih =>
    cases ts with
    | nil =>
      rw [rsxArgs]
      exact Reply.takes_ok (by simp) []
    | cons t r =>
      rw [List.length_cons] at hn
      rw [read_rsxArgs]
      split
      · rename_i hcomma
        have hr : ∀ t ∈ r, K t := fun t ht => hts t (List.mem_cons_of_mem _ ht)
        refine .after (.cons (inner_of_kind hcomma (by decide)) (.refl r)) ?_
        refine (rsxArg_takes r hr).andThen fun a rest hread ha => ?_
        have hlen := (suffix_of_read hread).length_le
        refine (ih rest.length (by omega) rest (ha.2.forall_mem hr) rfl).andThen fun as last _ has => ?_
        exact Reply.takes_ok (List.forall_mem_cons.2 ⟨ha.1, has.1⟩) last
      · exact Reply.takes_ok (by simp) (t :: r)

/-- An element with one expression, or none. -/
theorem soundItem_sign {i : PrintItem} (hp : i.Proper) (hi : i.exprs = []) : SoundItem K i :=
  ⟨by simp [hi], fun _ => ⟨hp, by simp [Stmt.Spell, hi]⟩⟩

theorem formattedValues_takes {format : Expr} (hf : SoundExpr K format) :
    Takes K (formattedValues format) fun items => ∀ i ∈ items, SoundItem K i := by
  intro ts hts
  induction hn : ts.length using Nat.strongRecOn generalizing ts with
  | ind n ih =>
    rw [read_formattedValues]
    refine (expressionOf_takes .number ts hts).andThen fun e rest hread he => ?_
    have hlen := (suffix_of_read hread).length_le
    have hitem : SoundItem K (.formatted format e) := by
      refine ⟨List.forall_mem_cons.2 ⟨hf.apart, List.forall_mem_singleton.2 he.1.apart⟩, fun hK => ?_⟩
      obtain ⟨⟨hfp, hfs⟩, hep, hes⟩ := And.intro (hf.sound hK) (he.1.sound hK)
      exact ⟨⟨hfp, hep⟩, List.forall_mem_cons.2 ⟨hfs, List.forall_mem_singleton.2 hes⟩⟩
    split
    · rename_i hsep
      have hinner : Inner (rest.headD Token.endMark) := by
        rcases hsep with hsep | hsep <;> exact inner_of_kind hsep (by decide)
      have hlt := length_tail_lt_of_inner hinner
      have htail := fun t ht => he.2.forall_mem hts t (List.mem_of_mem_tail ht)
      refine .after (.head hinner) ?_
      split
      · refine Reply.takes_ok (List.forall_mem_cons.2 ⟨hitem, List.forall_mem_singleton.2 ?_⟩) rest.tail
        exact soundItem_sign trivial rfl
      · refine (ih rest.tail.length (by omega) rest.tail htail rfl).andThen fun is last _ his => ?_
        exact Reply.takes_ok (List.forall_mem_cons.2 ⟨hitem, his.1⟩) last
    · exact Reply.takes_ok (List.forall_mem_singleton.2 hitem) rest

/-- One element of a `PRINT` list, with its first token. -/
theorem printItem_takes {t : Token} (hts : ∀ u ∈ t :: ts, K u) :
    (printItem t ts).read.Takes (fun items => ∀ i ∈ items, SoundItem K i) (t :: ts) := by
  have hr : ∀ u ∈ ts, K u := fun u hu => hts u (List.mem_cons_of_mem _ hu)
  have hword : ∀ {w : String} {p : Parser (List PrintItem)}, t.isWord w = true → w ∉ outerWords →
      (p.Takes K fun items => ∀ i ∈ items, SoundItem K i) →
      (p ts).read.Takes (fun items => ∀ i ∈ items, SoundItem K i) (t :: ts) := by
    intro w p ht hw hp
    exact .after (.cons (inner_of_isWord ht hw) (.refl ts)) (hp ts hr)
  -- an element with one expression
  have hone : ∀ {i : PrintItem} {e : Expr}, i.exprs = [e] → (e.Proper → i.Proper) → SoundExpr K e →
      ∀ j ∈ [i], SoundItem K j := by
    intro i e hi hp he
    refine List.forall_mem_singleton.2 ⟨?_, fun hK => ⟨hp (he.sound hK).1, ?_⟩⟩ <;> rw [hi]
    · exact List.forall_mem_singleton.2 he.apart
    · exact List.forall_mem_singleton.2 (he.sound hK).2
  have hsign : ∀ {i : PrintItem}, i.Proper → i.exprs = [] → Inner t →
      Reply.Takes (.ok ([i], ts)) (fun items => ∀ i ∈ items, SoundItem K i) (t :: ts) := fun hp hi hinner =>
    ⟨List.forall_mem_singleton.2 (soundItem_sign hp hi), .cons hinner (.refl ts)⟩
  unfold printItem
  split
  · exact hsign trivial rfl (inner_of_kind ‹_› (by decide))
  split
  · exact hsign trivial rfl (inner_of_kind ‹_› (by decide))
  split
  · exact hword ‹_› (by decide) (takes_bind parenthesized_takes fun _ he => takes_pure (hone rfl id he))
  split
  · exact hword ‹_› (by decide) (takes_bind parenthesized_takes fun _ he => takes_pure (hone rfl id he))
  split
  · exact hword ‹_› (by decide) (takes_bind (expressionOf_takes _) fun format hf =>
      takes_bind (takes_expect (by decide)) fun _ _ => formattedValues_takes hf)
  · have hvalue := layer_takes .exclusive hts
    rcases hq : atLayer .exclusive (t :: ts) with f | q <;> rw [hq] at hvalue
    · exact hvalue
    · exact ⟨hone rfl id hvalue.1, hvalue.2⟩

theorem printItems_takes : Takes K printItems fun items => ∀ i ∈ items, SoundItem K i := by
  intro ts hts
  induction hn : ts.length using Nat.strongRecOn generalizing ts with
  | ind n ih =>
    cases ts with
    | nil =>
      rw [printItems]
      exact Reply.takes_ok (by simp) []
    | cons t r =>
      rw [List.length_cons] at hn
      rw [read_printItems]
      split
      · exact Reply.takes_ok (by simp) (t :: r)
      · refine (printItem_takes hts).andThen fun items rest hread hitems => ?_
        have hlen := (suffix_of_read hread).length_le
        refine (ih rest.length (by omega) rest (hitems.2.forall_mem hts) rfl).andThen fun is last _ his => ?_
        exact Reply.takes_ok (List.forall_mem_append.2 ⟨hitems.1, his.1⟩) last

/-! ## Statements -/

theorem soundExprs_nil : SoundExprs K [] := soundExprs_of_forall (by simp)

theorem command_sound {c : Command} (hc : c ∈ Command.all) {args : List Expr} (h : SoundExprs K args) :
    SoundStmt K (.command c args) :=
  ⟨rfl, rfl, rfl, rfl, h.apart, fun hK => ⟨⟨hc, (h.sound hK).1⟩, (h.sound hK).2⟩⟩

theorem commandWith_takes {c : Command} (hc : c ∈ Command.all) (least most : Nat) :
    (commandWith c least most).Takes K (SoundStmt K) := by
  have hcount : ∀ args : List Expr, SoundExprs K args → (if least ≤ args.length ∧ args.length ≤ most then
      pure (.command c args)
      else do
        let t ← peek
        fail t (.commandCount c.name least most args.length) : Parser Stmt).Takes K (SoundStmt K) := by
    intro args hargs
    split
    · exact takes_pure (command_sound hc hargs)
    · exact takes_bind takes_peek fun _ _ => takes_fail _ id
  refine takes_bind takes_peek fun t _ => ?_
  split
  · exact takes_bind (takes_pure soundExprs_nil) hcount
  · exact takes_bind numbers_takes hcount

/-- The value of an assignment to a place. -/
theorem assigned_takes {place : Expr} (hp : SoundTarget K place) : (do
      let _ ← expect .equals
      let value ← expressionOf place.type
      pure (.assign place value) : Parser Stmt).Takes K (SoundStmt K) := by
  refine takes_bind (takes_expect (by decide)) fun _ _ => takes_bind (expressionOf_takes _) fun value hv =>
    takes_pure ⟨rfl, rfl, rfl, rfl, ?_, fun hK => ⟨⟨(hp.sound hK).1, (hv.sound hK).1⟩, ?_⟩⟩
  · exact List.forall_mem_cons.2 ⟨hp.apart, List.forall_mem_singleton.2 hv.apart⟩
  · exact List.forall_mem_cons.2 ⟨(hp.sound hK).2, List.forall_mem_singleton.2 (hv.sound hK).2⟩

theorem print_takes : print.Takes K (SoundStmt K) := by
  refine takes_bind stream_takes fun _ hs => takes_bind printItems_takes fun items hitems =>
    takes_pure ⟨rfl, rfl, rfl, rfl, List.forall_mem_append.2 ⟨hs, fun e he => ?_⟩,
      fun hK => ⟨fun i hi => ((hitems i hi).sound hK).1, fun e he => ?_⟩⟩
  all_goals obtain ⟨i, hi, he⟩ := List.mem_flatMap.1 he
  · exact (hitems i hi).apart e he
  · exact ((hitems i hi).sound hK).2 e he

theorem write_takes : write.Takes K (SoundStmt K) := by
  refine takes_bind stream_takes fun _ hs => takes_bind (takes_separated ?_ ?_) fun args hargs =>
    takes_pure ⟨rfl, rfl, rfl, rfl, List.forall_mem_append.2 ⟨hs, fun e he => (hargs e he).apart⟩,
      (soundExprs_of_forall hargs).sound⟩
  · intro t ht
    simp only [Bool.or_eq_true, beq_iff_eq] at ht
    rcases ht with ht | ht <;> exact inner_of_kind ht (by decide)
  · exact fun ts hts _ => expression_takes ts hts

theorem graphics_takes {name : String} (h : name ∈ Stmt.graphicsWords) : (graphics name).Takes K (SoundStmt K) := by
  have hplain : ∀ w ∈ Stmt.graphicsWords, Text.Within Js.Plain w := by decide
  refine takes_bind numbers_takes fun args hargs => ?_
  split
  · refine takes_pure ⟨rfl, rfl, rfl, rfl, hargs.apart, fun hK => ?_⟩
    obtain ⟨hproper, hspell⟩ := hargs.sound hK
    exact ⟨⟨h, hproper _ (by simp), hproper _ (by simp), by simp⟩, hplain name h, hspell⟩
  · refine takes_pure ⟨rfl, rfl, rfl, rfl, hargs.apart, fun hK => ?_⟩
    obtain ⟨hproper, hspell⟩ := hargs.sound hK
    exact ⟨⟨h, hproper _ (by simp), hproper _ (by simp), by simpa using hproper _ (by simp)⟩, hplain name h, hspell⟩
  · exact takes_bind takes_peek fun _ _ => takes_fail _ id

theorem forLoop_takes : forLoop.Takes K (SoundStmt K) := by
  refine takes_bind (takes_expect (by decide)) fun t ht => ?_
  have hname := soundName_of_kind ht.1 ht.2
  have hloop : ∀ {start stop : Expr} {step : Option Expr}, SoundExpr K start → SoundExpr K stop →
      (∀ e ∈ step, SoundExpr K e) → SoundStmt K (.forLoop t.lexeme start stop step) := by
    intro start stop step hstart hstop hstep
    have hall := soundExprs_of_forall (List.forall_mem_cons.2 ⟨hstart, List.forall_mem_cons.2 ⟨hstop, fun e he =>
      hstep e (Option.mem_toList.1 he)⟩⟩)
    refine ⟨rfl, rfl, rfl, rfl, hall.apart, fun hK => ⟨?_, hname hK, (hall.sound hK).2⟩⟩
    exact ⟨(hstart.sound hK).1, (hstop.sound hK).1, fun e he => ((hstep e he).sound hK).1⟩
  split
  · exact takes_fail _ id
  · refine takes_bind (takes_expect (by decide)) fun _ _ => takes_bind (expressionOf_takes _) fun _ hstart =>
      takes_bind (takes_expectWord (by decide)) fun _ _ => takes_bind (expressionOf_takes _) fun _ hstop =>
      takes_take (fun _ h => inner_of_isWord h (by decide)) (fun _ _ _ => ?_) fun _ =>
        takes_pure (hloop hstart hstop (by simp))
    exact takes_bind (expressionOf_takes _) fun _ hstep => takes_pure (hloop hstart hstop (by simpa using hstep))

theorem next_takes : next.Takes K (SoundStmt K) := by
  refine takes_bind (takes_separated (V := fun t => K t ∧ t.kind = .identifier) ?_ ?_) fun us hus =>
    takes_pure ⟨rfl, rfl, rfl, rfl, List.forall_mem_nil _, fun hK => ⟨trivial, fun v hv => soundNames_lexemes hus v hv hK⟩⟩
  · intro t ht
    exact inner_of_kind (by simpa using ht) (by decide)
  · intro ts hts hstop
    have hkind : (ts.headD Token.endMark).kind = .identifier := by simpa using hstop
    have hinner : Inner (ts.headD Token.endMark) := inner_of_kind hkind (by decide)
    rw [read_next]
    exact ⟨⟨hts _ (head_mem_of_inner hinner), hkind⟩, .head hinner⟩

theorem restore_takes : restore.Takes K (SoundStmt K) := by
  refine takes_bind takes_peek fun t _ => ?_
  split
  · refine takes_bind labelRef_takes fun l hl => takes_pure ⟨rfl, rfl, rfl, rfl, List.forall_mem_nil _, fun hK => ?_⟩
    refine ⟨fun x hx => ?_, fun x hx => ?_⟩ <;> rw [← Option.some.inj hx]
    · exact hl hK
    · exact (hl hK).plain
  · exact takes_pure ⟨rfl, rfl, rfl, rfl, List.forall_mem_nil _, fun _ =>
      ⟨by simp [Stmt.Proper], by simp [Stmt.Spelled]⟩⟩

theorem defFn_takes : defFn.Takes K (SoundStmt K) := by
  refine takes_bind fnName_takes fun _ hname => takes_bind fnParams_takes fun _ hparams =>
    takes_bind (takes_expect (by decide)) fun _ _ => takes_bind (expressionOf_takes _) fun _ hbody =>
    takes_pure ⟨rfl, rfl, rfl, rfl, List.forall_mem_singleton.2 hbody.apart, fun hK => ?_⟩
  exact ⟨(hbody.sound hK).1, hname hK, fun p hp => hparams p hp hK, (hbody.sound hK).2⟩

theorem targets_sound {es : List Expr} (h : ∀ e ∈ es, SoundTarget K e) (hK : Sourced K) :
    (∀ e ∈ es, e.Target) ∧ Stmt.Spell Js.Plain es :=
  ⟨fun e he => ((h e he).sound hK).1, fun e he => ((h e he).sound hK).2⟩

theorem input_takes : input.Takes K (SoundStmt K) :=
  takes_bind skipStream_takes fun _ _ => takes_bind prompt_takes fun _ _ =>
    takes_bind (takes_commaList target_takes) fun _ h =>
      takes_pure ⟨rfl, rfl, rfl, rfl, fun e he => (h.2 e he).apart, fun hK =>
        ⟨⟨h.1, (targets_sound h.2 hK).1⟩, (targets_sound h.2 hK).2⟩⟩

theorem timer_takes {name : String} (h : name ∈ Stmt.timerWords) : (timer name).Takes K (SoundStmt K) := by
  have hplain : ∀ w ∈ Stmt.timerWords, Text.Within Js.Plain w := by decide
  refine takes_bind (expressionOf_takes _) fun interval hi => takes_bind (W := fun w => ∀ e ∈ w, SoundExpr K e) ?_
    fun which hw => takes_bind (takes_expectWord (by decide)) fun _ _ => takes_bind labelRef_takes fun l hl =>
      takes_pure ?_
  · refine takes_bind (takes_skip (by decide)) fun b _ => ?_
    split
    · exact takes_bind (expressionOf_takes _) fun _ he => takes_pure (by simpa using he)
    · exact takes_pure (by simp)
  · have hall := soundExprs_of_forall (List.forall_mem_cons.2 ⟨hi, fun e he => hw e (Option.mem_toList.1 he)⟩)
    refine ⟨rfl, rfl, rfl, rfl, hall.apart, fun hK => ⟨⟨h, ?_⟩, hplain name h, (hall.sound hK).2, (hl hK).plain⟩⟩
    exact ⟨(hi.sound hK).1, fun e he => ((hw e he).sound hK).1, hl hK⟩

theorem rsx_takes (name : String) : (rsx name).Takes K (SoundStmt K) := by
  refine takes_bind rsxArgs_takes fun args hargs =>
    takes_pure ⟨rfl, rfl, rfl, rfl, fun e he => ?_, fun hK => ⟨fun a ha => ((hargs a ha).sound hK).1, fun e he => ?_⟩⟩
  all_goals obtain ⟨a, ha, rfl⟩ := List.mem_map.1 he
  · exact (hargs a ha).apart
  · exact ((hargs a ha).sound hK).2

/-- The value of an assignment to the name `t`. -/
theorem named_takes {t : Token} (ht : K t) (hk : t.kind = .identifier) :
    (do
      let place ← if isFnName t.lexeme then Parser.fail t (.assignsFunction t.lexeme) else place t
      let _ ← expect .equals
      let value ← expressionOf place.type
      pure (.assign place value) : Parser Stmt).Takes K (SoundStmt K) := by
  dsimp only
  split
  · exact takes_bind (takes_fail (V := SoundTarget K) _ id) fun _ h => assigned_takes h
  · exact takes_bind (place_takes (soundName_of_kind ht hk) (Bool.eq_false_iff.2 ‹_›)) fun _ h => assigned_takes h

/-- **What a keyword starts** other than `ON`, `DATA` and the statements without a counterpart. -/
theorem keywordStatement_takes (s : Setting) {t : Token} (ht : Token.isUnsupported t.lexeme = false)
    (hdata : t.lexeme ≠ "DATA") (hon : t.lexeme ≠ "ON") : (keywordStatement s t).Takes K (SoundStmt K) := by
  have hcommand : ∀ c ∈ Command.all, SoundStmt K (.command c []) := fun c hc => command_sound hc soundExprs_nil
  have hstream : ∀ c ∈ Command.all, (do skipStream; pure (.command c []) : Parser Stmt).Takes K (SoundStmt K) :=
    fun c hc => takes_bind skipStream_takes fun _ _ => takes_pure (hcommand c hc)
  have hargs : ∀ c ∈ Command.all, ∀ least most,
      (do skipStream; commandWith c least most : Parser Stmt).Takes K (SoundStmt K) := fun c hc _ _ =>
    takes_bind skipStream_takes fun _ _ => commandWith_takes hc _ _
  rw [keywordStatement, ht, if_neg Bool.false_ne_true]
  split
  · exact takes_bind target_takes fun _ h => assigned_takes h
  · exact print_takes
  · exact write_takes
  · exact hstream _ (by decide)
  · exact takes_pure (hcommand _ (by decide))
  · exact takes_pure (hcommand _ (by decide))
  · exact takes_pure (hcommand _ (by decide))
  · exact hstream _ (by decide)
  · exact hstream _ (by decide)
  · exact takes_pure (hcommand _ (by decide))
  · exact takes_pure (hcommand _ (by decide))
  · exact hargs _ (by decide) _ _
  · exact hargs _ (by decide) _ _
  · exact hargs _ (by decide) _ _
  · exact hargs _ (by decide) _ _
  · exact hargs _ (by decide) _ _
  · exact commandWith_takes (by decide) _ _
  · exact commandWith_takes (by decide) _ _
  · exact takes_bind (takes_expectWord (by decide)) fun _ _ => commandWith_takes (by decide) _ _
  · exact graphics_takes (by decide)
  · exact graphics_takes (by decide)
  · exact graphics_takes (by decide)
  · exact graphics_takes (by decide)
  · exact graphics_takes (by decide)
  · exact graphics_takes (by decide)
  · exact forLoop_takes
  · exact next_takes
  · exact takes_bind (expressionOf_takes _) fun _ he =>
      takes_pure ⟨rfl, rfl, rfl, rfl, List.forall_mem_singleton.2 he.apart, he.sound⟩
  · exact takes_pure ⟨rfl, rfl, rfl, rfl, List.forall_mem_nil _, fun _ => ⟨trivial, trivial⟩⟩
  · exact takes_bind labelRef_takes fun _ hl =>
      takes_pure ⟨rfl, rfl, rfl, rfl, List.forall_mem_nil _, fun hK => ⟨hl hK, (hl hK).plain⟩⟩
  · exact takes_pure ⟨rfl, rfl, rfl, rfl, List.forall_mem_nil _, fun _ => ⟨trivial, trivial⟩⟩
  · exact absurd ‹_› hon
  · exact absurd ‹_› hdata
  · exact takes_bind (takes_commaList target_takes) fun _ h =>
      takes_pure ⟨rfl, rfl, rfl, rfl, fun e he => (h.2 e he).apart, fun hK =>
        ⟨⟨h.1, (targets_sound h.2 hK).1⟩, (targets_sound h.2 hK).2⟩⟩
  · exact restore_takes
  · refine takes_bind (takes_commaList dimension_takes) fun _ h => takes_pure ⟨rfl, rfl, rfl, rfl, fun e he => ?_,
      fun hK => ⟨⟨h.1, fun e he => ((h.2 e he).2 hK).1⟩, fun e he => ((h.2 e he).2 hK).2⟩⟩
    obtain ⟨a, ha, he⟩ := List.mem_flatMap.1 he
    exact (h.2 a ha).1 e he
  · refine takes_bind (takes_commaList (takes_expect (by decide))) fun _ h => ?_
    have hnames := soundNames_lexemes h.2
    refine takes_pure ⟨rfl, rfl, rfl, rfl, List.forall_mem_nil _, fun hK => ?_⟩
    exact ⟨trivial, fun a ha => hnames a ha hK⟩
  · exact defFn_takes
  · exact input_takes
  · exact timer_takes (by decide)
  · exact timer_takes (by decide)
  · exact takes_fail _ id

/-- Only `ON` and the statements without a counterpart are read with regard to the setting. -/
theorem keywordStatement_eq (s s' : Setting) {t : Token} (ht : Token.isUnsupported t.lexeme = false)
    (hon : t.lexeme ≠ "ON") : keywordStatement s t = keywordStatement s' t := by
  rw [keywordStatement, keywordStatement, ht, if_neg Bool.false_ne_true, if_neg Bool.false_ne_true]
  split <;> first | rfl | exact absurd ‹_› hon

theorem data_takes : data.Takes K fun st => st.Proper ∧ ∃ items, st = .data items :=
  takes_bind (takes_expect (by decide)) fun _ _ => takes_pure ⟨DataItem.split_plain _, _, rfl⟩

theorem of_data {st : Stmt} {rest : List Token} (h : (data ts).read = .ok (st, rest)) :
    (st.Proper ∧ ∃ items, st = .data items) ∧ Taken ts rest := (data_takes (K := Any) ts fun _ _ => trivial).of_ok h

/-! ## Statements without a counterpart -/

/-- What is taken does not end the statement. -/
theorem Taken.dropWhile {rest : List Token} (h : Taken ts rest) :
    ts.dropWhile (fun t => !endsStatement t) = rest.dropWhile fun t => !endsStatement t := by
  obtain ⟨used, rfl, hused⟩ := h
  refine List.dropWhile_append_of_pos fun t ht => ?_
  simp [(hused t ht).ends]

/-- **The tokens of a statement without a counterpart**: its keyword, maybe after others, and everything up to
the end of the statement. -/
def Skipped (ts rest : List Token) : Prop :=
  ∃ kw mid, Taken ts (kw :: mid) ∧ kw.kind = .keyword ∧ Token.isUnsupported kw.lexeme = true ∧
    rest = mid.dropWhile fun t => !endsStatement t

/-- Such a statement is read into a node of its own. -/
theorem of_unsupported {s : Setting} {start : Token} {keyword : String} {stop : Int} {st : Stmt} {rest : List Token}
    (h : (unsupported s start keyword stop ts).read = .ok (st, rest)) :
    (∃ text, st = .unsupported keyword text start.line) ∧ rest = ts.dropWhile fun t => !endsStatement t := by
  unfold unsupported at h
  split at h
  · cases h
  · dsimp only at h
    split at h
    · cases h
    · cases h
      exact ⟨⟨_, rfl⟩, rfl⟩

/-! ## Statements by their first token -/

/-- **How a statement other than `IF` is read**, by its first token and in any setting. -/
inductive Start (K : Token → Prop) (t : Token) (ts : List Token) : Prop
  /-- It has no counterpart, and starts with the tokens of one line up to `last`. -/
  | unsupported (keyword : String) (used rest : List Token) (last : Token) (hts : t :: ts = used ++ rest)
      (hline : ∀ u ∈ used, u.kind ≠ .eol) (hlast : last ∈ used)
      (hskip : Skipped (t :: ts) (rest.dropWhile fun u => !endsStatement u))
      (h : ∀ s, (simple s t ts).read = (unsupported s t keyword last.stop rest).read)
  | data (hword : t.isWord "DATA" = true) (h : ∀ s, simple s t ts = data ts)
  | comment (hkind : t.kind = .comment) (h : ∀ s, (simple s t ts).read = .ok (.comment t.lexeme, ts))
  /-- It is read from tokens that stay inside a statement. -/
  | plain (o : Reply Stmt) (h : ∀ s, (simple s t ts).read = o)
      (ho : o.Takes (SoundStmt K) (t :: ts))

theorem Inner.kind_ne_eol {t : Token} (h : Inner t) : t.kind ≠ .eol := by
  intro hkind
  have hends := h.ends
  simp [endsStatement, hkind] at hends

theorem read_onJump (s : Setting) (start : Token) (ts : List Token) : (onJump s start ts).read =
    (expressionOf .number ts).read.andThen fun selector mid =>
      if (mid.headD Token.endMark).isWord "GOSUB" then
        (commaList labelRef mid.tail).read.andThen fun labels rest =>
          .ok (.onGosub selector (labels.map Prod.snd), rest)
      else if (mid.headD Token.endMark).isWord "GOTO" then
        (commaList labelRef mid.tail).read.andThen fun labels rest =>
          (unsupported s start "ON GOTO"
            ((labels.getLast?.map (·.1.stop)).getD (mid.headD Token.endMark).stop) rest).read
      else .error (.rejected (mid.headD Token.endMark)
        (.expected "GOSUB or GOTO" (mid.headD Token.endMark)) mid.tail) := by
  rw [onJump, read_bind]
  refine congrArg _ (funext fun selector => funext fun mid => ?_)
  rw [read_bind, read_next, Reply.andThen_ok]
  split
  · exact read_bind (commaList labelRef) _ mid.tail
  split
  · exact read_bind (commaList labelRef) _ mid.tail
  · rfl

/-- **An `ON` with labels** is a list of subroutines, or a jump, which has no counterpart. -/
theorem onJump_start {t : Token} (ht : Inner t) (hts : ∀ u ∈ ts, K u) (hstmt : ∀ s, simple s t ts = onJump s t ts) :
    Start K t ts := by
  have hread := fun s => (congrArg Outcome.read (hstmt s)).trans (read_onJump s t ts)
  have hselector := expressionOf_takes (K := K) .number ts hts
  rcases he : (expressionOf .number ts).read with f | ⟨selector, mid⟩ <;> rw [he] at hselector hread
  · exact .plain _ hread ⟨hselector.1, hselector.2.trans (List.suffix_cons t ts)⟩
  obtain ⟨hsel, front, rfl, hfront⟩ := hselector
  simp only [Reply.andThen_ok] at hread
  have hmid : ∀ u ∈ mid.tail, K u := fun u hu => hts u (List.mem_append_right front (List.mem_of_mem_tail hu))
  have hbehind : mid.tail <:+ t :: (front ++ mid) := (List.tail_suffix mid).trans (List.suffix_append (t :: front) mid)
  have hlabels := uses_commaList (U := fun (l : Token × String) u => l.1 ∈ u ∧ (Sourced K → IsLabel l.2))
    (fun hsub h => ⟨hsub h.1, h.2⟩) (fun ts hts => labelRef_uses hts) mid.tail hmid
  by_cases hgosub : (mid.headD Token.endMark).isWord "GOSUB" = true
  · simp only [if_pos hgosub] at hread
    refine .plain _ hread ((hlabels.after hbehind).andThen ?_)
    rintro labels rest - ⟨used, hused, hinner, -, hall⟩
    refine ⟨⟨rfl, rfl, rfl, rfl, List.forall_mem_singleton.2 hsel.apart, fun hK =>
      ⟨⟨(hsel.sound hK).1, fun l hl => ?_⟩, (hsel.sound hK).2, fun l hl => ?_⟩⟩, ?_⟩
    · obtain ⟨p, hp, rfl⟩ := List.mem_map.1 hl
      exact (hall p hp).2 hK
    · obtain ⟨p, hp, rfl⟩ := List.mem_map.1 hl
      exact ((hall p hp).2 hK).plain
    · refine .cons ht (.trans ⟨front, rfl, hfront⟩ (.trans (.head (inner_of_isWord hgosub (by decide))) ?_))
      exact ⟨used, hused, hinner⟩
  by_cases hgoto : (mid.headD Token.endMark).isWord "GOTO" = true
  · simp only [if_neg hgosub, if_pos hgoto] at hread
    cases mid with
    | nil => cases hgoto
    | cons kw r =>
      rw [List.headD_cons] at hgoto
      obtain ⟨hkind, hlexeme⟩ := eq_of_isWord hgoto
      rcases hl : (commaList labelRef r).read with f | ⟨labels, rest⟩ <;>
        simp only [List.tail_cons, List.headD_cons, hl] at hlabels hread
      · exact .plain _ hread ⟨hlabels.1, hlabels.2.trans hbehind⟩
      obtain ⟨used, rfl, hinner, -, hall⟩ := hlabels
      -- the last label is one of the tokens that the labels take
      obtain ⟨last, hlast, hstop⟩ : ∃ last ∈ kw :: used,
          (labels.getLast?.map (·.1.stop)).getD kw.stop = last.stop := by
        cases hg : labels.getLast? with
        | none => exact ⟨kw, List.mem_cons_self, rfl⟩
        | some l => exact ⟨l.1, List.mem_cons_of_mem _ (hall l (List.mem_of_getLast? hg)).1, rfl⟩
      refine .unsupported "ON GOTO" (t :: front ++ kw :: used) rest last (by simp) ?_ (by simp [hlast]) ?_ fun s => ?_
      · have hjump : ∀ u ∈ kw :: used, u.kind ≠ .eol :=
          List.forall_mem_cons.2 ⟨by rw [hkind]; decide, fun u hu => (hinner u hu).kind_ne_eol⟩
        have hline := List.forall_mem_append.2 ⟨fun u hu => (hfront u hu).kind_ne_eol, hjump⟩
        exact List.forall_mem_cons.2 ⟨ht.kind_ne_eol, hline⟩
      · refine ⟨kw, used ++ rest, .cons ht ⟨front, rfl, hfront⟩, hkind, by rw [hlexeme]; decide, ?_⟩
        exact (Taken.dropWhile ⟨used, rfl, hinner⟩).symm
      · rw [hread, Reply.andThen_ok, hstop]
  · simp only [if_neg hgosub, if_neg hgoto] at hread
    exact .plain _ hread ⟨id, hbehind⟩

theorem simple_start {t : Token} (hts : ∀ u ∈ t :: ts, K u) : Start K t ts := by
  obtain ⟨ht, hts⟩ := List.forall_mem_cons.1 hts
  have hplain : ∀ {p : Parser Stmt}, (∀ s, simple s t ts = p ts) → Inner t → p.Takes K (SoundStmt K) →
      Start K t ts := by
    intro p hp hinner htakes
    exact .plain (p ts).read (fun s => by rw [hp]) (Reply.Takes.after (.cons hinner (.refl ts)) (htakes ts hts))
  cases hkind : t.kind with
  | comment => exact .comment hkind fun s => by rw [simple, hkind]; rfl
  | identifier => exact hplain (fun s => by rw [simple, hkind]) (inner_of_kind hkind (by decide)) (named_takes ht hkind)
  | rsx => exact hplain (fun s => by rw [simple, hkind]) (inner_of_kind hkind (by decide)) (rsx_takes t.lexeme)
  | keyword =>
    have hstmt : ∀ s, simple s t ts = keywordStatement s t ts := fun s => by rw [simple, hkind]
    by_cases hunsupported : Token.isUnsupported t.lexeme = true
    · refine .unsupported t.lexeme [t] ts t rfl (by simp [hkind]) List.mem_cons_self ?_ fun s => ?_
      · exact ⟨t, ts, .refl _, hkind, hunsupported, rfl⟩
      · rw [hstmt, keywordStatement, if_pos hunsupported]
    by_cases hdata : t.lexeme = "DATA"
    · refine .data (by simp [Token.isWord, hkind, hdata]) fun s => ?_
      rw [hstmt, keywordStatement, if_neg hunsupported, hdata]
      rfl
    by_cases houter : t.lexeme ∈ outerWords
    · -- the other words of an `IF` start no statement
      have hnot : t.lexeme ∉ Token.unsupportedWords := by simpa [Token.isUnsupported] using hunsupported
      have hword : t.lexeme = "IF" ∨ t.lexeme = "THEN" ∨ t.lexeme = "ELSE" := by
        simpa [outerWords, hdata, hnot] using houter
      refine .plain (.error (.rejected t (.unexpectedKeyword t.lexeme) ts)) (fun s => ?_) ⟨id, List.suffix_cons t ts⟩
      rw [hstmt, keywordStatement, if_neg hunsupported]
      rcases hword with hw | hw | hw <;> rw [hw] <;> rfl
    have hinner : Inner t := inner_of_keyword hkind houter
    by_cases hon : t.lexeme = "ON"
    · refine onJump_start hinner hts fun s => ?_
      rw [hstmt, keywordStatement, if_neg hunsupported, hon]
      rfl
    · have hsupported := Bool.eq_false_iff.2 hunsupported
      have htakes := keywordStatement_takes (K := K) ⟨false, []⟩ hsupported hdata hon
      refine hplain (fun s => ?_) hinner htakes
      rw [hstmt, keywordStatement_eq s ⟨false, []⟩ hsupported hon]
  | _ =>
    refine .plain (.error (.rejected t (.expected "statement" t) (t :: ts))) (fun s => ?_) ⟨id, List.suffix_refl _⟩
    rw [simple, hkind]
    rfl

theorem start_of_simple (t : Token) (ts : List Token) : Start Any t ts := simple_start fun _ _ => trivial

/-- **What a statement other than `IF` is read as**, and the tokens that it takes, with its first one. -/
inductive Simple (K : Token → Prop) (s : Setting) (t : Token) (ts : List Token) (st : Stmt) (left : List Token) : Prop
  | unsupported (keyword text : String) (used rest : List Token) (last : Token) (hts : t :: ts = used ++ rest)
      (hline : ∀ u ∈ used, u.kind ≠ .eol) (hlast : last ∈ used) (hskip : Skipped (t :: ts) left)
      (hvalue : st = .unsupported keyword text t.line) (h : (unsupported s t keyword last.stop rest).read = .ok (st, left))
  | data (items : List DataItem) (hword : t.isWord "DATA" = true) (hvalue : st = .data items) (hproper : st.Proper)
      (h : (data ts).read = .ok (st, left))
  | comment (hkind : t.kind = .comment) (hvalue : st = .comment t.lexeme) (hrest : left = ts)
  | plain (hsound : SoundStmt K st) (htaken : Taken (t :: ts) left)

theorem simple_read {s : Setting} {t : Token} (hts : ∀ u ∈ t :: ts, K u) {q : Parsed Stmt ts}
    (h : simple s t ts = .ok q) : Simple K s t ts q.value q.rest := by
  have hread := read_eq_ok h
  cases simple_start hts with
  | unsupported keyword used rest last hts hline hlast hskip hstmt =>
    rw [hstmt] at hread
    obtain ⟨⟨text, hvalue⟩, hrest⟩ := of_unsupported hread
    exact .unsupported keyword text used rest last hts hline hlast (hrest ▸ hskip) hvalue hread
  | data hword hstmt =>
    rw [hstmt] at hread
    obtain ⟨hproper, items, hvalue⟩ := (of_data hread).1
    exact .data items hword hvalue hproper hread
  | comment hkind hstmt =>
    rw [hstmt] at hread
    obtain ⟨hvalue, hrest⟩ := Prod.mk.inj (Except.ok.inj hread)
    exact .comment hkind hvalue.symm hrest.symm
  | plain o hstmt ho =>
    obtain ⟨hsound, htaken⟩ := ho.of_ok ((hstmt s).symm.trans hread)
    exact .plain hsound htaken

theorem of_simple {s : Setting} {t : Token} {q : Parsed Stmt ts} (h : simple s t ts = .ok q) :
    Simple Any s t ts q.value q.rest := simple_read (fun _ _ => trivial) h

/-- Only an `IF` has branches. -/
theorem simple_isBranch {s : Setting} {t : Token} {q : Parsed Stmt ts} (h : simple s t ts = .ok q) :
    q.value.isBranch = false := by
  cases of_simple h with
  | unsupported _ _ _ _ _ _ _ _ _ hvalue | data _ _ hvalue | comment _ hvalue => rw [hvalue]; rfl
  | plain hsound => exact hsound.isSimple

end Parse

end Locomotive
