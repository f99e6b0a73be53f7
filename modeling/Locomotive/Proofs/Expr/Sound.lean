import Locomotive.Proofs.Expr.Operator
import Locomotive.Proofs.Expr.Reading
import Locomotive.Proofs.Parse.Take

/-!
# What is read as an expression is one

Every function that reads a part of an expression takes tokens that spell what it gives,
and what it gives is well formed. All these tokens stay inside a statement. The proofs follow the recursion of the parser.

* `Phrase`: what is known of an expression and its tokens.
* `atLayer_reads`: an expression of a layer.
* `expression_sound`: a whole expression.
-/

namespace Locomotive.Parse

open Parse.Parser

/-- Expressions with the tokens that spell each of them, all well formed. -/
def Formed (ps : List (List Token × Expr)) : Prop := ∀ p ∈ ps, Spells p.1 p.2 ∧ p.2.WellFormed

theorem Formed.spells {ps : List (List Token × Expr)} (h : Formed ps) : ∀ p ∈ ps, Spells p.1 p.2 :=
  fun p hp => (h p hp).1

theorem Formed.wellFormed {ps : List (List Token × Expr)} (h : Formed ps) :
    ∀ e ∈ ps.map Prod.snd, e.WellFormed := by
  simp only [List.mem_map]
  rintro e ⟨p, hp, rfl⟩
  exact (h p hp).2

/-- Expressions without parts. -/
theorem Expr.wellFormed_leaf {e : Expr} (hl : e.InOrder) (ht : e.TypesFit) (hn : e.NamesFit)
    (hc : e.children = []) : e.WellFormed :=
  Expr.wellFormed_iff.2 ⟨hl, ht, hn, by simp [hc]⟩

/-- An operation is well formed if its operands are and fit it. -/
theorem wellFormed_binary {op : BinaryOp} {l r : Expr} (hl : l.WellFormed) (hr : r.WellFormed)
    (hlr : l.layer.rank ≤ op.layer.rank) (hrr : r.layer.rank < op.layer.rank)
    (ht : op.Takes l.type r.type) : (Expr.binary op l r).WellFormed := by
  refine Expr.wellFormed_iff.2 ⟨⟨hlr, hrr⟩, ht, trivial, fun c hc => ?_⟩
  rcases List.mem_cons.1 hc with rfl | hc
  · exact hl
  · obtain rfl := List.mem_singleton.1 hc
    exact hr

theorem wellFormed_unary {op : UnaryOp} {e : Expr} (he : e.WellFormed) (hr : e.layer.rank ≤ op.layer.rank)
    (ht : op.Takes e.type) : (Expr.unary op e).WellFormed := by
  refine Expr.wellFormed_iff.2 ⟨hr, ht, trivial, fun c hc => ?_⟩
  obtain rfl := List.mem_singleton.1 hc
  exact he

theorem wellFormed_paren {e : Expr} (he : e.WellFormed) : (Expr.paren e).WellFormed := by
  refine Expr.wellFormed_iff.2 ⟨trivial, trivial, trivial, fun c hc => ?_⟩
  obtain rfl := List.mem_singleton.1 hc
  exact he

/-- The operands of a layer with operators between them are of a tighter one. -/
theorem Layer.tighter_lt {op : BinaryOp} {t : Token} (h : t.Writes op) :
    op.layer.tighter.rank < op.layer.rank := by
  cases op with
  | other text => exact absurd h id
  | _ => decide

/-- What a token opens and another closes. -/
theorem head_of_expect {kind : Token.Kind} (hk : kind ≠ .eof) {ts : List Token}
    (h : (ts.headD Token.endMark).kind = kind) : ∃ c rest, ts = c :: rest ∧ c.kind = kind := by
  cases ts with
  | nil => exact absurd h.symm hk
  | cons c rest => exact ⟨c, rest, rfl, h⟩

theorem Layer.inner_of_before {l : Layer} {t : Token} {op : UnaryOp} (h : l.before? t = some op) : Inner t := by
  unfold before? at h
  split at h
  · split at h
    · exact inner_of_isWord ‹_› (by decide)
    · cases h
  · split at h
    · rename_i hsign
      rcases hsign with hsign | hsign <;> exact inner_of_kind hsign (by decide)
    · cases h
  · cases h

theorem Layer.inner_of_between {l : Layer} {t : Token} {op : BinaryOp} (h : l.between? t = some op) : Inner t := by
  have hword : ∀ {w : String} {o : BinaryOp}, w ∉ outerWords → (if t.isWord w then some o else none) = some op →
      Inner t := by
    intro w o hw h
    split at h
    · exact inner_of_isWord ‹_› hw
    · cases h
  cases l with
  | exclusive | disjunction | conjunction | modulo => exact hword (by decide) h
  | comparison | product =>
    simp only [between?] at h
    split at h <;> first | exact inner_of_kind ‹_› (by decide) | cases h
  | sum =>
    simp only [between?] at h
    split at h
    · rename_i hsign
      rcases hsign with hsign | hsign <;> exact inner_of_kind hsign (by decide)
    · cases h
  | intDiv | power =>
    simp only [between?] at h
    split at h
    · exact inner_of_kind ‹_› (by decide)
    · cases h
  | primary | sign | negation => cases h

theorem Layer.not_ofOrder_before {l : Layer} {t : Token} {e : Expr} {c : Complaint}
    (h : l.complaintBefore? t e = some c) : ¬ c.OfOrder := by
  unfold Layer.complaintBefore? at h
  split at h
  · cases h
  · split at h <;> cases h <;> exact id

theorem Layer.not_ofOrder_between {l : Layer} {op : BinaryOp} {t : Token} {e e' : Expr} {c : Complaint}
    (h : l.complaintBetween? op t e e' = some c) : ¬ c.OfOrder := by
  unfold Layer.complaintBetween? at h
  split at h <;> split at h <;> cases h <;> exact id

theorem builtinCall_not_ofOrder {f : Builtin} {t : Token} {args : List Expr} {c : Complaint}
    (h : builtinCall f t args = .error c) : ¬ c.OfOrder := by
  unfold builtinCall at h
  split at h
  · cases h
    exact id
  · split at h <;> cases h
    exact id

/-- The brackets and parentheses around lists. -/
theorem inner_of_open {t : Token} (h : t.kind = .lparen ∨ t.kind = .lbracket) : Inner t := by
  rcases h with h | h <;> exact inner_of_kind h (by decide)

theorem isFnName_fn (name : String) : isFnName ("fn" ++ name) = true ∨ "fn" ++ name = "fn" := by
  by_cases h : name = ""
  · exact .inr (by rw [h]; rfl)
  · refine .inl (Bool.and_eq_true_iff.2 ⟨?_, ?_⟩)
    · have hpos : 0 < name.length := Nat.pos_of_ne_zero (by simpa using h)
      rw [decide_eq_true_eq, String.length_append]
      exact Nat.lt_add_of_pos_right hpos
    · rw [Text.startsWith, String.toList_append]
      exact List.isPrefixOf_iff_prefix.2 (List.prefix_append _ _)

/-! ## Tokens and the expressions read from them -/

/-- **An expression of a layer and the tokens that it is read from.** They stay inside a statement, and no name is that of
a variable and of a function. If signs carry their own texts, the tokens spell the expression and it is well formed. -/
structure Phrase (l : Layer) (used : List Token) (e : Expr) : Prop where
  inner : ∀ t ∈ used, Inner t
  apart : e.Apart
  formed : (∀ t ∈ used, t.Signed) → Spells used e ∧ e.WellFormed ∧ e.layer.rank ≤ l.rank

namespace Phrase

variable {l : Layer} {used used' : List Token} {t : Token} {e e' : Expr}

theorem mono {l' : Layer} (h : Phrase l used e) (hl : l.rank ≤ l'.rank) : Phrase l' used e :=
  ⟨h.inner, h.apart, fun hs => ⟨(h.formed hs).1, (h.formed hs).2.1, Nat.le_trans (h.formed hs).2.2 hl⟩⟩

/-- An operator before its operand. -/
theorem unary {op : UnaryOp} (h : Phrase l used e) (hb : l.before? t = some op)
    (hnone : l.complaintBefore? t e = none) : Phrase l (t :: used) (.unary op e) where
  inner := List.forall_mem_cons.2 ⟨Layer.inner_of_before hb, h.inner⟩
  apart := Expr.apart_iff.2 ⟨trivial, List.forall_mem_singleton.2 h.apart⟩
  formed hs := by
    obtain ⟨hst, hs⟩ := List.forall_mem_cons.1 hs
    obtain ⟨hw, rfl⟩ := (Layer.before?_eq_some_iff hst).1 hb
    obtain ⟨hsp, hwf, hrank⟩ := h.formed hs
    have ht := (Layer.complaintBefore?_eq_none_iff hw e).1 hnone
    exact ⟨.unary hw hsp, wellFormed_unary hwf hrank ht, Nat.le_refl _⟩

/-- An operator between two operands. -/
theorem binary {op : BinaryOp} (h : Phrase l used e) (h' : Phrase l.tighter used' e') (hb : l.between? t = some op)
    (hnone : l.complaintBetween? op t e e' = none) : Phrase l (used ++ t :: used') (.binary op e e') where
  inner := List.forall_mem_append.2 ⟨h.inner, List.forall_mem_cons.2 ⟨Layer.inner_of_between hb, h'.inner⟩⟩
  apart := Expr.apart_iff.2 ⟨trivial, List.forall_mem_cons.2 ⟨h.apart, List.forall_mem_singleton.2 h'.apart⟩⟩
  formed hs := by
    obtain ⟨hs, hs'⟩ := List.forall_mem_append.1 hs
    obtain ⟨hst, hs'⟩ := List.forall_mem_cons.1 hs'
    obtain ⟨hw, rfl⟩ := (Layer.between?_eq_some_iff hst).1 hb
    obtain ⟨hsp, hwf, hrank⟩ := h.formed hs
    obtain ⟨hsp', hwf', hrank'⟩ := h'.formed hs'
    have ht := (Layer.complaintBetween?_eq_none_iff hw e e').1 hnone
    have hlt := Layer.tighter_lt hw
    exact ⟨.binary hw hsp hsp', wellFormed_binary hwf hwf' hrank (by omega) ht, Nat.le_refl _⟩

/-- A primary: what is said of its parts holds of it. -/
theorem primary (hinner : ∀ t ∈ used, Inner t) (hl : e.layer = .primary) (ho : e.InOrder) (hn : e.NameApart)
    (hc : ∀ c ∈ e.children, c.Apart)
    (hf : (∀ t ∈ used, t.Signed) → Spells used e ∧ e.TypesFit ∧ ∀ c ∈ e.children, c.WellFormed) :
    Phrase .primary used e where
  inner := hinner
  apart := Expr.apart_iff.2 ⟨hn, hc⟩
  formed hs := by
    obtain ⟨hsp, ht, hwf⟩ := hf hs
    exact ⟨hsp, Expr.wellFormed_iff.2 ⟨ho, ht, hn.namesFit, hwf⟩, Nat.le_of_eq (by rw [hl])⟩

/-- A primary of one token. -/
theorem leaf (ht : Inner t) (hsp : Spells [t] e) (hl : e.layer = .primary) (ho : e.InOrder) (hn : e.NameApart)
    (hty : e.TypesFit) (hc : e.children = []) : Phrase .primary [t] e :=
  primary (List.forall_mem_singleton.2 ht) hl ho hn (by simp [hc]) fun _ => ⟨hsp, hty, by simp [hc]⟩

end Phrase

/-- The same for expressions with the tokens of each. -/
def Phrases (ps : List (List Token × Expr)) : Prop := ∀ p ∈ ps, Phrase .exclusive p.1 p.2

theorem Phrases.apart {ps : List (List Token × Expr)} (h : Phrases ps) : ∀ e ∈ ps.map Prod.snd, e.Apart := by
  intro e he
  obtain ⟨p, hp, rfl⟩ := List.mem_map.1 he
  exact (h p hp).apart

theorem Phrases.formed {ps : List (List Token × Expr)} {v : List Token} (h : Phrases ps)
    (hv : ∀ w ∈ ps.map Prod.fst, ∀ t ∈ w, t ∈ v) (hs : ∀ t ∈ v, t.Signed) : Formed ps := by
  intro p hp
  have hformed := (h p hp).formed fun t ht => hs t (hv p.1 (List.mem_map_of_mem hp) t ht)
  exact ⟨hformed.1, hformed.2.1⟩

/-! ## The parser -/

mutual

/-- **An expression of a layer.** -/
theorem atLayer_reads (l : Layer) (ts : List Token) :
    (atLayer l ts).read.Within ts fun e rest => ∃ used, ts = used ++ rest ∧ Phrase l used e := by
  match ts with
  | [] =>
    rw [read_atLayer_nil]
    exact ⟨id, List.suffix_refl _⟩
  | t :: r =>
    cases hb : l.before? t with
    | some op =>
      rw [read_atLayer_before hb]
      refine ((atLayer_reads l r).after (List.suffix_cons t r)).andThen ?_
      rintro x rest - ⟨used, rfl, hx⟩
      split
      · exact ⟨Layer.not_ofOrder_before ‹_›, List.suffix_append (t :: used) rest⟩
      · exact ⟨t :: used, rfl, hx.unary hb ‹_›⟩
    | none =>
      by_cases hl : l = .primary
      · rw [hl, read_atLayer_primary]
        refine (primary_reads t r).mono ?_
        rintro e rest ⟨used, rfl, he⟩
        exact ⟨t :: used, rfl, he⟩
      · rw [read_atLayer_tighter hb hl]
        refine (atLayer_reads l.tighter (t :: r)).andThen ?_
        rintro x rest - ⟨used, hts, hx⟩
        have hoperators := operators_reads l rest (hx.mono (Nat.le_of_lt (Layer.rank_tighter_lt hl)))
        refine (hoperators.after ⟨used, hts.symm⟩).mono ?_
        rintro e rest' ⟨more, rfl, he⟩
        exact ⟨used ++ more, by rw [hts, List.append_assoc], he⟩
termination_by ts.length * 16 + l.rank + 2
decreasing_by
  · simp only [List.length_cons]
    omega
  · have := Layer.rank_tighter_lt hl
    omega
  · have := congrArg List.length hts
    simp only [List.length_append] at this
    omega
  · simp only [List.length_cons]
    omega

/-- **The operators of a layer** and their right operands go on with an expression that has been read. -/
theorem operators_reads (l : Layer) {left : Expr} (ts : List Token) {read : List Token} (h : Phrase l read left) :
    (operators l left ts).read.Within ts fun e rest => ∃ used, ts = used ++ rest ∧ Phrase l (read ++ used) e := by
  cases hb : l.between? (ts.headD Token.endMark) with
  | none =>
    rw [read_operators_stop left hb]
    exact ⟨[], rfl, by rwa [List.append_nil]⟩
  | some op =>
    match ts with
    | [] => cases l <;> cases hb
    | t :: r =>
      rw [List.headD_cons] at hb
      rw [read_operators_step left hb]
      refine ((atLayer_reads l.tighter r).after (List.suffix_cons t r)).andThen ?_
      rintro right rest - ⟨used, hr, hright⟩
      have hrest : rest <:+ t :: r := ⟨t :: used, by rw [hr, List.cons_append]⟩
      split
      · exact ⟨Layer.not_ofOrder_between ‹_›, hrest⟩
      · refine ((operators_reads l rest (h.binary hright hb ‹_›)).after hrest).mono ?_
        rintro e rest' ⟨more, rfl, he⟩
        exact ⟨t :: (used ++ more), by rw [hr]; simp, by simpa using he⟩
termination_by ts.length * 16 + 1
decreasing_by
  · have := Layer.rank_le l.tighter
    simp only [List.length_cons]
    omega
  · have := congrArg List.length hr
    simp only [List.length_append] at this
    simp only [List.length_cons]
    omega

/-- **A primary** that starts with a given token. -/
theorem primary_reads (t : Token) (ts : List Token) :
    (primary t ts).read.Within (t :: ts) fun e rest => ∃ used, ts = used ++ rest ∧ Phrase .primary (t :: used) e := by
  have hts := List.suffix_cons t ts
  rw [read_primary]
  cases hradix : radix? t.kind with
  | some radix =>
    have hkind : InnerKind t.kind := by
      intro hmem
      simp only [List.mem_cons, List.not_mem_nil, or_false] at hmem
      rcases hmem with h | h | h | h | h <;> rw [h] at hradix <;> cases hradix
    exact ⟨[], rfl, .leaf (inner_of_kind rfl hkind) (.number hradix) rfl trivial trivial trivial rfl⟩
  | none =>
    dsimp only
    split
    · rename_i hk
      exact ⟨[], rfl, .leaf (inner_of_kind hk (by decide)) (.string hk) rfl trivial trivial trivial rfl⟩
    · rename_i hk
      have ht : Inner t := inner_of_kind hk (by decide)
      split
      · -- a name that starts with `FN` is called, with arguments or without
        rename_i hf
        refine ((arguments_reads ts).after hts).andThen ?_
        rintro args rest - ⟨ps, v, rfl, rfl, hinner, hargs, hps⟩
        refine ⟨v, rfl, .primary (List.forall_mem_cons.2 ⟨ht, hinner⟩) rfl trivial (.inl hf) hps.apart fun hs => ?_⟩
        have hformed := hps.formed hargs.mem (List.forall_mem_cons.1 hs).2
        exact ⟨.fnName hk hf hargs hformed.spells, trivial, hformed.wellFormed⟩
      · rename_i hf
        have hname := Bool.eq_false_iff.2 hf
        split
        · -- an element of an array
          rename_i ho
          match ts with
          | [] => exact absurd ho (by decide)
          | o :: r =>
            refine ((indices_reads o r ho).after (List.suffix_append [t, o] r)).andThen ?_
            rintro is rest - ⟨ps, v, c, rfl, rfl, hinner, hb, hc, hps, hty⟩
            refine ⟨o :: (v ++ [c]), by simp, .primary ?_ rfl trivial hname hps.apart fun hs => ?_⟩
            · exact List.forall_mem_cons.2 ⟨ht, List.forall_mem_cons.2 ⟨inner_of_open ho, hinner⟩⟩
            · have hformed := hps.formed hc.mem fun u hu => hs u (by simp [hu])
              exact ⟨.index hk hb hc hformed.spells, hty, hformed.wellFormed⟩
        · exact ⟨[], rfl, .leaf ht (.var hk) rfl trivial hname trivial rfl⟩
    · rename_i hk
      refine ((atLayer_reads .exclusive ts).after hts).andThen ?_
      rintro e rest - ⟨used, rfl, he⟩
      refine ((expect_within (by decide) rest).after (List.suffix_append (t :: used) rest)).andThen ?_
      rintro c rest - ⟨rfl, hc⟩
      refine ⟨used ++ [c], by simp, .primary ?_ rfl trivial trivial (List.forall_mem_singleton.2 he.apart) fun hs => ?_⟩
      · have hclose := List.forall_mem_singleton.2 (inner_of_kind hc (by decide))
        exact List.forall_mem_cons.2 ⟨inner_of_kind hk (by decide), List.forall_mem_append.2 ⟨he.inner, hclose⟩⟩
      · have hformed := he.formed fun u hu => hs u (by simp [hu])
        exact ⟨.paren hk hc hformed.1, trivial, List.forall_mem_singleton.2 hformed.2.1⟩
    · rename_i hk
      split
      · -- the name of the function is a token of its own
        rename_i hfn
        refine ((expect_within (by decide) ts).after hts).andThen ?_
        rintro n r hread ⟨hnext, hn⟩
        refine ((arguments_reads r).after ⟨[t, n], by rw [hnext]; rfl⟩).andThen ?_
        rintro args rest - ⟨ps, v, rfl, rfl, hinner, hargs, hps⟩
        refine ⟨n :: v, hnext, .primary ?_ rfl trivial (isFnName_fn n.lexeme) hps.apart fun hs => ?_⟩
        · have ht := inner_of_keyword hk (by rw [hfn]; decide)
          exact List.forall_mem_cons.2 ⟨ht, List.forall_mem_cons.2 ⟨inner_of_kind hn (by decide), hinner⟩⟩
        · have hformed := hps.formed hargs.mem fun u hu => hs u (by simp [hu])
          exact ⟨.fnWord (by simp [Token.isWord, hk, hfn]) hn hargs hformed.spells, trivial, hformed.wellFormed⟩
      · split
        · rename_i f hf
          have hbuiltin : ∀ f ∈ Builtin.all, f.name ∉ outerWords := by decide
          obtain ⟨hmem, hname⟩ := Builtin.find?_eq_some_iff.1 hf
          have ht := inner_of_keyword hk (by rw [hname]; exact hbuiltin f hmem)
          refine ((arguments_reads ts).after hts).andThen ?_
          rintro args rest - ⟨ps, v, rfl, rfl, hinner, hargs, hps⟩
          split
          · exact ⟨builtinCall_not_ofOrder ‹_›, List.suffix_append (t :: v) rest⟩
          · rename_i e he
            obtain ⟨rfl, htakes⟩ := (builtinCall_eq_ok_iff hmem).1 he
            refine ⟨v, rfl, .primary (List.forall_mem_cons.2 ⟨ht, hinner⟩) rfl trivial trivial hps.apart fun hs => ?_⟩
            have hformed := hps.formed hargs.mem (List.forall_mem_cons.1 hs).2
            exact ⟨.call hk hmem hname hargs hformed.spells, htakes, hformed.wellFormed⟩
        · exact ⟨id, List.suffix_refl _⟩
    · exact ⟨id, List.suffix_refl _⟩
termination_by ts.length * 16 + 17
decreasing_by
  · simp only [List.length_cons]
    omega
  · omega
  · have := Layer.rank_le .exclusive
    omega
  · omega
  · have := congrArg List.length hnext
    simp only [List.length_cons] at this
    omega

/-- **The indices** of an array element and the bracket after them. -/
theorem indices_reads (o : Token) (ts : List Token) (ho : o.kind = .lparen ∨ o.kind = .lbracket) :
    (indices o ts).read.Within ts fun is rest => ∃ ps v c, is = ps.map Prod.snd ∧ ts = v ++ c :: rest ∧
      (∀ t ∈ v ++ [c], Inner t) ∧ Brackets o c ∧ Commas (ps.map Prod.fst) v ∧ Phrases ps ∧
      ∀ i ∈ is, i.type = .number := by
  rw [read_indices]
  refine (expressions_reads (some .number) ts).andThen ?_
  rintro is rest - ⟨ps, v, rfl, rfl, hinner, hv, hps, hty⟩
  have hkind : InnerKind (if o.kind = .lbracket then .rbracket else .rparen) := by split <;> decide
  refine ((expect_within hkind rest).after (List.suffix_append v rest)).andThen ?_
  rintro c rest - ⟨rfl, hc⟩
  refine ⟨ps, v, c, rfl, rfl, List.forall_mem_append.2 ⟨hinner, ?_⟩, ?_, hv, hps, hty .number rfl⟩
  · exact List.forall_mem_singleton.2 (inner_of_kind hc hkind)
  · rcases ho with ho | ho <;> rw [ho] at hc
    · exact .inl ⟨ho, hc⟩
    · exact .inr ⟨ho, hc⟩
termination_by ts.length * 16 + 16

/-- **The arguments** of a call. -/
theorem arguments_reads (ts : List Token) :
    (arguments ts).read.Within ts fun args rest => ∃ ps v, args = ps.map Prod.snd ∧ ts = v ++ rest ∧
      (∀ t ∈ v, Inner t) ∧ Arguments (ps.map Prod.fst) v ∧ Phrases ps := by
  rw [read_arguments]
  split
  · rename_i ho
    match ts with
    | [] => exact absurd ho (by decide)
    | o :: r =>
      have hopen : Inner o := inner_of_kind ho (by decide)
      split
      · rename_i hc
        obtain ⟨c, rest, rfl, hc⟩ := head_of_expect (by decide) hc
        have hclose := List.forall_mem_singleton.2 (inner_of_kind hc (by decide))
        exact ⟨[], [o, c], rfl, rfl, List.forall_mem_cons.2 ⟨hopen, hclose⟩, .empty ho hc, by simp [Phrases]⟩
      · refine ((expressions_reads none r).after (List.suffix_cons o r)).andThen ?_
        rintro args rest - ⟨ps, v, rfl, rfl, hinner, hv, hps, -⟩
        refine ((expect_within (by decide) rest).after (List.suffix_append (o :: v) rest)).andThen ?_
        rintro c rest - ⟨rfl, hc⟩
        have hclose := List.forall_mem_singleton.2 (inner_of_kind hc (by decide))
        refine ⟨ps, o :: (v ++ [c]), rfl, by simp, ?_, .listed ho hc hv, hps⟩
        exact List.forall_mem_cons.2 ⟨hopen, List.forall_mem_append.2 ⟨hinner, hclose⟩⟩
  · exact ⟨[], [], rfl, rfl, by simp, .omitted, by simp [Phrases]⟩
termination_by ts.length * 16 + 1
decreasing_by
  simp only [List.length_cons]
  omega

/-- **A list of expressions** with commas between them. -/
theorem expressions_reads (want : Option Ty) (ts : List Token) :
    (expressions want ts).read.Within ts fun es rest => ∃ ps v, es = ps.map Prod.snd ∧ ts = v ++ rest ∧
      (∀ t ∈ v, Inner t) ∧ Commas (ps.map Prod.fst) v ∧ Phrases ps ∧ ∀ w, want = some w → ∀ e ∈ es, e.type = w := by
  rw [read_expressions]
  refine (atLayer_reads .exclusive ts).andThen ?_
  rintro e rest - ⟨used, hts, he⟩
  have hrest : rest <:+ ts := ⟨used, hts.symm⟩
  split
  · exact ⟨id, hrest⟩
  · rename_i hfit
    have htype : ∀ w, want = some w → e.type = w := by
      rintro w rfl
      by_cases hw : w = e.type
      · exact hw.symm
      · simp [Option.filter, hw] at hfit
    split
    · rename_i hc
      obtain ⟨c, r, hcr, hc⟩ := head_of_expect (by decide) hc
      rw [hcr] at hts hrest ⊢
      refine ((expressions_reads want r).after ((List.suffix_cons c r).trans hrest)).andThen ?_
      rintro es rest - ⟨ps, v, rfl, rfl, hinner, hv, hps, hty⟩
      have hcomma := List.forall_mem_cons.2 ⟨inner_of_kind hc (by decide), hinner⟩
      refine ⟨(used, e) :: ps, used ++ c :: v, rfl, by simpa using hts, ?_, .more hc hv, ?_, ?_⟩
      · exact List.forall_mem_append.2 ⟨he.inner, hcomma⟩
      · exact List.forall_mem_cons.2 ⟨he, hps⟩
      · exact fun w hw => List.forall_mem_cons.2 ⟨htype w hw, hty w hw⟩
    · refine ⟨[(used, e)], used, rfl, hts, he.inner, .one, List.forall_mem_singleton.2 he, fun w hw => ?_⟩
      exact List.forall_mem_singleton.2 (htype w hw)
termination_by ts.length * 16 + 15
decreasing_by
  · have := Layer.rank_le .exclusive
    omega
  · have := congrArg List.length hts
    have := congrArg List.length hcr
    simp only [List.length_append, List.length_cons] at *
    omega

end

/-- What an expression parser reads. -/
theorem read_expression (ts : List Token) : (expression ts).read = (atLayer .exclusive ts).read := by
  rw [expression, read_widen]

/-- **Soundness.** What is read as an expression is well formed and spelled by the tokens that
are taken. -/
theorem expression_sound (ts : List Token) (hs : ∀ t ∈ ts, t.Signed) : (expression ts).read.Within ts fun e rest =>
    ∃ used, ts = used ++ rest ∧ Spells used e ∧ e.WellFormed := by
  rw [read_expression]
  refine (atLayer_reads .exclusive ts).mono ?_
  rintro e rest ⟨used, rfl, he⟩
  obtain ⟨hsp, hwf, -⟩ := he.formed fun t ht => hs t (List.mem_append_left rest ht)
  exact ⟨used, rfl, hsp, hwf⟩

end Locomotive.Parse
