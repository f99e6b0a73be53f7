import Locomotive.Proofs.Expr.Sound

/-!
# Every expression is read

Whatever tokens spell a well-formed expression, they are read as that expression if the
token after them cannot continue it. A layer that reads an expression of its own or of a
tighter layer comes to where it looks for operators with the expression as left operand
(`ReadByOwn.atLayer`): the induction is on the spelling, and below it the layer comes down to
that of the expression.

* `expression_accepts_grammar`: the parser of expressions accepts exactly the grammar.
-/

namespace Locomotive.Parse

/-! ## First and next tokens -/

theorem Layer.rank_tighter {l : Layer} (h : l ≠ .primary) : l.tighter.rank + 1 = l.rank := by
  cases l <;> first | exact absurd rfl h | rfl

theorem Layer.eq_of_rank_eq {l l' : Layer} (h : l.rank = l'.rank) : l = l' := by
  revert h; cases l <;> cases l' <;> decide

/-- A token that is no operator of a layer between operands. -/
theorem between?_of_not_continues {t : Token} (h : ¬ t.Continues) (l : Layer) : l.between? t = none := by
  simp only [Token.Continues, List.mem_cons, List.not_mem_nil, or_false, not_or] at h
  cases l with
  | comparison | product => simp only [Layer.between?]; split <;> simp_all
  | _ => simp_all [Layer.between?]

/-- The tokens do not continue an expression at a layer tighter than `l`. -/
structure Quiet (l : Layer) (ts : List Token) : Prop where
  between : ∀ l' : Layer, l'.rank < l.rank → l'.between? (ts.headD Token.endMark) = none
  lparen : (ts.headD Token.endMark).kind ≠ .lparen
  lbracket : (ts.headD Token.endMark).kind ≠ .lbracket

theorem quiet_of_not_continues {ts : List Token} (h : ¬ (ts.headD Token.endMark).Continues) (l : Layer) :
    Quiet l ts := by
  refine ⟨fun l' _ => between?_of_not_continues h l', fun hk => h (.inl ?_), fun hk => h (.inl ?_)⟩
  · rw [hk]; decide
  · rw [hk]; decide

theorem Quiet.tighter {l l' : Layer} {ts : List Token} (h : Quiet l ts) (hl : l'.rank ≤ l.rank) : Quiet l' ts :=
  ⟨fun m hm => h.between m (by omega), h.lparen, h.lbracket⟩

/-- Operators of looser layers do not continue an expression at a tighter one. -/
theorem quiet_writes {op : BinaryOp} {t : Token} (h : t.Writes op) (ts : List Token) : Quiet op.layer (t :: ts) := by
  refine ⟨fun l hl => ?_, ?_, ?_⟩ <;> rw [List.headD_cons]
  · cases op with
    | other text => exact absurd h id
    | _ => cases l <;> first | exact absurd hl (by decide) | simp_all [Token.Writes, Token.isWord, Layer.between?]
  all_goals
    cases op with
    | other text => exact absurd h id
    | _ => simp_all [Token.Writes, Token.isWord]

/-- A token that may start an expression of the given rank. -/
structure Starts (rank : Nat) (t : Token) : Prop where
  before : ∀ l : Layer, rank < l.rank → l.before? t = none
  rparen : t.kind ≠ .rparen

theorem starts_of_kind {t : Token} {rank : Nat} (hw : t.kind ≠ .keyword) (hm : t.kind ≠ .minus)
    (hp : t.kind ≠ .plus) (hr : t.kind ≠ .rparen) : Starts rank t := by
  refine ⟨fun l _ => ?_, hr⟩
  cases l <;> simp [Layer.before?, Token.isWord, hw, hm, hp]

theorem starts_of_keyword {t : Token} {rank : Nat} (hw : t.kind = .keyword) (hn : t.lexeme ≠ "NOT") :
    Starts rank t := by
  refine ⟨fun l _ => ?_, by simp [hw]⟩
  cases l <;> simp [Layer.before?, Token.isWord, hw, hn]

theorem Builtin.name_ne {f : Builtin} (hf : f ∈ Builtin.all) : f.name ≠ "NOT" ∧ f.name ≠ "FN" := by
  revert f; decide

/-- The first token of an expression. -/
theorem starts_of_spells {u : List Token} {e : Expr} (h : Spells u e) (hwf : e.WellFormed) :
    ∃ t r, u = t :: r ∧ Starts e.layer.rank t := by
  induction h with
  | @number t radix hr =>
    refine ⟨t, [], rfl, ?_⟩
    apply starts_of_kind <;> intro hk <;> simp [hk, radix?] at hr
  | @string t hk => exact ⟨t, [], rfl, by apply starts_of_kind <;> simp [hk]⟩
  | @var t hk => exact ⟨t, [], rfl, by apply starts_of_kind <;> simp [hk]⟩
  | @index t o c is v hk => exact ⟨t, _, rfl, by apply starts_of_kind <;> simp [hk]⟩
  | @binary t op a b l r hw _ _ ihl _ =>
    obtain ⟨s, u, rfl, hs⟩ := ihl (hwf.child (by simp [Expr.children]))
    have hle : l.layer.rank ≤ op.layer.rank := (hwf.layers _ .self).1
    exact ⟨s, _, rfl, fun l' hl' => hs.before l' (by simp only [Expr.layer] at hl'; omega), hs.rparen⟩
  | @unary t op u e hw _ _ =>
    refine ⟨t, u, rfl, fun l hl => ?_, ?_⟩
    · rw [Expr.layer] at hl
      cases op with
      | other text => exact absurd hw id
      | _ =>
        cases l <;> first | exact absurd hl (by decide) | simp_all [Token.WritesBefore, Token.isWord, Layer.before?]
    · cases op with
      | other text => exact absurd hw id
      | _ => simp_all [Token.WritesBefore, Token.isWord]
  | @paren o c u e ho => exact ⟨o, _, rfl, by apply starts_of_kind <;> simp [ho]⟩
  | @call t f args v hk hf hname =>
    exact ⟨t, v, rfl, starts_of_keyword hk (hname ▸ (Builtin.name_ne hf).1)⟩
  | @fnName t args v hk => exact ⟨t, v, rfl, by apply starts_of_kind <;> simp [hk]⟩
  | @fnWord t n args v hw =>
    simp only [Token.isWord, Bool.and_eq_true, beq_iff_eq] at hw
    exact ⟨t, _, rfl, starts_of_keyword hw.1 (by rw [hw.2]; decide)⟩

/-! ## Lists -/

/-- The tokens are read as an expression wherever a token follows that cannot continue it. -/
def Readable (u : List Token) (e : Expr) : Prop :=
  ∀ rest : List Token, ¬ (rest.headD Token.endMark).Continues → (atLayer .exclusive (u ++ rest)).read = .ok (e, rest)

theorem not_continues_of_kind {t : Token} (h : t.kind = .comma ∨ t.kind = .rparen ∨ t.kind = .rbracket) :
    ¬ t.Continues := by
  rcases h with h | h | h <;> simp [Token.Continues, Token.isWord, h]

theorem expressions_complete {want : Option Ty} {ps : List (List Token × Expr)} {v : List Token}
    (hv : Commas (ps.map Prod.fst) v) (hps : ∀ p ∈ ps, Readable p.1 p.2)
    (hty : ∀ w, want = some w → ∀ p ∈ ps, p.2.type = w) {c : Token} (rest : List Token)
    (hc : c.kind = .rparen ∨ c.kind = .rbracket) :
    (expressions want (v ++ c :: rest)).read = .ok (ps.map Prod.snd, c :: rest) := by
  have hfit : ∀ p ∈ ps, want.filter (· ≠ p.2.type) = none := by
    intro p hp
    cases want with
    | none => rfl
    | some w => simp [Option.filter, hty w rfl p hp]
  have hcomma : c.kind ≠ .comma := by rcases hc with hc | hc <;> simp [hc]
  induction ps generalizing v with
  | nil => cases hv
  | cons p ps ih =>
    rw [read_expressions]
    rcases ps with _ | ⟨q, ps⟩
    · cases hv with
      | one =>
        rw [hps p (by simp) (c :: rest) (not_continues_of_kind (.inr hc))]
        simp only [Reply.andThen_ok, hfit p (by simp), List.headD_cons]
        exact if_neg hcomma
      | more _ h => cases h
    · cases hv with
      | @more _ v' _ d hd hv' =>
        have hrest := ih hv' (fun r hr => hps r (by simp_all)) (fun w hw r hr => hty w hw r (by simp_all))
          (fun r hr => hfit r (by simp_all))
        have hd' : ¬ ((d :: (v' ++ c :: rest)).headD Token.endMark).Continues := not_continues_of_kind (.inl hd)
        rw [List.append_assoc, List.cons_append, hps p (by simp) _ hd']
        simp only [Reply.andThen_ok, hfit p (by simp), List.headD_cons, hd, if_true, List.tail_cons, hrest]
        rfl

/-- The first token of a list of expressions. -/
theorem head_of_commas {ps : List (List Token × Expr)} {v : List Token} (hv : Commas (ps.map Prod.fst) v)
    (hps : ∀ p ∈ ps, ∃ t r, p.1 = t :: r ∧ t.kind ≠ .rparen) (rest : List Token) :
    ((v ++ rest).headD Token.endMark).kind ≠ .rparen := by
  rcases ps with _ | ⟨p, ps⟩
  · cases hv
  · obtain ⟨t, r, hp, hk⟩ := hps p (by simp)
    rw [List.map_cons, hp] at hv
    generalize ps.map Prod.fst = ws at hv
    cases hv with
    | one => exact hk
    | more _ _ => exact hk

theorem arguments_complete {ps : List (List Token × Expr)} {v : List Token}
    (hv : Arguments (ps.map Prod.fst) v) (hps : ∀ p ∈ ps, Readable p.1 p.2)
    (hstart : ∀ p ∈ ps, ∃ t r, p.1 = t :: r ∧ t.kind ≠ .rparen) {rest : List Token}
    (hrest : (rest.headD Token.endMark).kind ≠ .lparen) :
    (arguments (v ++ rest)).read = .ok (ps.map Prod.snd, rest) := by
  rw [read_arguments]
  generalize hw : ps.map Prod.fst = ws at hv
  cases hv with
  | omitted =>
    obtain rfl := List.map_eq_nil_iff.1 hw
    rw [List.nil_append, if_neg hrest]; rfl
  | empty ho hc =>
    obtain rfl := List.map_eq_nil_iff.1 hw
    simp [ho, hc]
  | @listed o c _ v ho hc hv =>
    subst hw
    have hhead := head_of_commas hv hstart (c :: rest)
    have hread := @expressions_complete none _ _ hv hps (by simp) c rest (.inl hc)
    rw [List.cons_append, List.append_assoc, List.cons_append, List.nil_append, List.headD_cons, if_pos ho,
      List.tail_cons, if_neg hhead, hread, Reply.andThen_ok, Parser.read_expect, List.headD_cons, if_pos hc]
    rfl

/-! ## Layers -/

/-- The layer of an expression reads it and comes to where it looks for operators. -/
def ReadByOwn (u : List Token) (e : Expr) : Prop :=
  ∀ rest, Quiet e.layer rest → (atLayer e.layer (u ++ rest)).read = (operators e.layer e rest).read

/-- What the layer of an expression reads, the looser layers read. -/
theorem ReadByOwn.atLayer {u : List Token} {e : Expr} (hown : ReadByOwn u e) (h : Spells u e) (hwf : e.WellFormed)
    (l : Layer) (hl : e.layer.rank ≤ l.rank) (rest : List Token) (hrest : Quiet l rest) :
    (atLayer l (u ++ rest)).read = (operators l e rest).read := by
  obtain ⟨t, v, rfl, hstart⟩ := starts_of_spells h hwf
  -- from its own layer outwards: a looser layer hands the tokens on and finds no operator
  induction hn : l.rank - e.layer.rank generalizing l with
  | zero =>
    obtain rfl : e.layer = l := Layer.eq_of_rank_eq (by omega)
    exact hown rest hrest
  | succ n ih =>
    have hne : l ≠ .primary := by
      rintro rfl
      simp only [show Layer.primary.rank = 0 from rfl] at hn
      omega
    have hr := Layer.rank_tighter hne
    rw [List.cons_append, read_atLayer_tighter (hstart.before l (by omega)) hne, ← List.cons_append,
      ih l.tighter (by omega) (hrest.tighter (by omega)) (by omega),
      read_operators_stop e (hrest.between l.tighter (by omega))]
    rfl

theorem ReadByOwn.readable {u : List Token} {e : Expr} (hown : ReadByOwn u e) (h : Spells u e)
    (hwf : e.WellFormed) : Readable u e := by
  intro rest hrest
  rw [hown.atLayer h hwf .exclusive (Layer.rank_le _) rest (quiet_of_not_continues hrest _)]
  exact read_operators_stop e (between?_of_not_continues hrest _)

/-- A primary is read by its own layer. -/
theorem readByOwn_primary {t : Token} {v : List Token} {e : Expr} (he : e.layer = .primary)
    (h : ∀ rest, Quiet .primary rest → (primary t (v ++ rest)).read = .ok (e, rest)) : ReadByOwn (t :: v) e := by
  intro rest hrest
  rw [he] at hrest ⊢
  rw [List.cons_append, read_atLayer_primary, h rest hrest, read_operators_stop e rfl]

/-- Arguments that are read one by one are read together. -/
theorem read_arguments_of_own {args : List (List Token × Expr)} {v : List Token}
    (hv : Arguments (args.map Prod.fst) v) (hargs : ∀ a ∈ args, Spells a.1 a.2)
    (hwf : ∀ e ∈ args.map Prod.snd, e.WellFormed) (ih : ∀ a ∈ args, a.2.WellFormed → ReadByOwn a.1 a.2)
    {rest : List Token} (hrest : Quiet .primary rest) :
    (arguments (v ++ rest)).read = .ok (args.map Prod.snd, rest) := by
  have hwf' : ∀ a ∈ args, a.2.WellFormed := fun a ha => hwf a.2 (List.mem_map_of_mem ha)
  refine arguments_complete hv (fun a ha => (ih a ha (hwf' a ha)).readable (hargs a ha) (hwf' a ha)) ?_ hrest.lparen
  intro a ha
  obtain ⟨t, r, hu, hs⟩ := starts_of_spells (hargs a ha) (hwf' a ha)
  exact ⟨t, r, hu, hs.rparen⟩

/-- **Every expression is read by its own layer.** -/
theorem readByOwn {u : List Token} {e : Expr} (h : Spells u e) (hwf : e.WellFormed) : ReadByOwn u e := by
  induction h with
  | @number t radix hr =>
    refine readByOwn_primary rfl fun rest _ => ?_
    rw [read_primary, hr]; rfl
  | @string t hk =>
    refine readByOwn_primary rfl fun rest _ => ?_
    rw [read_primary, hk]; rfl
  | @var t hk =>
    refine readByOwn_primary rfl fun rest hrest => ?_
    have hname : isFnName t.lexeme = false := hwf.names _ .self
    rw [read_primary, hk]
    simp only [radix?, hname, List.nil_append]
    rw [if_neg (by simp), if_neg (fun h => h.elim hrest.lparen hrest.lbracket)]
  | @index t o c is v hk hb hv his ih =>
    refine readByOwn_primary rfl fun rest hrest => ?_
    have hname : isFnName t.lexeme = false := hwf.names _ .self
    have htypes : ∀ i ∈ is.map Prod.snd, i.type = .number := hwf.types _ .self
    have hread : ∀ i ∈ is, Readable i.1 i.2 := fun i hi =>
      have hi' := hwf.child (List.mem_map_of_mem hi)
      (ih i hi hi').readable (his i hi) hi'
    have hty : ∀ w, some Ty.number = some w → ∀ i ∈ is, i.2.type = w := by
      rintro w hw i hi
      cases hw
      exact htypes i.2 (List.mem_map_of_mem hi)
    have hc : c.kind = .rparen ∨ c.kind = .rbracket := hb.elim (fun h => .inl h.2) (fun h => .inr h.2)
    have ho : o.kind = .lparen ∨ o.kind = .lbracket := hb.elim (fun h => .inl h.1) (fun h => .inr h.1)
    have hclose : c.kind = if o.kind = .lbracket then .rbracket else .rparen := by
      rcases hb with ⟨h1, h2⟩ | ⟨h1, h2⟩ <;> simp [h1, h2]
    rw [List.cons_append, List.append_assoc, List.cons_append, List.nil_append, read_primary, hk]
    simp only [radix?, hname]
    rw [if_neg (by simp), if_pos (by exact ho), List.headD_cons, List.tail_cons, read_indices,
      expressions_complete hv hread hty rest hc, Reply.andThen_ok, Parser.read_expect, List.headD_cons, if_pos hclose]
    rfl
  | @binary t op a b x y hw hx hy ihx ihy =>
    have hwx := hwf.child (c := x) (by simp [Expr.children])
    have hwy := hwf.child (c := y) (by simp [Expr.children])
    have hrank : x.layer.rank ≤ op.layer.rank ∧ y.layer.rank < op.layer.rank := hwf.layers _ .self
    have htypes : op.Takes x.type y.type := hwf.types _ .self
    intro rest hrest
    have hlt := Layer.tighter_lt hw
    have hne : op.layer ≠ .primary := by
      intro h
      rw [h] at hlt
      exact absurd hlt (by decide)
    have htight := Layer.rank_tighter hne
    -- the left operand ends before the operator, the right one where the whole ends
    have hleft := (ihx hwx).atLayer hx hwx op.layer hrank.1 (t :: (b ++ rest)) (quiet_writes hw _)
    have hright := (ihy hwy).atLayer hy hwy op.layer.tighter (by omega) rest (hrest.tighter (by
      simp only [Expr.layer]; omega))
    rw [read_operators_stop y (hrest.between _ (by simp only [Expr.layer]; omega))] at hright
    rw [List.append_assoc, List.cons_append]
    show (atLayer op.layer _).read = (operators op.layer _ _).read
    rw [hleft, read_operators_step x (Layer.between?_of_writes hw), hright, Reply.andThen_ok,
      (Layer.complaintBetween?_eq_none_iff hw x y).2 htypes]
  | @unary t op u x hw hx ih =>
    have hwx := hwf.child (c := x) (by simp [Expr.children])
    have hrank : x.layer.rank ≤ op.layer.rank := hwf.layers _ .self
    have htypes : op.Takes x.type := hwf.types _ .self
    have hnone : ∀ s, op.layer.between? s = none := by
      cases op with
      | other text => exact absurd hw id
      | _ => exact fun s => rfl
    intro rest hrest
    have hoperand := (ih hwx).atLayer hx hwx op.layer hrank rest hrest
    rw [read_operators_stop x (hnone _)] at hoperand
    show (atLayer op.layer _).read = (operators op.layer _ _).read
    rw [List.cons_append, read_atLayer_before (Layer.before?_of_writes hw), hoperand, Reply.andThen_ok,
      (Layer.complaintBefore?_eq_none_iff hw x).2 htypes, read_operators_stop _ (hnone _)]
  | @paren o c u x ho hc hx ih =>
    have hwx := hwf.child (c := x) (by simp [Expr.children])
    refine readByOwn_primary rfl fun rest _ => ?_
    have hread := (ih hwx).readable hx hwx (c :: rest) (not_continues_of_kind (.inr (.inl hc)))
    rw [List.append_assoc, List.cons_append, List.nil_append, read_primary, ho]
    simp only [radix?]
    rw [hread, Reply.andThen_ok, Parser.read_expect, List.headD_cons, if_pos hc]
    rfl
  | @call t f args v hk hf hname hv hargs ih =>
    refine readByOwn_primary rfl fun rest hrest => ?_
    have htypes : f.Takes ((args.map Prod.snd).map Expr.type) := hwf.types _ .self
    rw [read_primary, hk]
    simp only [radix?]
    rw [if_neg (by rw [hname]; exact (Builtin.name_ne hf).2), Builtin.find?_eq_some_iff.2 ⟨hf, hname⟩]
    simp only [read_arguments_of_own hv hargs (fun e he => hwf.child he) ih hrest, Reply.andThen_ok,
      (builtinCall_eq_ok_iff hf).2 ⟨rfl, htypes⟩]
  | @fnName t args v hk hfn hv hargs ih =>
    refine readByOwn_primary rfl fun rest hrest => ?_
    rw [read_primary, hk]
    simp only [radix?]
    rw [if_pos hfn, read_arguments_of_own hv hargs (fun e he => hwf.child he) ih hrest, Reply.andThen_ok]
  | @fnWord t n args v hw hn hv hargs ih =>
    refine readByOwn_primary rfl fun rest hrest => ?_
    simp only [Token.isWord, Bool.and_eq_true, beq_iff_eq] at hw
    rw [read_primary, hw.1]
    simp only [radix?]
    rw [if_pos hw.2, Parser.read_expect, List.cons_append, List.headD_cons, if_pos hn, Reply.andThen_ok,
      List.tail_cons, read_arguments_of_own hv hargs (fun e he => hwf.child he) ih hrest, Reply.andThen_ok]

/-- **Completeness.** What spells a well-formed expression is read as that expression. -/
theorem expression_complete {used : List Token} {e : Expr} {rest : List Token} (h : Spells used e)
    (hwf : e.WellFormed) (hrest : ¬ (rest.headD Token.endMark).Continues) :
    (expression (used ++ rest)).read = .ok (e, rest) := by
  rw [read_expression]
  exact (readByOwn h hwf).readable h hwf rest hrest

/-- **The parser of expressions accepts exactly its grammar.** What it reads is well formed and
spelled by the tokens it takes; and whatever spells a well-formed expression is read as that
expression, up to a token that cannot continue it. -/
theorem expression_accepts_grammar :
    (∀ (ts : List Token) (e : Expr) (rest : List Token), (∀ t ∈ ts, t.Signed) →
      (expression ts).read = .ok (e, rest) → ∃ used, ts = used ++ rest ∧ Spells used e ∧ e.WellFormed) ∧
    ∀ (used : List Token) (e : Expr) (rest : List Token), Spells used e → e.WellFormed →
      ¬ (rest.headD Token.endMark).Continues → (expression (used ++ rest)).read = .ok (e, rest) := by
  constructor
  · intro ts e rest hs hread
    have hsound := expression_sound ts hs
    rw [hread] at hsound
    exact hsound
  · exact fun used e rest hsp hwf hrest => expression_complete hsp hwf hrest

/-- A sign binds tighter than a power: `-2^3` at the end of a line is read as the third power
of minus two, and what is read is spelled by the tokens before the end of the line. -/
theorem expression_accepts_signedPower :
    let minus : Token := ⟨.minus, "-", 1, 0, 1⟩
    let two : Token := ⟨.number, "2", 1, 1, 2⟩
    let caret : Token := ⟨.caret, "^", 1, 2, 3⟩
    let three : Token := ⟨.number, "3", 1, 3, 4⟩
    let eol : Token := ⟨.eol, "\n", 1, 4, 5⟩
    let e : Expr := .binary .pow (.unary .neg (.number .decimal "2" 1)) (.number .decimal "3" 1)
    (expression [minus, two, caret, three, eol]).read = .ok (e, [eol]) ∧
      ∃ used, [minus, two, caret, three, eol] = used ++ [eol] ∧ Spells used e ∧ e.WellFormed := by
  intro minus two caret three eol e
  have htwo : Spells [two] (.number .decimal "2" 1) := @Spells.number two .decimal rfl
  have hthree : Spells [three] (.number .decimal "3" 1) := @Spells.number three .decimal rfl
  have hspells : Spells [minus, two, caret, three] e :=
    .binary (show caret.Writes .pow from rfl) (.unary (show minus.WritesBefore .neg from ⟨rfl, rfl⟩) htwo) hthree
  have hleaf : ∀ text, (Expr.number .decimal text 1).WellFormed := fun text =>
    Expr.wellFormed_leaf trivial trivial trivial rfl
  have hwf : e.WellFormed :=
    wellFormed_binary (wellFormed_unary (hleaf "2") (by decide) rfl) (hleaf "3") (by decide) (by decide) ⟨rfl, rfl⟩
  have hread := expression_accepts_grammar.2 [minus, two, caret, three] e [eol] hspells hwf (by decide)
  exact ⟨hread, expression_accepts_grammar.1 _ e [eol] (by decide) hread⟩

end Locomotive.Parse
