import Locomotive.Proofs.Expr.Sound
import Locomotive.Proofs.Parse.Alike

/-!
# Expressions from two lists of tokens

From lists that agree up to the end of the line the same expression is read, apart from the lines that its numbers
stand on. The proofs follow the recursion of the parser.

* `Expr.renumber`: an expression with other lines.
* `atLayer_alike`: an expression of a layer.
* `expression_alike`, `expressionOf_alike`, `numbers_alike`: what statements are made of.
-/

namespace Locomotive

/-! ## Other lines -/

namespace Expr

mutual

/-- The expression with its numbers on other lines. -/
def renumber (g : Int → Int) : Expr → Expr
  | number radix text line => number radix text (g line)
  | string value => string value
  | var name => var name
  | index name indices => index name (renumberAll g indices)
  | binary op left right => binary op (renumber g left) (renumber g right)
  | unary op operand => unary op (renumber g operand)
  | paren inner => paren (renumber g inner)
  | call f args => call f (renumberAll g args)
  | fn name args => fn name (renumberAll g args)
  | missing => missing

/-- The expressions of a list with their numbers on other lines. -/
def renumberAll (g : Int → Int) : List Expr → List Expr
  | [] => []
  | e :: es => renumber g e :: renumberAll g es

end

variable (g h : Int → Int)

theorem renumberAll_eq_map (es : List Expr) : renumberAll g es = es.map (renumber g) := by
  induction es with
  | nil => rfl
  | cons e es ih => rw [renumberAll, ih, List.map_cons]

/-- The type does not depend on the lines. -/
@[simp] theorem type_renumber (e : Expr) : (e.renumber g).type = e.type := by
  cases e with
  | binary op left right => simp only [renumber, type, type_renumber left]
  | paren inner => simp only [renumber, type, type_renumber inner]
  | _ => rfl

mutual

/-- Lines are changed one after the other. -/
theorem renumber_renumber : ∀ e : Expr, (e.renumber g).renumber h = e.renumber fun n => h (g n)
  | number _ _ _ => rfl
  | string _ => rfl
  | var _ => rfl
  | index name indices => by simp only [renumber, renumberAll_renumberAll indices]
  | binary op left right => by simp only [renumber, renumber_renumber left, renumber_renumber right]
  | unary op operand => by simp only [renumber, renumber_renumber operand]
  | paren inner => by simp only [renumber, renumber_renumber inner]
  | call f args => by simp only [renumber, renumberAll_renumberAll args]
  | fn name args => by simp only [renumber, renumberAll_renumberAll args]
  | missing => rfl

theorem renumberAll_renumberAll : ∀ es : List Expr,
    renumberAll h (renumberAll g es) = renumberAll (fun n => h (g n)) es
  | [] => rfl
  | e :: es => by simp only [renumberAll, renumber_renumber e, renumberAll_renumberAll es]

end

mutual

@[simp] theorem renumber_id : ∀ e : Expr, e.renumber id = e
  | number _ _ _ => rfl
  | string _ => rfl
  | var _ => rfl
  | index name indices => by simp only [renumber, renumberAll_id indices]
  | binary op left right => by simp only [renumber, renumber_id left, renumber_id right]
  | unary op operand => by simp only [renumber, renumber_id operand]
  | paren inner => by simp only [renumber, renumber_id inner]
  | call f args => by simp only [renumber, renumberAll_id args]
  | fn name args => by simp only [renumber, renumberAll_id args]
  | missing => rfl

theorem renumberAll_id : ∀ es : List Expr, renumberAll id es = es
  | [] => rfl
  | e :: es => by simp only [renumberAll, renumber_id e, renumberAll_id es]

end

end Expr

namespace Parse

open Parse.Outcome Parse.Parser

/-! ## Operators -/

section

variable {g : Int → Int} {t t' : Token}

theorem Layer.before?_alike (ht : Token.Alike g t t') (l : Layer) : l.before? t' = l.before? t := by
  cases l <;> simp only [Layer.before?, ht.isWord, ht.kind, ht.lexeme]

theorem Layer.between?_alike (ht : Token.Alike g t t') (l : Layer) : l.between? t' = l.between? t := by
  cases l <;> simp only [Layer.between?, ht.isWord, ht.kind, ht.lexeme]

theorem Layer.complaintBefore?_alike (ht : Token.Alike g t t') (l : Layer) (e : Expr) :
    l.complaintBefore? t' (e.renumber g) = l.complaintBefore? t e := by
  cases l <;> simp only [Layer.complaintBefore?, Expr.type_renumber, ht.lexeme]

theorem Layer.complaintBetween?_alike (ht : Token.Alike g t t') (l : Layer) (op : BinaryOp) (e f : Expr) :
    l.complaintBetween? op t' (e.renumber g) (f.renumber g) = l.complaintBetween? op t e f := by
  cases l <;> simp only [Layer.complaintBetween?, Expr.type_renumber, ht.kind, ht.lexeme]

/-- The last token of a line is no operator. -/
theorem Layer.before?_endsLine (ht : t.EndsLine) (l : Layer) : l.before? t = none := by
  cases l <;> rcases ht with ht | ht <;> simp [Layer.before?, Token.isWord, ht]

theorem Layer.between?_endsLine (ht : t.EndsLine) (l : Layer) : l.between? t = none := by
  cases l <;> rcases ht with ht | ht <;> simp [Layer.between?, Token.isWord, ht]

/-- The last token of a line starts no expression. -/
theorem atLayer_endsLine (ht : t.EndsLine) (l : Layer) (r : List Token) :
    ∃ c rest, (atLayer l (t :: r)).read = .error (.rejected t c rest) := by
  induction hn : l.rank using Nat.strongRecOn generalizing l with
  | ind n ih =>
    by_cases hl : l = .primary
    · rw [hl, read_atLayer_primary, read_primary]
      rcases ht with ht | ht <;> simp [ht, radix?]
    · obtain ⟨c, rest, hf⟩ := ih l.tighter.rank (hn ▸ Layer.rank_tighter_lt hl) l.tighter rfl
      rw [read_atLayer_tighter (Layer.before?_endsLine ht l) hl, hf]
      exact ⟨c, rest, rfl⟩

theorem builtinCall_alike (ht : Token.Alike g t t') (f : Builtin) (args : List Expr) :
    builtinCall f t' (Expr.renumberAll g args) = (builtinCall f t args).map (Expr.renumber g) := by
  have htypes : (args.map (Expr.renumber g)).map Expr.type = args.map Expr.type := by
    simp [Function.comp_def]
  unfold builtinCall
  rw [Expr.renumberAll_eq_map, List.length_map, ht.lexeme]
  cases f.params? args.length with
  | none => rfl
  | some params =>
    dsimp only
    rw [htypes]
    cases Builtin.mismatch? 1 params (args.map Expr.type) with
    | some m => rfl
    | none => simp only [Except.map, Expr.renumber, Expr.renumberAll_eq_map]

end

/-! ## Expressions -/

section

variable {ρ : Token → Token → Prop} {v v' : List Token} {g : Int → Int} (hρ : ∀ t t', ρ t t' → Token.Alike g t t')
include hρ

mutual

/-- **An expression of a layer.** -/
theorem atLayer_alike (l : Layer) (ts ts' : List Token) (h : SameLine ρ v v' ts ts') :
    (atLayer l ts).Alike ρ v v' (fun e e' => e' = e.renumber g) (atLayer l ts') := by
  obtain ⟨t, r, t', r', hts, hts', ht, hends⟩ := h.head
  unfold Outcome.Alike
  rw [hts, hts']
  rcases hends with hends | ⟨hmid, hr⟩
  · -- both readings fail at the end of the line
    have hends' : t'.EndsLine := by rwa [Token.EndsLine, (hρ t t' ht).kind]
    obtain ⟨c, rest, hf⟩ := atLayer_endsLine hends l r
    obtain ⟨c', rest', hf'⟩ := atLayer_endsLine hends' l r'
    rw [hf, hf']
    exact ht
  · have hbefore := Layer.before?_alike (hρ t t' ht) l
    have hlen : ts.length = r.length + 1 := by rw [hts, List.length_cons]
    cases hb : l.before? t with
    | some op =>
      rw [hb] at hbefore
      rw [read_atLayer_before hb, read_atLayer_before hbefore]
      refine Reply.Alike.andThen (atLayer_alike l r r' hr) fun x x' rest rest' _ hx hrest => ?_
      rw [hx, Layer.complaintBefore?_alike (hρ t t' ht)]
      cases l.complaintBefore? t x with
      | some c => exact ht
      | none => exact ⟨rfl, hrest⟩
    | none =>
      rw [hb] at hbefore
      by_cases hl : l = .primary
      · rw [hl, read_atLayer_primary, read_atLayer_primary]
        exact primary_alike t t' ht r r' hr
      · rw [read_atLayer_tighter hb hl, read_atLayer_tighter hbefore hl]
        have hlt := Layer.rank_tighter_lt hl
        have hleft := atLayer_alike l.tighter ts ts' h
        rw [hts, hts'] at hleft
        refine Reply.Alike.andThen hleft fun x x' rest rest' hread hx hrest => ?_
        have hsuffix : rest.length ≤ r.length := (suffix_of_read hread).length_le
        rw [hx]
        exact operators_alike l x rest rest' hrest
termination_by ts.length * 16 + l.rank + 2
decreasing_by all_goals omega

/-- **The operators of a layer** and their right operands. -/
theorem operators_alike (l : Layer) (left : Expr) (ts ts' : List Token) (h : SameLine ρ v v' ts ts') :
    (operators l left ts).Alike ρ v v' (fun e e' => e' = e.renumber g) (operators l (left.renumber g) ts') := by
  obtain ⟨t, r, t', r', hts, hts', ht, hends⟩ := h.head
  have hbetween := Layer.between?_alike (hρ t t' ht) l
  unfold Outcome.Alike
  cases hb : l.between? t with
  | none =>
    rw [hb] at hbetween
    rw [read_operators_stop left (by rw [hts]; exact hb), read_operators_stop _ (by rw [hts']; exact hbetween)]
    exact ⟨rfl, h⟩
  | some op =>
    rw [hb] at hbetween
    have hmid : ¬ t.EndsLine := by
      intro hends
      rw [Layer.between?_endsLine hends] at hb
      cases hb
    have hr := (hends.resolve_left hmid).2
    have hlen : ts.length = r.length + 1 := by rw [hts, List.length_cons]
    rw [hts, hts', read_operators_step left hb, read_operators_step _ hbetween]
    refine Reply.Alike.andThen (atLayer_alike l.tighter r r' hr) fun right right' rest rest' hread hright hrest => ?_
    have hsuffix : rest.length ≤ r.length := by
      have := (suffix_of_read hread).length_le
      rw [List.length_tail] at this
      omega
    rw [hright, Layer.complaintBetween?_alike (hρ t t' ht)]
    cases l.complaintBetween? op t left right with
    | some c => exact ht
    | none => exact operators_alike l (.binary op left right) rest rest' hrest
termination_by ts.length * 16 + 1
decreasing_by
  · have := Layer.rank_le l.tighter
    omega
  · omega

/-- **A primary** that starts with a given token. -/
theorem primary_alike (t t' : Token) (ht : ρ t t') (ts ts' : List Token) (h : SameLine ρ v v' ts ts') :
    (primary t ts).Alike ρ v v' (fun e e' => e' = e.renumber g) (primary t' ts') := by
  unfold Outcome.Alike
  rw [read_primary, read_primary, (hρ t t' ht).kind, (hρ t t' ht).lexeme, (hρ t t' ht).line]
  cases radix? t.kind with
  | some radix => exact ⟨rfl, h⟩
  | none =>
    dsimp only
    cases t.kind with
    | string => exact ⟨rfl, h⟩
    | identifier =>
      dsimp only
      by_cases hf : isFnName t.lexeme = true
      · rw [if_pos hf, if_pos hf]
        refine Reply.Alike.andThen (arguments_alike ts ts' h) fun args args' rest rest' _ hargs hrest => ?_
        exact ⟨by rw [hargs]; rfl, hrest⟩
      · rw [if_neg hf, if_neg hf]
        obtain ⟨o, r, o', r', hts, hts', ho, hends⟩ := h.head
        have hlen : ts.length = r.length + 1 := by rw [hts, List.length_cons]
        have hhead : (ts'.headD Token.endMark).kind = (ts.headD Token.endMark).kind := by
          rw [hts, hts']
          exact (hρ o o' ho).kind
        rw [hhead]
        by_cases hopen : (ts.headD Token.endMark).kind = .lparen ∨ (ts.headD Token.endMark).kind = .lbracket
        · rw [if_pos hopen, if_pos hopen]
          rw [hts, List.headD_cons] at hopen
          have hmid : ¬ o.EndsLine := by rcases hopen with hk | hk <;> exact not_endsLine (by decide) hk
          rw [hts, hts', List.headD_cons, List.headD_cons, List.tail_cons, List.tail_cons]
          refine Reply.Alike.andThen (indices_alike o o' ho r r' (hends.resolve_left hmid).2) ?_
          intro is is' rest rest' _ his hrest
          exact ⟨by rw [his]; rfl, hrest⟩
        · rw [if_neg hopen, if_neg hopen]
          exact ⟨rfl, h⟩
    | lparen =>
      refine Reply.Alike.andThen (atLayer_alike .exclusive ts ts' h) fun e e' rest rest' _ he hrest => ?_
      refine Reply.Alike.andThen (alike_expect hρ (by decide) hrest) fun _ _ u u' _ _ hu => ?_
      exact ⟨by rw [he]; rfl, hu⟩
    | keyword =>
      dsimp only
      by_cases hfn : t.lexeme = "FN"
      · rw [if_pos hfn, if_pos hfn]
        refine Reply.Alike.andThen (alike_expect hρ (by decide) h) fun n n' rest rest' hread hn hrest => ?_
        have hsuffix := (suffix_of_read hread).length_le
        refine Reply.Alike.andThen (arguments_alike rest rest' hrest) fun args args' u u' _ hargs hu => ?_
        exact ⟨by rw [hargs, (hρ n n' hn).lexeme]; rfl, hu⟩
      · rw [if_neg hfn, if_neg hfn]
        cases Builtin.find? t.lexeme with
        | none => exact ht
        | some f =>
          refine Reply.Alike.andThen (arguments_alike ts ts' h) fun args args' rest rest' _ hargs hrest => ?_
          have hcall := builtinCall_alike (hρ t t' ht) f args
          rw [hargs, hcall]
          cases builtinCall f t args with
          | error c => exact ht
          | ok e => exact ⟨rfl, hrest⟩
    | _ => exact ht
termination_by ts.length * 16 + 17
decreasing_by
  all_goals have := Layer.rank_le .exclusive
  all_goals omega

/-- **The indices** of an array element. -/
theorem indices_alike (o o' : Token) (ho : ρ o o') (ts ts' : List Token) (h : SameLine ρ v v' ts ts') :
    (indices o ts).Alike ρ v v' (fun es es' => es' = Expr.renumberAll g es) (indices o' ts') := by
  have hk : (if o.kind = .lbracket then Token.Kind.rbracket else .rparen) ≠ .eol ∧
      (if o.kind = .lbracket then Token.Kind.rbracket else .rparen) ≠ .eof := by split <;> decide
  unfold Outcome.Alike
  rw [read_indices, read_indices, (hρ o o' ho).kind]
  refine Reply.Alike.andThen (expressions_alike (some .number) ts ts' h) fun is is' rest rest' _ his hrest => ?_
  exact Reply.Alike.andThen (alike_expect hρ hk hrest) fun _ _ u u' _ _ hu => ⟨his, hu⟩
termination_by ts.length * 16 + 16

/-- **The arguments** of a call. -/
theorem arguments_alike (ts ts' : List Token) (h : SameLine ρ v v' ts ts') :
    (arguments ts).Alike ρ v v' (fun es es' => es' = Expr.renumberAll g es) (arguments ts') := by
  obtain ⟨o, r, o', r', hts, hts', ho, hends⟩ := h.head
  have hlen : ts.length = r.length + 1 := by rw [hts, List.length_cons]
  unfold Outcome.Alike
  rw [read_arguments, read_arguments, hts, hts', List.headD_cons, List.headD_cons, List.tail_cons, List.tail_cons,
    (hρ o o' ho).kind]
  by_cases hopen : o.kind = .lparen
  · rw [if_pos hopen, if_pos hopen]
    have hr := (hends.resolve_left (not_endsLine (by decide) hopen)).2
    obtain ⟨c, q, c', q', hrc, hrc', hc, hcends⟩ := hr.head
    have hhead : (r'.headD Token.endMark).kind = (r.headD Token.endMark).kind := by
      rw [hrc, hrc']
      exact (hρ c c' hc).kind
    rw [hhead]
    by_cases hclose : (r.headD Token.endMark).kind = .rparen
    · rw [if_pos hclose, if_pos hclose, hrc, hrc']
      rw [hrc] at hclose
      exact ⟨rfl, (hcends.resolve_left (not_endsLine (by decide) hclose)).2⟩
    · rw [if_neg hclose, if_neg hclose]
      refine Reply.Alike.andThen (expressions_alike none r r' hr) fun args args' rest rest' _ hargs hrest => ?_
      exact Reply.Alike.andThen (alike_expect hρ (by decide) hrest) fun _ _ u u' _ _ hu => ⟨hargs, hu⟩
  · rw [if_neg hopen, if_neg hopen, ← hts, ← hts']
    exact ⟨rfl, h⟩
termination_by ts.length * 16 + 1
decreasing_by all_goals omega

/-- **A list of expressions** with commas between them. -/
theorem expressions_alike (want : Option Ty) (ts ts' : List Token) (h : SameLine ρ v v' ts ts') :
    (expressions want ts).Alike ρ v v' (fun es es' => es' = Expr.renumberAll g es) (expressions want ts') := by
  have hpos : 0 < ts.length := by
    obtain ⟨t, r, t', r', hts, -⟩ := h.head
    rw [hts]
    exact Nat.succ_pos _
  unfold Outcome.Alike
  rw [read_expressions, read_expressions]
  refine Reply.Alike.andThen (atLayer_alike .exclusive ts ts' h) fun e e' rest rest' hread he hrest => ?_
  have hsuffix : rest.length + 1 ≤ ts.length := by
    have := (suffix_of_read hread).length_le
    rw [List.length_tail] at this
    omega
  rw [he, Expr.type_renumber]
  cases want.filter (· ≠ e.type) with
  | some w => exact h.headD
  | none =>
    obtain ⟨c, r, c', r', hrc, hrc', hc, hends⟩ := hrest.head
    have hlen : rest.length = r.length + 1 := by rw [hrc, List.length_cons]
    have hhead : (rest'.headD Token.endMark).kind = (rest.headD Token.endMark).kind := by
      rw [hrc, hrc']
      exact (hρ c c' hc).kind
    dsimp only
    rw [hhead]
    by_cases hcomma : (rest.headD Token.endMark).kind = .comma
    · rw [if_pos hcomma, if_pos hcomma, hrc, hrc', List.tail_cons, List.tail_cons]
      rw [hrc] at hcomma
      have hr := (hends.resolve_left (not_endsLine (by decide) hcomma)).2
      refine Reply.Alike.andThen (expressions_alike want r r' hr) fun es es' u u' _ hes hu => ?_
      exact ⟨by rw [hes]; rfl, hu⟩
    · rw [if_neg hcomma, if_neg hcomma]
      exact ⟨rfl, hrest⟩
termination_by ts.length * 16 + 15
decreasing_by
  all_goals have := Layer.rank_le .exclusive
  all_goals omega

end

/-- **An expression.** -/
theorem expression_alike : ReadAs ρ v v' (Expr.renumber g) expression expression := by
  intro ts ts' h
  unfold Outcome.Alike
  rw [read_expression, read_expression]
  exact atLayer_alike hρ .exclusive ts ts' h

/-- **An expression of a given type.** -/
theorem expressionOf_alike (want : Ty) : ReadAs ρ v v' (Expr.renumber g) (expressionOf want) (expressionOf want) := by
  refine alike_peek fun t t' ht => (expression_alike hρ).bind fun e => ?_
  rw [Expr.type_renumber]
  split
  · exact alike_pure rfl
  · exact alike_fail ht

/-- **Numeric expressions** with commas between them. -/
theorem numbers_alike : ReadAs ρ v v' (List.map (Expr.renumber g)) numbers numbers := by
  intro ts ts' h
  unfold numbers Outcome.Alike
  rw [read_widen, read_widen]
  exact Reply.Alike.mono (expressions_alike hρ (some .number) ts ts' h) fun es es' hes => by
    rw [hes, Expr.renumberAll_eq_map]

end

end Parse

end Locomotive
