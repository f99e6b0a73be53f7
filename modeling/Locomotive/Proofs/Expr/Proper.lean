import Locomotive.Proofs.Expr.Sound
import Locomotive.Proofs.Token.Scan

/-!
# Expressions of scanned tokens

The names and numbers of an expression that is read from the tokens of a source text are those of
the tokens. So a decimal number in it starts with a digit or a point.

* `words_of_spells`: where the words of an expression come from.
* `Parse.proper_of_spells`: a well-formed expression of such tokens.
-/

namespace Locomotive

namespace Expr

/-- A decimal number at the top starts with a digit or a point. -/
def NumberShaped : Expr → Prop
  | number .decimal text _ => Token.IsNumeral text
  | _ => True

/-- All decimal numbers of the expression start with a digit or a point. -/
def Numeric (e : Expr) : Prop := ∀ n, Within n e → n.NumberShaped

theorem numeric_iff {e : Expr} : e.Numeric ↔ e.NumberShaped ∧ ∀ c ∈ e.children, c.Numeric := forall_within_iff

theorem Numeric.child {e c : Expr} (h : e.Numeric) (hc : c ∈ e.children) : c.Numeric := (numeric_iff.1 h).2 c hc

/-- The expression is well formed, and its numbers start like numbers. -/
structure Proper (e : Expr) : Prop where
  wellFormed : e.WellFormed
  numeric : e.Numeric

/-- The name or the number at the top is that of a token. -/
def WordFrom (u : List Token) : Expr → Prop
  | number radix text _ => ∃ t ∈ u, Parse.radix? t.kind = some radix ∧ text = t.lexeme
  | var name => ∃ t ∈ u, t.kind = .identifier ∧ name = t.lexeme
  | index name _ => ∃ t ∈ u, t.kind = .identifier ∧ name = t.lexeme
  | fn name _ => ∃ t ∈ u, t.kind = .identifier ∧ (name = t.lexeme ∨ name = "fn" ++ t.lexeme)
  | _ => True

theorem WordFrom.mono {u v : List Token} (huv : ∀ t ∈ u, t ∈ v) {e : Expr} (h : e.WordFrom u) : e.WordFrom v := by
  have hexists : ∀ q : Token → Prop, (∃ t ∈ u, q t) → ∃ t ∈ v, q t := by
    rintro q ⟨t, ht, hq⟩
    exact ⟨t, huv t ht, hq⟩
  cases e with
  | number radix text line => exact hexists _ h
  | var name => exact hexists _ h
  | index name is => exact hexists _ h
  | fn name args => exact hexists _ h
  | _ => trivial

end Expr

/-- **The words of an expression are those of its tokens.** -/
theorem words_of_spells {u : List Token} {e : Expr} (h : Spells u e) : ∀ n, Expr.Within n e → n.WordFrom u := by
  -- what stands inside comes from a part of the tokens
  have hinside : ∀ {u v : List Token} {e : Expr}, (∀ n, Expr.Within n e → n.WordFrom u) → (∀ t ∈ u, t ∈ v) →
      ∀ n, Expr.Within n e → n.WordFrom v := fun hall huv n hn => (hall n hn).mono huv
  have hall : ∀ {v : List Token} {e : Expr}, e.WordFrom v → (∀ c ∈ e.children, ∀ n, Expr.Within n c → n.WordFrom v) →
      ∀ n, Expr.Within n e → n.WordFrom v := by
    rintro v e hw hc n (_ | ⟨hm, hn⟩)
    · exact hw
    · exact hc _ hm n hn
  induction h with
  | @number t radix hr => exact hall ⟨t, by simp, hr, rfl⟩ (by simp [Expr.children])
  | string => exact hall trivial (by simp [Expr.children])
  | @var t hk => exact hall ⟨t, by simp, hk, rfl⟩ (by simp [Expr.children])
  | @index t o c is v hk _ hv _ ih =>
    refine hall ⟨t, by simp, hk, rfl⟩ fun e he => ?_
    obtain ⟨i, hi, rfl⟩ := List.mem_map.1 he
    exact hinside (ih i hi) fun u hui => by simp [hv.mem i.1 (List.mem_map_of_mem hi) u hui]
  | @binary t op a b l r _ _ _ ihl ihr =>
    refine hall trivial fun e he => ?_
    rcases List.mem_cons.1 he with rfl | he
    · exact hinside ihl fun u hua => by simp [hua]
    · obtain rfl := List.mem_singleton.1 he
      exact hinside ihr fun u hub => by simp [hub]
  | @unary t op u e _ _ ih =>
    refine hall trivial fun c hc => ?_
    obtain rfl := List.mem_singleton.1 hc
    exact hinside ih fun u' hu' => by simp [hu']
  | @paren o c u e _ _ _ ih =>
    refine hall trivial fun c' hc => ?_
    obtain rfl := List.mem_singleton.1 hc
    exact hinside ih fun u' hu' => by simp [hu']
  | @call t f args v _ _ _ hv _ ih =>
    refine hall trivial fun e he => ?_
    obtain ⟨a, ha, rfl⟩ := List.mem_map.1 he
    exact hinside (ih a ha) fun u hua => by simp [hv.mem a.1 (List.mem_map_of_mem ha) u hua]
  | @fnName t args v hk _ hv _ ih =>
    refine hall ⟨t, by simp, hk, .inl rfl⟩ fun e he => ?_
    obtain ⟨a, ha, rfl⟩ := List.mem_map.1 he
    exact hinside (ih a ha) fun u hua => by simp [hv.mem a.1 (List.mem_map_of_mem ha) u hua]
  | @fnWord t n args v _ hn hv _ ih =>
    refine hall ⟨n, by simp, hn, .inr rfl⟩ fun e he => ?_
    obtain ⟨a, ha, rfl⟩ := List.mem_map.1 he
    exact hinside (ih a ha) fun u hua => by simp [hv.mem a.1 (List.mem_map_of_mem ha) u hua]

theorem numeric_of_spells {u : List Token} {e : Expr} (h : Spells u e)
    (hu : ∀ t ∈ u, t.kind = .number → Token.IsNumeral t.lexeme) : e.Numeric := by
  intro n hn
  have hword := words_of_spells h n hn
  cases n with
  | number radix text line =>
    obtain ⟨t, ht, hr, rfl⟩ := hword
    cases radix with
    | decimal =>
      refine hu t ht ?_
      revert hr
      cases t.kind <;> simp [Parse.radix?]
    | _ => trivial
  | _ => trivial

namespace Parse

/-- An expression that is spelled by tokens of a source text. -/
theorem proper_of_spells {n : Nat} {u : List Token} {e : Expr} (h : Spells u e) (hwf : e.WellFormed)
    (hu : ∀ t ∈ u, t.Fits n) : e.Proper :=
  ⟨hwf, numeric_of_spells h fun t ht => (hu t ht).numeral⟩

end Parse

end Locomotive
