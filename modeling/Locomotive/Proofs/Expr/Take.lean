import Locomotive.Proofs.Expr.Proper
import Locomotive.Proofs.Stmt.Word
import Locomotive.Proofs.Token.Line

/-!
# Expressions of a source text

What is known of an expression that is read, and more if its tokens are those of a source text.

* `Parse.SoundExpr`: what is known of it.
* `Parse.expression_takes`, `Parse.expressionOf_takes`, `Parse.numbers_takes`: the parsers.
-/

namespace Locomotive

namespace Parse

open Parse.Parser

variable {ts : List Token}

/-- **The class is one of tokens of a source text**, as scanning finds them. -/
def Sourced (K : Token → Prop) : Prop := ∃ n, ∀ t, K t → t.Fits n ∧ t.Legible

/-- The words of an expression are as plain as those of its tokens. -/
theorem spelled_of_spells {u : List Token} {e : Expr} (h : Spells u e) (hu : ∀ t ∈ u, t.Legible) :
    e.Spelled Js.Plain := by
  intro n hn
  have hword := words_of_spells h n hn
  cases n with
  | number radix text line =>
    obtain ⟨t, ht, hr, rfl⟩ := hword
    refine (hu t ht).number ?_
    revert hr
    cases t.kind <;> simp [Parse.radix?]
  | var name =>
    obtain ⟨t, ht, hk, rfl⟩ := hword
    exact (hu t ht).name hk
  | index name is =>
    obtain ⟨t, ht, hk, rfl⟩ := hword
    exact (hu t ht).name hk
  | fn name args =>
    obtain ⟨t, ht, hk, rfl | rfl⟩ := hword
    · exact (hu t ht).name hk
    · exact Text.within_append.2 ⟨by decide, (hu t ht).name hk⟩
  | _ => trivial

variable (K : Token → Prop)

/-- **What is known of an expression**, and more if its tokens are those of a source text. -/
structure SoundExpr (e : Expr) : Prop where
  apart : e.Apart
  sound : Sourced K → e.Proper ∧ e.Spelled Js.Plain

/-- The same for all expressions of a list. -/
structure SoundExprs (es : List Expr) : Prop where
  apart : ∀ e ∈ es, e.Apart
  sound : Sourced K → (∀ e ∈ es, e.Proper) ∧ Stmt.Spell Js.Plain es

variable {K}

theorem soundExprs_of_forall {es : List Expr} (h : ∀ e ∈ es, SoundExpr K e) : SoundExprs K es :=
  ⟨fun e he => (h e he).apart, fun hK => ⟨fun e he => ((h e he).sound hK).1, fun e he => ((h e he).sound hK).2⟩⟩

theorem Phrase.sound {l : Layer} {used : List Token} {e : Expr} (h : Phrase l used e) (hused : ∀ t ∈ used, K t) :
    SoundExpr K e := by
  refine ⟨h.apart, fun ⟨n, hn⟩ => ?_⟩
  obtain ⟨hsp, hwf, -⟩ := h.formed fun t ht => (hn t (hused t ht)).1.signed
  exact ⟨proper_of_spells hsp hwf fun t ht => (hn t (hused t ht)).1, spelled_of_spells hsp fun t ht => (hn t (hused t ht)).2⟩

/-- The members of a list. -/
theorem Phrases.sound {ps : List (List Token × Expr)} {v : List Token} (h : Phrases ps)
    (hv : ∀ w ∈ ps.map Prod.fst, ∀ t ∈ w, t ∈ v) (hK : ∀ t ∈ v, K t) : SoundExprs K (ps.map Prod.snd) := by
  refine soundExprs_of_forall fun e he => ?_
  obtain ⟨p, hp, rfl⟩ := List.mem_map.1 he
  exact (h p hp).sound fun t ht => hK t (hv p.1 (List.mem_map_of_mem hp) t ht)

theorem layer_takes (l : Layer) (hts : ∀ t ∈ ts, K t) : (atLayer l ts).read.Takes (SoundExpr K) ts := by
  refine (atLayer_reads l ts).mono ?_
  rintro e rest ⟨used, rfl, he⟩
  exact ⟨he.sound fun t ht => hts t (List.mem_append_left rest ht), used, rfl, he.inner⟩

theorem expression_takes : expression.Takes K (SoundExpr K) := by
  intro ts hts
  rw [read_expression]
  exact layer_takes .exclusive hts

theorem expressionOf_takes (want : Ty) : (expressionOf want).Takes K (SoundExpr K) := by
  refine takes_bind takes_peek fun first _ => takes_bind expression_takes fun e he => ?_
  split
  · exact takes_pure he
  · exact takes_fail _ id

/-- What an expression takes, for any tokens. -/
theorem taken_of_expressionOf {want : Ty} {q : Parsed Expr ts} (h : expressionOf want ts = .ok q) : Taken ts q.rest :=
  ((expressionOf_takes (K := fun _ => True) want ts fun _ _ => trivial).of_ok (read_eq_ok h)).2

theorem numbers_takes : numbers.Takes K (SoundExprs K) := by
  intro ts hts
  rw [numbers, read_widen]
  refine (expressions_reads (some .number) ts).mono ?_
  rintro es rest ⟨ps, v, rfl, rfl, hinner, hv, hps, -⟩
  exact ⟨hps.sound hv.mem fun t ht => hts t (List.mem_append_left rest ht), v, rfl, hinner⟩

/-- The indices of an element are numbers. -/
theorem indices_takes {o : Token} (ho : o.kind = .lparen ∨ o.kind = .lbracket) (hts : ∀ t ∈ ts, K t) :
    (indices o ts).read.Takes (fun is => SoundExprs K is ∧ ∀ i ∈ is, i.type = .number) ts := by
  refine (indices_reads o ts ho).mono ?_
  rintro is rest ⟨ps, v, c, rfl, rfl, hinner, -, hv, hps, hty⟩
  refine ⟨⟨hps.sound hv.mem fun t ht => hts t (List.mem_append_left _ ht), hty⟩, v ++ [c], ?_, hinner⟩
  rw [List.append_assoc, List.singleton_append]

end Parse

end Locomotive
