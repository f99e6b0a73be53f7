import Locomotive.Proofs.Emit.Expr
import Locomotive.Proofs.Expr.Complete

/-!
# Generated text reads as the program meant it

The code of an expression that the parser has read is a text with one reading, and that
reading is the tree of the expression: no parentheses are missing, whatever the operators
around an operand are.

* `expression_reads_as_tree`: the code of an expression and of a condition.
-/

namespace Locomotive.Emit

open Js (Reading written)

/-- **The text of an expression has one reading, its tree.** So does that of a condition; there
a comparison at the top stays the bare comparison. -/
theorem expression_reads_as_tree {ts : List Token} {e : Expr} {rest : List Token} (hs : ∀ t ∈ ts, t.Signed)
    (hread : (Parse.expression ts).read = .ok (e, rest)) (t : Tables) :
    (∃ x t' tree, (expr e).apply t = (.ok x, t') ∧ e.tree? t.mode = some tree ∧
      written x.symbols = x.text.toList ∧ ∀ r, Reading x.symbols r ↔ r = tree) ∧
    ∃ x t' tree, (condition e).apply t = (.ok x, t') ∧ e.conditionTree? t.mode = some tree ∧
      written x.symbols = x.text.toList ∧ ∀ r, Reading x.symbols r ↔ r = tree := by
  have hsound := Parse.expression_sound ts hs
  rw [hread] at hsound
  obtain ⟨used, -, -, hwf⟩ := hsound
  constructor
  · have hruns : Ends (expr e) t _ _ := expr_runs e t rfl
    obtain ⟨x, t', hx, rfl, -⟩ := (hruns.mono (fun _ _ => id) fun _ hn => hn hwf).exists_ok
    obtain ⟨tree, htree, hd⟩ := (Expr.encodes hwf).tree
    exact ⟨_, t', tree, hx, htree, Js.Expr.written_symbols _, hd.reading_iff⟩
  · have hruns : Ends (condition e) t _ _ := condition_runs e t rfl
    obtain ⟨x, t', hx, rfl, -⟩ := (hruns.mono (fun _ _ => id) fun _ hn => hn hwf).exists_ok
    obtain ⟨tree, htree, hd⟩ := Expr.encodes_condition hwf
    exact ⟨_, t', tree, hx, htree, Js.Expr.written_symbols _, hd⟩

/-- In parentheses a comparison is a number, or a test where a condition is wanted: `(A=2)`
has the code `(a === 2 ? -1 : 0)` and as a condition `a === 2`. -/
theorem expression_reads_comparison :
    let opens : Token := ⟨.lparen, "(", 1, 0, 1⟩
    let a : Token := ⟨.identifier, "A", 1, 1, 2⟩
    let equals : Token := ⟨.equals, "=", 1, 2, 3⟩
    let two : Token := ⟨.number, "2", 1, 3, 4⟩
    let closes : Token := ⟨.rparen, ")", 1, 4, 5⟩
    let eol : Token := ⟨.eol, "\n", 1, 5, 6⟩
    let e : Expr := .paren (.binary .eq (.var "A") (.number .decimal "2" 1))
    let test : Js.Tree := .binary (.compare .eq) (.word "a") (.word "2")
    (Parse.expression [opens, a, equals, two, closes, eol]).read = .ok (e, [eol]) ∧
      (∃ x t', (expr e).apply {} = (.ok x, t') ∧
        ∀ r, Reading x.symbols r ↔ r = .choice test (.unary .neg (.word "1")) (.word "0")) ∧
      ∃ x t', (condition e).apply {} = (.ok x, t') ∧ ∀ r, Reading x.symbols r ↔ r = test := by
  intro opens a equals two closes eol e test
  have hvar : Spells [a] (.var "A") := @Spells.var a rfl
  have htwo : Spells [two] (.number .decimal "2" 1) := @Spells.number two .decimal rfl
  have hspells : Spells [opens, a, equals, two, closes] e :=
    .paren rfl rfl (.binary (show equals.Writes .eq from rfl) hvar htwo)
  have hleft : (Expr.var "A").WellFormed :=
    Parse.Expr.wellFormed_leaf trivial trivial (show Parse.isFnName "A" = false by decide) rfl
  have hright : (Expr.number .decimal "2" 1).WellFormed := Parse.Expr.wellFormed_leaf trivial trivial trivial rfl
  have hwf : e.WellFormed := Parse.wellFormed_paren
    (Parse.wellFormed_binary hleft hright (by decide) (by decide) (show Ty.ofName "A" = .number by decide))
  have hread := @Parse.expression_complete _ _ [eol] hspells hwf (by decide)
  have htree : e.tree? (Tables.mode {}) = some (.choice test (.unary .neg (.word "1")) (.word "0")) := by
    have hwords : Js.identifier "A" = "a" ∧ Js.numberLiteral .decimal "2" = "2" := by decide
    simp [e, test, Expr.tree?, BinaryOp.tree?, Js.Tree.truth, hwords]
  obtain ⟨⟨x, t, tree, hx, hxt, -, hrx⟩, y, u, tree', hy, hyt, -, hry⟩ :=
    expression_reads_as_tree (by decide) hread {}
  rw [htree] at hxt
  rw [Expr.conditionTree?, htree] at hyt
  cases hxt
  cases hyt
  exact ⟨hread, ⟨x, t, hx, hrx⟩, y, u, hy, hry⟩

end Locomotive.Emit
