import Locomotive.Proofs.Js.Code
import Locomotive.Proofs.Token.Scan

/-!
# The variables of generated code

A variable occurs in generated code as an atom, as the array of an element, or as the variable of
a loop. Atoms are literals too, which start with a digit, a point, a sign or a quote, and a few
words that are no variables. The parameters of an arrow are bound by it.

* `Stmt.vars`: the variables that occur in a statement.
* `isVariable_numberLiteral`: the literals are no variables.
-/

namespace Locomotive.Js

/-- The words of the generated program that are no variables. -/
def fixedWords : List String := ["true", "false", "Math", "String"]

/-- The atom is the name of a variable. -/
def isVariable (t : String) : Bool := t.toList.head?.any Char.isAlpha && !fixedWords.contains t

namespace Expr

mutual

/-- The variables that occur in an expression, in order. -/
def vars : Expr → List String
  | atom t => if isVariable t then [t] else []
  | site _ => []
  | selected _ selector => selector.vars
  | element a is => a :: varsOf is
  | call _ args => varsOf args
  | method r _ args => r.vars ++ varsOf args
  | property r _ => r.vars
  | unary _ x => x.vars
  | binary _ l r => l.vars ++ r.vars
  | compare _ l r => l.vars ++ r.vars
  | truth _ l r => l.vars ++ r.vars
  | paren x => x.vars
  | array xs => varsOf xs
  | directive _ args => varsOf args

/-- The variables that occur in the members of a list. -/
def varsOf : List Expr → List String
  | [] => []
  | e :: es => e.vars ++ varsOf es

end

theorem varsOf_append (es fs : List Expr) : varsOf (es ++ fs) = varsOf es ++ varsOf fs := by
  induction es with
  | nil => rfl
  | cons e es ih => rw [List.cons_append, varsOf, varsOf, ih, List.append_assoc]

@[simp] theorem vars_atLeast (e : Expr) (rank : Nat) : (e.atLeast rank).vars = e.vars := by
  unfold atLeast
  split <;> simp [vars]

end Expr

/-! ## Literals -/

/-- What starts with none of the letters is no variable. -/
theorem isVariable_eq_false {t : String} (h : ∀ c ∈ t.toList.head?, c.isAlpha = false) : isVariable t = false := by
  unfold isVariable
  cases hc : t.toList.head? with
  | none => rfl
  | some c => simp [h c hc]

theorem isVariable_quote (s : String) : isVariable (quote s) = false := by
  apply isVariable_eq_false
  intro c hc
  rw [quote, String.toList_ofList, List.cons_append, List.head?_cons, Option.mem_some_iff] at hc
  subst hc
  decide

theorem toNat_of_isAlpha {c : Char} (h : c.isAlpha = true) : 65 ≤ c.toNat ∧ c.toNat ≤ 122 := by
  have hcase : (c.isUpper || c.isLower) = true := h
  rcases Bool.or_eq_true_iff.1 hcase with hupper | hlower
  · have hbounds : 65 ≤ c.toNat ∧ c.toNat ≤ 90 := of_decide_eq_true hupper
    omega
  · have hlow : 97 ≤ c.toNat := of_decide_eq_true (Bool.and_eq_true_iff.1 hlower).1
    have hhigh : c.toNat ≤ 122 := of_decide_eq_true (Bool.and_eq_true_iff.1 hlower).2
    omega

theorem isAlpha_of_isDigit {c : Char} (h : c.isDigit = true) : c.isAlpha = false := by
  simp only [Char.isDigit, Bool.and_eq_true, decide_eq_true_eq] at h
  have hle : c.toNat ≤ 57 := h.2
  apply Bool.eq_false_iff.2
  intro halpha
  have := toNat_of_isAlpha halpha
  omega

/-- No digit of any script is a letter. -/
theorem isAlpha_of_numeral {c : Char} (h : Text.isDigit c = true ∨ c = '.') : c.isAlpha = false := by
  have hranges : ∀ r ∈ Text.digitRanges, 122 < r.1 := by decide
  rcases h with h | rfl
  · unfold Text.isDigit at h
    split at h
    · exact isAlpha_of_isDigit h
    · unfold Text.inRanges at h
      obtain ⟨r, hr, hc⟩ := List.any_eq_true.1 h
      simp only [Bool.and_eq_true, decide_eq_true_eq] at hc
      have := hranges r hr
      apply Bool.eq_false_iff.2
      intro halpha
      have := toNat_of_isAlpha halpha
      omega
  · decide

theorem isVariable_toString (n : Nat) : isVariable (toString n) = false := by
  apply isVariable_eq_false
  intro c hc
  rw [Nat.toString_eq_ofList_toDigits, String.toList_ofList] at hc
  exact isAlpha_of_isDigit (Nat.isDigit_of_mem_toDigits (by decide) (by decide) (List.mem_of_mem_head? hc))

/-- **The literal of a number** is no variable. -/
theorem isVariable_numberLiteral (radix : Radix) {text : String} (h : radix = .decimal → Token.IsNumeral text) :
    isVariable (numberLiteral radix text) = false := by
  apply isVariable_eq_false
  intro c hc
  unfold numberLiteral splitSign at hc
  split at hc
  · -- the sign is written first
    have hsign : c = '-' := by simpa [eq_comm] using hc
    subst hsign
    decide
  · rw [String.empty_append] at hc
    cases radix with
    | hex =>
      have hzero : c = '0' := by simpa [unsignedLiteral, eq_comm] using hc
      subst hzero
      decide
    | binary =>
      have hzero : c = '0' := by simpa [unsignedLiteral, eq_comm] using hc
      subst hzero
      decide
    | decimal =>
      obtain ⟨d, hd, hfirst⟩ := h rfl
      unfold unsignedLiteral at hc
      rw [String.toList_ofList] at hc
      split at hc
      · unfold dropLeadingZeros at hc
        dsimp only at hc
        split at hc
        · rename_i hdigit
          rw [Option.mem_def] at hc
          rw [hc] at hdigit
          exact isAlpha_of_isDigit hdigit
        · rw [List.head?_cons, Option.mem_some_iff] at hc
          subst hc
          decide
      · rw [Option.mem_def] at hc hd
        rw [hc, Option.some.injEq] at hd
        subst hd
        exact isAlpha_of_numeral hfirst

/-! ## Statements -/

namespace Stmt

mutual

/-- The variables that occur in a statement, in order; those that an arrow binds are left out. -/
def vars : Stmt → List String
  | expr e => e.vars
  | assign target value => target.vars ++ value.vars
  | ret => []
  | retCall e => e.vars
  | forLoop v start stop step =>
    v :: start.vars ++ stop.vars ++ (step.amount?.map Expr.vars).getD []
  | whileLoop c => c.vars
  | close => []
  | branch c yes no => c.vars ++ varsOf yes ++ varsOfElse no
  | arrow _ _ params body => body.vars.filter fun v => !params.contains v
  | note _ => []
  | comment _ => []

/-- The variables that occur in the statements of a list. -/
def varsOf : List Stmt → List String
  | [] => []
  | s :: ss => s.vars ++ varsOf ss

/-- The variables that occur in the statements of an `else`. -/
def varsOfElse : Option (List Stmt) → List String
  | none => []
  | some ss => varsOf ss

end

theorem varsOf_append (ss ss' : List Stmt) : varsOf (ss ++ ss') = varsOf ss ++ varsOf ss' := by
  induction ss with
  | nil => rfl
  | cons s ss ih => rw [List.cons_append, varsOf, varsOf, ih, List.append_assoc]

end Stmt

end Locomotive.Js
