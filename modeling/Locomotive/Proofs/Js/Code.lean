import Locomotive.Js.Stmt
import Locomotive.Proofs.Js.Mark

/-!
# What generated code holds

Properties of generated code that later stages rely on. `awaits` says that an `await` stands
in it; which references to subroutines are awaited is not known before all subroutines are,
so it is a parameter. `refs` are the numbers of the references in it.
-/

namespace Locomotive.Js

namespace Expr

mutual

/-- An `await` stands in the code; `called` tells which references are awaited. -/
def awaits (called : Nat → Bool) : Expr → Bool
  | atom _ => false
  | site i => called i
  | selected i selector => called i || selector.awaits called
  | element _ is => anyAwaits called is
  | call _ args => anyAwaits called args
  | method r _ args => r.awaits called || anyAwaits called args
  | property r _ => r.awaits called
  | unary op x => decide (op = .await) || x.awaits called
  | binary _ l r => l.awaits called || r.awaits called
  | compare _ l r => l.awaits called || r.awaits called
  | truth _ l r => l.awaits called || r.awaits called
  | paren x => x.awaits called
  | array xs => anyAwaits called xs
  | directive _ args => anyAwaits called args

/-- An `await` stands in a member of the list. -/
def anyAwaits (called : Nat → Bool) : List Expr → Bool
  | [] => false
  | e :: es => e.awaits called || anyAwaits called es

end

mutual

/-- The numbers of the references in the code, in order. -/
def refs : Expr → List Nat
  | atom _ => []
  | site i => [i]
  | selected i selector => i :: selector.refs
  | element _ is => refsOf is
  | call _ args => refsOf args
  | method r _ args => r.refs ++ refsOf args
  | property r _ => r.refs
  | unary _ x => x.refs
  | binary _ l r => l.refs ++ r.refs
  | compare _ l r => l.refs ++ r.refs
  | truth _ l r => l.refs ++ r.refs
  | paren x => x.refs
  | array xs => refsOf xs
  | directive _ args => refsOf args

/-- The numbers of the references in the members of a list. -/
def refsOf : List Expr → List Nat
  | [] => []
  | e :: es => e.refs ++ refsOf es

end

@[simp] theorem awaits_atLeast (called : Nat → Bool) (rank : Nat) (e : Expr) :
    (e.atLeast rank).awaits called = e.awaits called := by
  unfold atLeast; split <;> simp [awaits]

theorem anyAwaits_append (called : Nat → Bool) (xs ys : List Expr) :
    anyAwaits called (xs ++ ys) = (anyAwaits called xs || anyAwaits called ys) := by
  induction xs with
  | nil => simp [anyAwaits]
  | cons x xs ih => simp [anyAwaits, ih, Bool.or_assoc]

mutual

/-- An `await` is one of the code's own or belongs to a reference. -/
theorem awaits_eq (called : Nat → Bool) : ∀ e : Expr,
    e.awaits called = (e.awaits (fun _ => false) || e.refs.any called)
  | atom _ => by simp [awaits, refs]
  | site i => by simp [awaits, refs]
  | selected i s => by
    have := awaits_eq called s
    simp only [awaits, refs, List.any_cons, this, Bool.false_or, Bool.or_left_comm]
  | element _ is => by simp only [awaits, refs, anyAwaits_eq called is]
  | call _ args => by simp only [awaits, refs, anyAwaits_eq called args]
  | method r _ args => by
    simp only [awaits, refs, List.any_append, awaits_eq called r, anyAwaits_eq called args]
    simp only [Bool.or_assoc, Bool.or_left_comm]
  | property r _ => by simp only [awaits, refs, awaits_eq called r]
  | unary op x => by simp only [awaits, refs, awaits_eq called x, Bool.or_assoc]
  | binary _ l r => by
    simp only [awaits, refs, List.any_append, awaits_eq called l, awaits_eq called r]
    simp only [Bool.or_assoc, Bool.or_left_comm]
  | compare _ l r => by
    simp only [awaits, refs, List.any_append, awaits_eq called l, awaits_eq called r]
    simp only [Bool.or_assoc, Bool.or_left_comm]
  | truth _ l r => by
    simp only [awaits, refs, List.any_append, awaits_eq called l, awaits_eq called r]
    simp only [Bool.or_assoc, Bool.or_left_comm]
  | paren x => by simp only [awaits, refs, awaits_eq called x]
  | array xs => by simp only [awaits, refs, anyAwaits_eq called xs]
  | directive _ args => by simp only [awaits, refs, anyAwaits_eq called args]

theorem anyAwaits_eq (called : Nat → Bool) : ∀ es : List Expr,
    anyAwaits called es = (anyAwaits (fun _ => false) es || (refsOf es).any called)
  | [] => by simp [anyAwaits, refsOf]
  | e :: es => by
    simp only [anyAwaits, refsOf, List.any_append, awaits_eq called e, anyAwaits_eq called es]
    simp only [Bool.or_assoc, Bool.or_left_comm]

end

end Expr

/-! ## Statements -/

namespace Step

/-- The amount of a loop's step. -/
def amount? : Step → Option Expr
  | one => none
  | up a => some a
  | down a => some a
  | signed a => some a

end Step

namespace Stmt

mutual

/-- An `await` stands in the statement, the bodies of arrows left out. -/
def awaits (called : Nat → Bool) : Stmt → Bool
  | expr e => e.awaits called
  | assign t v => t.awaits called || v.awaits called
  | retCall e => e.awaits called
  | forLoop _ start stop step =>
    start.awaits called || stop.awaits called || step.amount?.any (Expr.awaits called)
  | whileLoop c => c.awaits called
  | branch c yes no => c.awaits called || anyAwaits called yes || elseAwaits called no
  | _ => false

/-- An `await` stands in a statement of the list. -/
def anyAwaits (called : Nat → Bool) : List Stmt → Bool
  | [] => false
  | s :: ss => s.awaits called || anyAwaits called ss

/-- An `await` stands in a statement of the `else`. -/
def elseAwaits (called : Nat → Bool) : Option (List Stmt) → Bool
  | none => false
  | some ss => anyAwaits called ss

end

mutual

/-- The numbers of the references in a statement, in order. -/
def refs : Stmt → List Nat
  | expr e => e.refs
  | assign t v => t.refs ++ v.refs
  | retCall e => e.refs
  | forLoop _ start stop step => start.refs ++ stop.refs ++ (step.amount?.map Expr.refs).getD []
  | whileLoop c => c.refs
  | branch c yes no => c.refs ++ refsOf yes ++ refsOfElse no
  | _ => []

/-- The numbers of the references in a list of statements. -/
def refsOf : List Stmt → List Nat
  | [] => []
  | s :: ss => s.refs ++ refsOf ss

/-- The numbers of the references in an `else`. -/
def refsOfElse : Option (List Stmt) → List Nat
  | none => []
  | some ss => refsOf ss

end

mutual

/-- Every arrow in the statement is asynchronous exactly if an `await` stands in its body,
whichever references are awaited. -/
def ArrowsAgree : Stmt → Prop
  | branch _ yes no => AllArrowsAgree yes ∧ ElseArrowsAgree no
  | arrow _ isAsync _ body => ∀ called, isAsync = body.awaits called
  | _ => True

/-- The arrows in the statements of the list agree with their bodies. -/
def AllArrowsAgree : List Stmt → Prop
  | [] => True
  | s :: ss => s.ArrowsAgree ∧ AllArrowsAgree ss

/-- The arrows in the statements of the `else` agree with their bodies. -/
def ElseArrowsAgree : Option (List Stmt) → Prop
  | none => True
  | some ss => AllArrowsAgree ss

end

@[simp] theorem anyAwaits_append (called : Nat → Bool) (ss ss' : List Stmt) :
    anyAwaits called (ss ++ ss') = (anyAwaits called ss || anyAwaits called ss') := by
  induction ss with
  | nil => simp [anyAwaits]
  | cons s ss ih => simp [anyAwaits, ih, Bool.or_assoc]

@[simp] theorem refsOf_append (ss ss' : List Stmt) : refsOf (ss ++ ss') = refsOf ss ++ refsOf ss' := by
  induction ss with
  | nil => simp [refsOf]
  | cons s ss ih => simp [refsOf, ih]

theorem allArrowsAgree_iff {ss : List Stmt} : AllArrowsAgree ss ↔ ∀ s ∈ ss, s.ArrowsAgree := by
  induction ss with
  | nil => simp [AllArrowsAgree]
  | cons s ss ih => simp [AllArrowsAgree, ih]

/-! An `else` that is missing is like one without statements. -/

theorem elseAwaits_getD (called : Nat → Bool) (no : Option (List Stmt)) :
    elseAwaits called no = anyAwaits called (no.getD []) := by cases no <;> rfl

theorem refsOfElse_getD (no : Option (List Stmt)) : refsOfElse no = refsOf (no.getD []) := by cases no <;> rfl

theorem elseArrowsAgree_iff {no : Option (List Stmt)} : ElseArrowsAgree no ↔ AllArrowsAgree (no.getD []) := by
  cases no <;> rfl

theorem allArrowsAgree_append {ss ss' : List Stmt} (h : AllArrowsAgree ss) (h' : AllArrowsAgree ss') :
    AllArrowsAgree (ss ++ ss') :=
  allArrowsAgree_iff.2 (List.forall_mem_append.2 ⟨allArrowsAgree_iff.1 h, allArrowsAgree_iff.1 h'⟩)

mutual

/-- An `await` is one of the statement's own or belongs to a reference. -/
theorem awaits_eq (called : Nat → Bool) : ∀ s : Stmt,
    s.awaits called = (s.awaits (fun _ => false) || s.refs.any called)
  | expr e => by simp only [awaits, refs, Expr.awaits_eq called e]
  | assign t v => by
    simp only [awaits, refs, List.any_append, Expr.awaits_eq called t, Expr.awaits_eq called v]
    simp only [Bool.or_assoc, Bool.or_left_comm]
  | ret => by simp [awaits, refs]
  | retCall e => by simp only [awaits, refs, Expr.awaits_eq called e]
  | forLoop _ start stop step => by
    simp only [awaits, refs, List.any_append, Expr.awaits_eq called start, Expr.awaits_eq called stop]
    cases step.amount? with
    | none => simp [Bool.or_assoc, Bool.or_left_comm]
    | some a =>
      simp only [Option.any_some, Option.map_some, Option.getD_some, Expr.awaits_eq called a]
      simp only [Bool.or_assoc, Bool.or_left_comm]
  | whileLoop c => by simp only [awaits, refs, Expr.awaits_eq called c]
  | close => by simp [awaits, refs]
  | branch c yes no => by
    simp only [awaits, refs, List.any_append, Expr.awaits_eq called c, anyAwaits_eq called yes,
      elseAwaits_eq called no]
    simp only [Bool.or_assoc, Bool.or_left_comm]
  | arrow _ _ _ _ => by simp [awaits, refs]
  | note _ => by simp [awaits, refs]
  | comment _ => by simp [awaits, refs]

theorem anyAwaits_eq (called : Nat → Bool) : ∀ ss : List Stmt,
    anyAwaits called ss = (anyAwaits (fun _ => false) ss || (refsOf ss).any called)
  | [] => by simp [anyAwaits, refsOf]
  | s :: ss => by
    simp only [anyAwaits, refsOf, List.any_append, awaits_eq called s, anyAwaits_eq called ss]
    simp only [Bool.or_assoc, Bool.or_left_comm]

theorem elseAwaits_eq (called : Nat → Bool) : ∀ no : Option (List Stmt),
    elseAwaits called no = (elseAwaits (fun _ => false) no || (refsOfElse no).any called)
  | none => by simp [elseAwaits, refsOfElse]
  | some ss => by simp only [elseAwaits, refsOfElse, anyAwaits_eq called ss]

end

end Stmt

end Locomotive.Js
