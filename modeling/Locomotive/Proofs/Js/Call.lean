import Locomotive.Js.Helper
import Locomotive.Js.Stmt

/-!
# The calls of generated code

A call of a function by its name is a node of its own in generated code, so the functions that are
called can be read off it. The number that selects one of several subroutines stands in the text that
replaces the mark of the reference, and what it calls is called with it.

* `Expr.calls`, `Stmt.callsOf`: the functions that code calls.
* `Agrees`: some names are the helpers among those called.
* `Stmt.selectionsOf`: where one of several subroutines is called.
-/

namespace Locomotive.Js

namespace Expr

mutual

/-- The functions that an expression calls by name, in order. -/
def calls : Expr → List String
  | atom _ => []
  | site _ => []
  | selected _ selector => selector.calls
  | element _ is => callsOf is
  | call f args => f :: callsOf args
  | method r _ args => r.calls ++ callsOf args
  | property r _ => r.calls
  | unary _ x => x.calls
  | binary _ l r => l.calls ++ r.calls
  | compare _ l r => l.calls ++ r.calls
  | truth _ l r => l.calls ++ r.calls
  | paren x => x.calls
  | array xs => callsOf xs
  | directive _ args => callsOf args

/-- The functions that the members of a list call. -/
def callsOf : List Expr → List String
  | [] => []
  | e :: es => e.calls ++ callsOf es

end

theorem callsOf_append (es fs : List Expr) : callsOf (es ++ fs) = callsOf es ++ callsOf fs := by
  induction es with
  | nil => rfl
  | cons e es ih => rw [List.cons_append, callsOf, callsOf, ih, List.append_assoc]

@[simp] theorem calls_atLeast (e : Expr) (rank : Nat) : (e.atLeast rank).calls = e.calls := by
  unfold atLeast
  split
  · rw [calls]
  · rfl

end Expr

/-- The functions that the step of a loop calls. -/
def Step.calls : Step → List String
  | one => []
  | up amount => amount.calls
  | down amount => amount.calls
  | signed amount => amount.calls

namespace Stmt

mutual

/-- The functions that a statement calls by name. -/
def calls : Stmt → List String
  | expr e => e.calls
  | assign target value => target.calls ++ value.calls
  | retCall e => e.calls
  | forLoop _ start stop step => start.calls ++ stop.calls ++ step.calls
  | whileLoop cond => cond.calls
  | branch cond yes no => cond.calls ++ (callsOf yes ++ callsOfElse no)
  | arrow _ _ _ body => body.calls
  | ret | close | note _ | comment _ => []

/-- The functions that the statements of a list call. -/
def callsOf : List Stmt → List String
  | [] => []
  | s :: ss => s.calls ++ callsOf ss

/-- The functions that the statements of an `else` call. -/
def callsOfElse : Option (List Stmt) → List String
  | none => []
  | some ss => callsOf ss

end

mutual

/-- The calls of one of several subroutines: the number of the reference, and the code of the number
that selects. -/
def selections : Stmt → List (Nat × Expr)
  | expr (.selected i selector) => [(i, selector)]
  | branch _ yes no => selectionsOf yes ++ selectionsOfElse no
  | _ => []

/-- The same for the statements of a list. -/
def selectionsOf : List Stmt → List (Nat × Expr)
  | [] => []
  | s :: ss => s.selections ++ selectionsOf ss

/-- The same for the statements of an `else`. -/
def selectionsOfElse : Option (List Stmt) → List (Nat × Expr)
  | none => []
  | some ss => selectionsOf ss

end

theorem callsOf_append (ss ss' : List Stmt) : callsOf (ss ++ ss') = callsOf ss ++ callsOf ss' := by
  induction ss with
  | nil => rfl
  | cons s ss ih => rw [List.cons_append, callsOf, callsOf, ih, List.append_assoc]

theorem selectionsOf_append (ss ss' : List Stmt) :
    selectionsOf (ss ++ ss') = selectionsOf ss ++ selectionsOf ss' := by
  induction ss with
  | nil => rfl
  | cons s ss ih => rw [List.cons_append, selectionsOf, selectionsOf, ih, List.append_assoc]

end Stmt

/-! ## Helpers among the calls -/

/-- **The names are the helpers** among the functions that are called. -/
def Agrees (names called : List String) : Prop := ∀ h, h ∈ names ↔ isHelper h = true ∧ h ∈ called

namespace Agrees

variable {names names' called called' : List String}

theorem nil : Agrees [] [] := by simp [Agrees]

theorem append (h : Agrees names called) (h' : Agrees names' called') :
    Agrees (names ++ names') (called ++ called') := by
  intro f
  rw [List.mem_append, List.mem_append, h f, h' f, ← and_or_left]

/-- Only which functions are called matters, not how often and in which order. -/
theorem congr (h : Agrees names called) (hn : ∀ f, f ∈ names' ↔ f ∈ names) (hc : ∀ f, f ∈ called' ↔ f ∈ called) :
    Agrees names' called' := by
  intro f
  rw [hn, hc]
  exact h f

/-- A helper is called with arguments. -/
theorem helper {name : String} (hname : isHelper name = true) (h : Agrees names called) :
    Agrees (name :: names) (name :: called) := by
  have hone : Agrees [name] [name] := by
    intro f
    rw [List.mem_singleton]
    constructor
    · rintro rfl
      exact ⟨hname, rfl⟩
    · exact fun hf => hf.2
  exact hone.append h

/-- A function that is no helper is called with arguments. -/
theorem other {name : String} (hname : isHelper name = false) (h : Agrees names called) :
    Agrees names (name :: called) := by
  intro f
  rw [h f, List.mem_cons]
  constructor
  · exact fun hf => ⟨hf.1, .inr hf.2⟩
  · rintro ⟨hf, rfl | hmem⟩
    · rw [hname] at hf
      cases hf
    · exact ⟨hf, hmem⟩

end Agrees

end Locomotive.Js
