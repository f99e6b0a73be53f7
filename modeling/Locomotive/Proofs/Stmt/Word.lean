import Locomotive.Proofs.Expr.Grammar
import Locomotive.Proofs.Js.Word
import Locomotive.Stmt

/-!
# The words of statements

The names, numbers and labels of a program go into the code as they are, while its texts are quoted.
`Spelled P` says that the former are of the class `P`. Comments and statements
that have no counterpart are shown in the generated program.

* `Expr.Spelled`, `Stmt.Spelled`: the words are of a class of characters.
* `Stmt.exprs`, `Stmt.nodesOf`: the expressions of a statement, and all statements of a list.
* `Stmt.gather`, `Stmt.dataLists`: what is shown of statements, those in the branches of an `IF` included.
-/

namespace Locomotive

variable {P : Char → Prop}

namespace Expr

/-- The name or the number at the top is of the class. -/
def WordWithin (P : Char → Prop) : Expr → Prop
  | number _ text _ => Text.Within P text
  | var name => Text.Within P name
  | index name _ => Text.Within P name
  | fn name _ => Text.Within P name
  | _ => True

/-- All names and numbers of the expression are of the class. -/
def Spelled (P : Char → Prop) (e : Expr) : Prop := ∀ n, Within n e → n.WordWithin P

theorem spelled_iff {e : Expr} : e.Spelled P ↔ e.WordWithin P ∧ ∀ c ∈ e.children, c.Spelled P := forall_within_iff

theorem Spelled.child {e c : Expr} (h : e.Spelled P) (hc : c ∈ e.children) : c.Spelled P := (spelled_iff.1 h).2 c hc

theorem spelled_all (e : Expr) : e.Spelled fun _ => True := by
  rintro n -
  cases n with
  | number _ _ _ | var _ | index _ _ | fn _ _ => exact fun _ _ => trivial
  | _ => trivial

end Expr

/-- The expressions of an element of a `PRINT` list. -/
def PrintItem.exprs : PrintItem → List Expr
  | value e => [e]
  | tab e => [e]
  | spc e => [e]
  | formatted f v => [f, v]
  | _ => []

namespace Stmt

/-- All members of the list are spelled with characters of the class. -/
def Spell (P : Char → Prop) (es : List Expr) : Prop := ∀ e ∈ es, e.Spelled P

theorem spell_all (es : List Expr) : Spell (fun _ => True) es := fun e _ => e.spelled_all

/-- The expressions of a statement, without those of the branches of an `IF`; of an array, its dimensions. -/
def exprs : Stmt → List Expr
  | assign target value => [target, value]
  | print stream items => stream.toList ++ items.flatMap PrintItem.exprs
  | write stream args => stream.toList ++ args
  | command _ args => args
  | graphics _ x y pen => x :: y :: pen.toList
  | forLoop _ start stop step => start :: stop :: step.toList
  | whileLoop cond => [cond]
  | branch cond _ _ => [cond]
  | onGosub selector _ => [selector]
  | read targets => targets
  | dim arrays => arrays.flatMap Expr.children
  | defFn _ _ body => [body]
  | input _ _ targets => targets
  | timer _ interval which _ => interval :: which.toList
  | rsx _ args => args.map RsxArg.expr
  | _ => []

mutual

/-- **The words of the statement** that go into the code as they are, are of the class. -/
def Spelled (P : Char → Prop) : Stmt → Prop
  | assign target value => Spell P [target, value]
  | print _ items => Spell P (items.flatMap PrintItem.exprs)
  | write _ args => Spell P args
  | command _ args => Spell P args
  | graphics name x y pen => Text.Within P name ∧ Spell P (x :: y :: pen.toList)
  | forLoop var start stop step => Text.Within P var ∧ Spell P (start :: stop :: step.toList)
  | next vars => Text.AllWithin P vars
  | whileLoop cond => cond.Spelled P
  | branch cond yes no => cond.Spelled P ∧ AllSpelled P yes ∧ ElseSpelled P no
  | gosub label => Text.Within P label
  | onGosub selector labels => selector.Spelled P ∧ Text.AllWithin P labels
  | read targets => Spell P targets
  | restore label => ∀ l ∈ label, Text.Within P l
  | dim arrays => Spell P arrays
  | erase names => Text.AllWithin P names
  | defFn name params body => Text.Within P name ∧ Text.AllWithin P params ∧ body.Spelled P
  | input _ _ targets => Spell P targets
  | timer name interval which label =>
    Text.Within P name ∧ Spell P (interval :: which.toList) ∧ Text.Within P label
  | rsx _ args => Spell P (args.map RsxArg.expr)
  | _ => True

/-- The same for the statements of a list. -/
def AllSpelled (P : Char → Prop) : List Stmt → Prop
  | [] => True
  | s :: ss => s.Spelled P ∧ AllSpelled P ss

/-- The same for the statements of an `ELSE`. -/
def ElseSpelled (P : Char → Prop) : Option (List Stmt) → Prop
  | none => True
  | some ss => AllSpelled P ss

end

mutual

/-- The class of all characters puts no condition on statements. -/
theorem spelled_all : ∀ s : Stmt, s.Spelled fun _ => True
  | branch cond yes no => ⟨cond.spelled_all, allSpelled_all yes, elseSpelled_all no⟩
  | assign _ _ | print _ _ | write _ _ | command _ _ | read _ | dim _ | input _ _ _ | rsx _ _ => spell_all _
  | graphics _ _ _ _ | forLoop _ _ _ _ => ⟨fun _ _ => trivial, spell_all _⟩
  | whileLoop cond => cond.spelled_all
  | gosub _ => fun _ _ => trivial
  | onGosub selector _ => ⟨selector.spelled_all, fun _ _ _ _ => trivial⟩
  | restore _ | next _ | erase _ => fun _ _ _ _ => trivial
  | defFn _ _ body => ⟨fun _ _ => trivial, fun _ _ _ _ => trivial, body.spelled_all⟩
  | timer _ _ _ _ => ⟨fun _ _ => trivial, spell_all _, fun _ _ => trivial⟩
  | wend | ret | data _ | comment _ | unsupported _ _ _ | missing => trivial

theorem allSpelled_all : ∀ ss : List Stmt, AllSpelled (fun _ => True) ss
  | [] => trivial
  | s :: ss => ⟨spelled_all s, allSpelled_all ss⟩

theorem elseSpelled_all : ∀ no : Option (List Stmt), ElseSpelled (fun _ => True) no
  | none => trivial
  | some ss => allSpelled_all ss

end

/-! ## All statements -/

mutual

/-- The statement and those of its branches, in order. -/
def nodes : Stmt → List Stmt
  | branch cond yes no => branch cond yes no :: (nodesOf yes ++ nodesElse no)
  | s => [s]

/-- The statements of a list and of their branches, in order. -/
def nodesOf : List Stmt → List Stmt
  | [] => []
  | s :: ss => s.nodes ++ nodesOf ss

/-- The same for the statements of an `ELSE`. -/
def nodesElse : Option (List Stmt) → List Stmt
  | none => []
  | some ss => nodesOf ss

end

theorem nodes_of_not_branch {s : Stmt} (h : s.isBranch = false) : s.nodes = [s] := by
  cases s with
  | branch => cases h
  | _ => rfl

/-! ## What is shown -/

/-- The text of a comment. -/
def remark? : Stmt → Option String
  | comment text => some text
  | _ => none

/-- The text of a statement that has no counterpart. -/
def unsupported? : Stmt → Option String
  | unsupported _ text _ => some text
  | _ => none

mutual

/-- What is picked of a statement, or of those in its branches, in order. -/
def gather (pick : Stmt → Option String) : Stmt → List String
  | branch _ yes no => gatherOf pick yes ++ gatherElse pick no
  | s => (pick s).toList

/-- What is picked of the statements of a list, in order. -/
def gatherOf (pick : Stmt → Option String) : List Stmt → List String
  | [] => []
  | s :: ss => s.gather pick ++ gatherOf pick ss

/-- What is picked of the statements of an `ELSE`, in order. -/
def gatherElse (pick : Stmt → Option String) : Option (List Stmt) → List String
  | none => []
  | some ss => gatherOf pick ss

end

mutual

/-- The items of a `DATA` statement, or of those in the branches of an `IF`: one list for each
statement, in order. -/
def dataLists : Stmt → List (List DataItem)
  | data items => [items]
  | branch _ yes no => dataListsOf yes ++ dataListsElse no
  | _ => []

/-- The same for the statements of a list. -/
def dataListsOf : List Stmt → List (List DataItem)
  | [] => []
  | s :: ss => s.dataLists ++ dataListsOf ss

/-- The same for the statements of an `ELSE`. -/
def dataListsElse : Option (List Stmt) → List (List DataItem)
  | none => []
  | some ss => dataListsOf ss

end

end Stmt

end Locomotive
