import Locomotive.Proofs.Expr.Alike
import Locomotive.Proofs.Stmt.Nesting
import Locomotive.Proofs.Strict

/-!
# Programs with other lines

A program records where its numbers, its lines and its statements without a counterpart stand, and quotes the
latter. `recast` moves all of them to other lines and changes the quotations, and nothing else.

* `Stmt.recast`, `Line.recast`: the changes.
* `Stmt.recast_recast`: one change after another.
* `Stmt.recastAll_eq_self`: where nothing is quoted, the quotations do not matter.
-/

namespace Locomotive

/-- The element with its numbers on other lines. -/
def PrintItem.renumber (g : Int → Int) : PrintItem → PrintItem
  | value e => value (e.renumber g)
  | comma => comma
  | semicolon => semicolon
  | tab e => tab (e.renumber g)
  | spc e => spc (e.renumber g)
  | formatted format v => formatted (format.renumber g) (v.renumber g)
  | nothing => nothing

/-- The argument with its numbers on other lines. -/
def RsxArg.renumber (g : Int → Int) (a : RsxArg) : RsxArg := ⟨a.expr.renumber g, a.out⟩

namespace Stmt

mutual

/-- **The statement on other lines**: `g` gives the new line, and `f` the new quotation. -/
def recast (g : Int → Int) (f : String → String) : Stmt → Stmt
  | assign target value => assign (target.renumber g) (value.renumber g)
  | print stream items => print (stream.map (Expr.renumber g)) (items.map (PrintItem.renumber g))
  | write stream args => write (stream.map (Expr.renumber g)) (args.map (Expr.renumber g))
  | command c args => command c (args.map (Expr.renumber g))
  | graphics name x y pen => graphics name (x.renumber g) (y.renumber g) (pen.map (Expr.renumber g))
  | forLoop var start stop step => forLoop var (start.renumber g) (stop.renumber g) (step.map (Expr.renumber g))
  | next vars => next vars
  | whileLoop cond => whileLoop (cond.renumber g)
  | wend => wend
  | branch cond yes no => branch (cond.renumber g) (recastAll g f yes) (recastElse g f no)
  | gosub label => gosub label
  | ret => ret
  | onGosub selector labels => onGosub (selector.renumber g) labels
  | data items => data items
  | read targets => read (targets.map (Expr.renumber g))
  | restore label => restore label
  | dim arrays => dim (arrays.map (Expr.renumber g))
  | erase names => erase names
  | defFn name params body => defFn name params (body.renumber g)
  | input prompt question targets => input prompt question (targets.map (Expr.renumber g))
  | timer name interval number label => timer name (interval.renumber g) (number.map (Expr.renumber g)) label
  | rsx name args => rsx name (args.map (RsxArg.renumber g))
  | comment text => comment text
  | unsupported keyword text line => unsupported keyword (f text) (g line)
  | missing => missing

/-- The statements of a list on other lines. -/
def recastAll (g : Int → Int) (f : String → String) : List Stmt → List Stmt
  | [] => []
  | s :: ss => recast g f s :: recastAll g f ss

/-- The statements of an `ELSE` on other lines. -/
def recastElse (g : Int → Int) (f : String → String) : Option (List Stmt) → Option (List Stmt)
  | none => none
  | some ss => some (recastAll g f ss)

end

end Stmt

/-- The line somewhere else. -/
def Line.recast (g : Int → Int) (f : String → String) (l : Line) : Line :=
  ⟨g l.number, l.label, Stmt.recastAll g f l.stmts⟩

/-! ## One change after another -/

section

variable (g h : Int → Int) (f k : String → String)

theorem PrintItem.renumber_renumber (i : PrintItem) :
    (i.renumber g).renumber h = i.renumber fun n => h (g n) := by
  cases i <;> simp only [PrintItem.renumber, Expr.renumber_renumber]

theorem RsxArg.renumber_renumber (a : RsxArg) : (a.renumber g).renumber h = a.renumber fun n => h (g n) := by
  simp only [RsxArg.renumber, Expr.renumber_renumber]

namespace Stmt

theorem map_renumber_renumber (es : List Expr) :
    (es.map (Expr.renumber g)).map (Expr.renumber h) = es.map (Expr.renumber fun n => h (g n)) := by
  simp only [List.map_map, Function.comp_def, Expr.renumber_renumber]

theorem optionMap_renumber_renumber (e : Option Expr) :
    (e.map (Expr.renumber g)).map (Expr.renumber h) = e.map (Expr.renumber fun n => h (g n)) := by
  simp only [Option.map_map, Function.comp_def, Expr.renumber_renumber]

mutual

/-- **One change after another** is one change. -/
theorem recast_recast : ∀ s : Stmt, (s.recast g f).recast h k = s.recast (fun n => h (g n)) fun x => k (f x)
  | branch cond yes no => by
    simp only [recast, Expr.renumber_renumber, recastAll_recastAll yes, recastElse_recastElse no]
  | print stream items => by
    simp only [recast, optionMap_renumber_renumber, List.map_map, Function.comp_def, PrintItem.renumber_renumber]
  | rsx name args => by
    simp only [recast, List.map_map, Function.comp_def, RsxArg.renumber_renumber]
  | assign _ _ | write _ _ | command _ _ | graphics _ _ _ _ | forLoop _ _ _ _ | next _ | whileLoop _ | wend
  | gosub _ | ret | onGosub _ _ | data _ | read _ | restore _ | dim _ | erase _ | defFn _ _ _ | input _ _ _
  | timer _ _ _ _ | comment _ | unsupported _ _ _ | missing => by
    simp only [recast, Expr.renumber_renumber, map_renumber_renumber, optionMap_renumber_renumber]

theorem recastAll_recastAll : ∀ ss : List Stmt,
    recastAll h k (recastAll g f ss) = recastAll (fun n => h (g n)) (fun x => k (f x)) ss
  | [] => rfl
  | s :: ss => by simp only [recastAll, recast_recast s, recastAll_recastAll ss]

theorem recastElse_recastElse : ∀ no : Option (List Stmt),
    recastElse h k (recastElse g f no) = recastElse (fun n => h (g n)) (fun x => k (f x)) no
  | none => rfl
  | some ss => by simp only [recastElse, recastAll_recastAll ss]

end

@[simp] theorem isBranch_recast (s : Stmt) : (s.recast g f).isBranch = s.isBranch := by
  cases s <;> rfl

theorem isEmpty_recastAll (ss : List Stmt) : (recastAll g f ss).isEmpty = ss.isEmpty := by
  cases ss <;> rfl

/-! ## What does not change -/

theorem map_renumber_id (es : List Expr) : es.map (Expr.renumber id) = es := List.map_id'' Expr.renumber_id es

theorem optionMap_renumber_id (e : Option Expr) : e.map (Expr.renumber id) = e := by
  cases e <;> simp

theorem renumberItem_id (i : PrintItem) : i.renumber id = i := by
  cases i <;> simp [PrintItem.renumber]

theorem renumberArg_id (a : RsxArg) : a.renumber id = a := by
  simp [RsxArg.renumber]

variable {f}

/-- **Statements on their own lines** stay as they are, if their quotations do. -/
theorem recastAll_eq_self (ss : List Stmt) : (∀ x ∈ gatherOf unsupported? ss, f x = x) → recastAll id f ss = ss := by
  refine Hereditary.all (P := fun s => (∀ x ∈ s.gather unsupported?, f x = x) → s.recast id f = s)
    (Q := fun ss => (∀ x ∈ gatherOf unsupported? ss, f x = x) → recastAll id f ss = ss) ⟨?_, ?_, fun _ => rfl, ?_⟩ ss
  · intro s hs hf
    cases s with
    | branch => cases hs
    | print => simp only [recast, optionMap_renumber_id, List.map_id'' renumberItem_id]
    | rsx => simp only [recast, List.map_id'' renumberArg_id]
    | unsupported keyword text line =>
      rw [recast, hf text (by simp [gather, unsupported?])]
      rfl
    | _ => simp only [recast, Expr.renumber_id, map_renumber_id, optionMap_renumber_id]
  · intro cond yes no hyes hno hf
    rw [gather, List.forall_mem_append] at hf
    rw [recast, Expr.renumber_id, hyes hf.1]
    cases no with
    | none => rfl
    | some ss => rw [recastElse, hno ss rfl hf.2]
  · intro s ss hs hss hf
    rw [gatherOf, List.forall_mem_append] at hf
    rw [recastAll, hs hf.1, hss hf.2]

/-- The quotations of the statements somewhere else. -/
theorem gatherOf_recastAll (ss : List Stmt) :
    gatherOf unsupported? (recastAll g f ss) = (gatherOf unsupported? ss).map f := by
  refine Hereditary.all (P := fun s => (s.recast g f).gather unsupported? = (s.gather unsupported?).map f)
    (Q := fun ss => gatherOf unsupported? (recastAll g f ss) = (gatherOf unsupported? ss).map f) ⟨?_, ?_, rfl, ?_⟩ ss
  · intro s hs
    cases s with
    | branch => cases hs
    | _ => rfl
  · intro cond yes no hyes hno
    rw [recast, gather, gather, hyes, List.map_append]
    cases no with
    | none => rfl
    | some ss => exact congrArg _ (hno ss rfl)
  · intro s ss hs hss
    rw [recastAll, gatherOf, gatherOf, hs, hss, List.map_append]

/-- A statement has a counterpart wherever it stands. -/
theorem allSupported_recastAll {ss : List Stmt} : AllSupported (recastAll g f ss) ↔ AllSupported ss := by
  rw [AllSupported, AllSupported, gatherOf_recastAll, List.map_eq_nil_iff]

end Stmt

theorem Line.recast_id (l : Line) : l.recast id id = l := by
  have hstmts : Stmt.recastAll id id l.stmts = l.stmts := Stmt.recastAll_eq_self l.stmts fun x _ => rfl
  rw [Line.recast, hstmts]
  rfl

end

end Locomotive
