import Locomotive.Compiler
import Locomotive.Proofs.Emit.Draft
import Mathlib.Data.List.Forall2

/-!
# Whole numbers

A name that ends with `%` is that of a variable or an array for whole numbers. The writes of the generated code are
those of the source, in order: what an assignment stores in such a place is rounded, whatever its value is. `READ`,
`INPUT` and external commands store what they are given, a loop starts with its value as it is and moves on by its
step, and nothing of this is rounded.

* `Write`, `Program.writes`: what the statements of a program write to.
* `Js.Write`, `Js.Stmt.writesOf`: what generated code writes to.
* `Stmt.writes_code`: they are the same.
* `Program.generate_rounds_assignments`: which of them are rounded.
-/

namespace Locomotive

/-! ## Writes -/

/-- What is stored by a write. -/
inductive Write.Means where
  | assign (value : Expr)
  | read
  | input (prompt : String)
  /-- The answer of an external command to the arguments that it is given. -/
  | external (name : String) (args : List Expr)
  /-- The first value of a loop. -/
  | start (value : Expr)
  /-- The next value of a loop. -/
  | step (stride : Option Expr)
  /-- A whole array is made. -/
  | dim (name : String) (sizes : List Expr)
  /-- A whole array is erased. -/
  | erase

/-- **A write of the source.** Only an external command writes to several places at once. -/
structure Write where
  places : List Expr
  means : Write.Means

namespace Stmt

/-- The writes of an `INPUT`, which asks with its prompt for the first value only. -/
def inputWrites (prompt : String) : List Expr → List Write
  | [] => []
  | e :: es => ⟨[e], .input prompt⟩ :: es.map fun e => ⟨[e], .input "? "⟩

/-- The writes of a statement, those of its branches left out. -/
def writes : Stmt → List Write
  | assign place value => [⟨[place], .assign value⟩]
  | read targets => targets.map fun e => ⟨[e], .read⟩
  | input prompt question targets => inputWrites (if question then prompt ++ "? " else prompt) targets
  | rsx name args =>
    let outs := (args.filter RsxArg.out).map RsxArg.expr
    if outs.isEmpty then [] else [⟨outs, .external name ((args.filter fun a => !a.out).map RsxArg.expr)⟩]
  | forLoop var start _ stride => [⟨[.var var], .start start⟩, ⟨[.var var], .step stride⟩]
  | dim arrays => arrays.filterMap fun
    | .index name sizes => some ⟨[.var name], .dim name sizes⟩
    | _ => none
  | erase names => names.map fun a => ⟨[.var a], .erase⟩
  | _ => []

end Stmt

/-- **The writes of a program**, in order. -/
def Program.writes (p : Program) : List Write := p.lines.flatMap fun l => (Stmt.nodesOf l.stmts).flatMap Stmt.writes

namespace Js

/-- What generated code stores. -/
inductive Stored where
  | value (e : Expr)
  /-- A counter, moved on by a step. -/
  | moved (step : Step)

/-- The value is passed through `Math.round`. -/
def Stored.Rounded (s : Stored) : Prop := ∃ x, s = .value (Emit.math "round" [x])

/-- **A write of generated code.** -/
structure Write where
  target : Expr
  stored : Stored

namespace Stmt

mutual

/-- The writes of a statement of generated code, in order. -/
def writes : Stmt → List Write
  | assign target value => [⟨target, .value value⟩]
  | forLoop var start _ step => [⟨.atom var, .value start⟩, ⟨.atom var, .moved step⟩]
  | branch _ yes no => writesOf yes ++ writesElse no
  | _ => []

/-- The writes of a list of statements, in order. -/
def writesOf : List Stmt → List Write
  | [] => []
  | s :: ss => s.writes ++ writesOf ss

/-- The writes of an `else`, in order. -/
def writesElse : Option (List Stmt) → List Write
  | none => []
  | some ss => writesOf ss

end

theorem writesOf_eq (ss : List Stmt) : writesOf ss = ss.flatMap writes := by
  induction ss with
  | nil => rfl
  | cons s ss ih => rw [writesOf, ih, List.flatMap_cons]

end Stmt

end Js

/-! ## What becomes of writes -/

namespace Write

open Emit (math stepCode)

/-- What is written to, in a mode. -/
def target (μ : Mode) (w : Write) : Js.Expr :=
  match w.means, w.places with
  | .external _ _, places => .array (places.map (Expr.code μ))
  | _, e :: _ => e.code μ
  | _, [] => .array []

/-- What is stored, in a mode. -/
def stored (μ : Mode) (w : Write) : Js.Stored :=
  match w.means with
  | .assign value =>
    .value (if w.places.any Expr.isInteger then math "round" [value.code μ] else value.code μ)
  | .read => .value (.call "read" [])
  | .input prompt => .value (.unary .await (.call "input" [.atom (Js.quote prompt),
      .atom (if w.places.any fun e => e.type = .string then "false" else "true")]))
  | .external name args => .value (.unary .await (.call "rsx" [.atom (Js.quote name), .array (args.map (Expr.code μ))]))
  | .start value => .value (value.code μ)
  | .step stride => .moved (stepCode μ stride)
  | .dim name sizes => .value (.call "dim" (.array (sizes.map (Expr.code μ)) ::
      if Ty.ofName name = .string then [Js.Expr.atom "\"\""] else []))
  | .erase => .value (.array [])

/-- The write in generated code. -/
def code (μ : Mode) (w : Write) : Js.Write := ⟨w.target μ, w.stored μ⟩

/-- **What a write becomes in the generated code.** -/
structure Emits (w : Write) (j : Js.Write) : Prop where
  code : ∃ μ, j = w.code μ
  /-- An assignment to a place for whole numbers is rounded. -/
  assigned : ∀ value, w.means = .assign value → (∃ e ∈ w.places, e.isInteger = true) → j.stored.Rounded
  /-- Nothing else is, except that a loop may start with a value that the source rounds. -/
  other : (∀ value, w.means ≠ .assign value) → (∀ value, w.means ≠ .start value) → ¬ j.stored.Rounded

theorem emits (w : Write) (μ : Mode) : w.Emits (w.code μ) := by
  obtain ⟨places, means⟩ := w
  refine ⟨⟨μ, rfl⟩, ?_, ?_⟩
  · rintro value rfl ⟨e, he, hinteger⟩
    have hany : places.any Expr.isInteger = true := List.any_eq_true.2 ⟨e, he, hinteger⟩
    exact ⟨value.code μ, by simp only [code, stored, hany, if_true]⟩
  · rintro hassign hstart ⟨x, hx⟩
    cases means with
    | assign value => exact hassign value rfl
    | start value => exact hstart value rfl
    | _ => cases hx

end Write

namespace Stmt

open Emit

/-- Statements that write once each. -/
theorem writes_map {α : Type} {μ : Mode} {f : α → Write} {g : α → Js.Stmt} (h : ∀ a, (g a).writes = [(f a).code μ])
    (as : List α) : (as.map g).flatMap Js.Stmt.writes = (as.map f).map (Write.code μ) := by
  induction as with
  | nil => rfl
  | cons a as ih => rw [List.map_cons, List.flatMap_cons, h, ih, List.map_cons, List.map_cons, List.singleton_append]

theorem writes_dim (μ : Mode) (arrays : List Expr) :
    (arrays.map (dimCode μ)).flatMap Js.Stmt.writes = (dim arrays).writes.map (Write.code μ) := by
  induction arrays with
  | nil => rfl
  | cons e arrays ih =>
    rw [List.map_cons, List.flatMap_cons, ih]
    cases e <;> rfl

theorem writes_rsx (μ : Mode) (name : String) (args : List RsxArg) :
    (rsxCode μ name args).writes = (rsx name args).writes.map (Write.code μ) := by
  unfold rsxCode writes
  dsimp only
  rw [List.isEmpty_map, List.isEmpty_map]
  split
  · rfl
  · simp [Js.Stmt.writes, Write.code, Write.target, Write.stored, Function.comp_def]

/-- A statement other than `IF`. -/
theorem writes_simple {s : Stmt} (hs : s.isBranch = false) (t : Tables) :
    Js.Stmt.writesOf (s.code t) = s.writes.map (Write.code t.mode) := by
  rw [Js.Stmt.writesOf_eq]
  cases s with
  | branch => cases hs
  | assign place value => simp [code, writes, Js.Stmt.writes, Write.code, Write.target, Write.stored]
  | read targets => exact writes_map (fun e => rfl) targets
  | input prompt question targets =>
    cases targets with
    | nil => rfl
    | cons e es =>
      have hone : ∀ (prompt : String) (e : Expr), (inputCode t.mode prompt e).writes =
          [Write.code t.mode ⟨[e], .input prompt⟩] := fun prompt e => by
        simp [inputCode, Js.Stmt.writes, Write.code, Write.target, Write.stored]
      exact congrArg₂ (· ++ ·) (hone _ e) (writes_map (hone "? ") es)
  | rsx name args => exact (List.append_nil _).trans (writes_rsx t.mode name args)
  | forLoop var start stop stride => rfl
  | dim arrays => exact writes_dim t.mode arrays
  | erase names =>
    rw [code, List.map_map]
    exact writes_map (fun a => rfl) names
  | next vars => simp [code, writes, Js.Stmt.writes]
  | command c args => cases c <;> rfl
  | _ => rfl

/-- **The writes of code** are those of its statements, in order. -/
theorem writes_code (ss : List Stmt) :
    ∀ t, List.Forall₂ Write.Emits ((nodesOf ss).flatMap writes) (Js.Stmt.writesOf (codeOf t ss)) := by
  have hone : ∀ s : Stmt, nodesOf [s] = s.nodes := fun s => List.append_nil _
  induction ss using Stmt.induct with
  | nil => exact fun t => .nil
  | cons s ss hs hss =>
    intro t
    have hs := hs t
    rw [codeOf_one, hone] at hs
    rw [nodesOf, List.flatMap_append, codeOf, Js.Stmt.writesOf_eq, List.flatMap_append, ← Js.Stmt.writesOf_eq,
      ← Js.Stmt.writesOf_eq]
    exact List.rel_append hs (hss _)
  | branch cond yes no hyes hno =>
    intro t
    obtain ⟨t₁, t₂, -, -, -, heq⟩ := branch_eq t cond yes no
    have hno := hno t₂
    have hbranch : (nodesOf [branch cond yes no]).flatMap writes =
        (nodesOf yes).flatMap writes ++ (nodesOf (no.getD [])).flatMap writes := by
      rw [hone, nodes, List.flatMap_cons, List.flatMap_append]
      cases no <;> rfl
    have hcode : Js.Stmt.writesOf (codeOf t [branch cond yes no]) =
        Js.Stmt.writesOf (codeOf t₁ yes) ++ Js.Stmt.writesOf (codeOf t₂ (no.getD [])) := by
      rw [heq, Js.Stmt.writesOf, Js.Stmt.writesOf, List.append_nil, Js.Stmt.writes]
      cases no <;> rfl
    rw [hbranch, hcode]
    exact List.rel_append (hyes t₁) hno
  | simple s hs =>
    intro t
    rw [codeOf_one, hone, nodes_of_not_branch hs, List.flatMap_singleton, writes_simple hs t,
      List.forall₂_map_right_iff, List.forall₂_same]
    exact fun w _ => w.emits t.mode

end Stmt

theorem Emit.CompilesAll.writes {ls : List Line} {i : Nat} {t t' : Tables} {cs : List LineCode} (h : CompilesAll i ls t cs t') :
    List.Forall₂ Write.Emits (ls.flatMap fun l => (Stmt.nodesOf l.stmts).flatMap Stmt.writes)
      (cs.flatMap fun c => Js.Stmt.writesOf c.code) := by
  induction h with
  | nil => exact .nil
  | @cons i l ls t t₁ t₂ t' t'' c cs _ hc _ ih =>
    rw [List.flatMap_cons, List.flatMap_cons, hc.code]
    exact List.rel_append (Stmt.writes_code l.stmts t₁) ih

/-- The writes of the code of a draft, in the order of its lines. -/
def Draft.writes {p : Program} {text : String} {after : Tables} (d : Draft p text after) : List Js.Write :=
  d.codes.flatMap fun c => Js.Stmt.writesOf c.code

/-- **Which writes are rounded**, in every program that is generated: the writes of the code are those of the source,
one by one, and of those to whole numbers the assignments are rounded. -/
theorem Program.generate_rounds_assignments {p : Program} {text : String} {after : Tables}
    (h : p.generate = (.ok text, after)) : ∃ d : Draft p text after, List.Forall₂ Write.Emits p.writes d.writes := by
  obtain ⟨d⟩ := exists_draft h
  obtain ⟨t, hrun, -⟩ := d.lines_eq
  exact ⟨d, ((Emit.lines_compiles 0 p.lines p.start).of_ok hrun).writes⟩

/-- An assignment, a loop and a `READ`, all to whole numbers. -/
theorem Program.generate_rounds_assignments_mixed : ∃ (p : Program) (text : String) (after : Tables),
    Program.parse false (Token.scan "10 a%=1.5:FOR i%=0 TO 3:READ b%(i%):NEXT:DATA 1,2,3,4".toList).tokens
      "10 a%=1.5:FOR i%=0 TO 3:READ b%(i%):NEXT:DATA 1,2,3,4".toList = .ok p ∧
    (p.writes.map fun w => w.places.any Expr.isInteger) = [true, true, true, true] ∧ p.generate = (.ok text, after) ∧
    ∃ d : Draft p text after, List.Forall₂ Write.Emits p.writes d.writes := by
  generalize hsource : "10 a%=1.5:FOR i%=0 TO 3:READ b%(i%):NEXT:DATA 1,2,3,4".toList = source
  have hrun : (Program.parse false (Token.scan source).tokens source).toOption.any (fun p =>
      p.generate.1.toOption.isSome && (p.writes.map fun w => w.places.any Expr.isInteger) == [true, true, true, true]) =
        true := by
    rw [← hsource]
    decide +kernel
  obtain ⟨p, hp, hrun⟩ := exists_ok_of_any hrun
  obtain ⟨hok, hwrites⟩ := (Bool.and_eq_true _ _).mp hrun
  obtain ⟨text, hg⟩ := exists_ok_of_isSome hok
  have hgenerate : p.generate = (.ok text, p.generate.2) := Prod.ext hg rfl
  exact ⟨p, text, _, hp, eq_of_beq hwrites, hgenerate, generate_rounds_assignments hgenerate⟩

/-- **A `READ` stores a fraction in a place for whole numbers.** -/
theorem read_is_not_rounded :
    (compile false "10 READ a%\n20 DATA 1.5".toList).result.toOption.any (fun text => Text.startsWith text
      ("let aI = 0;\nconst _data = [1.5];\nconst _restoreMap = \x7b\x7d;\nlet _dataPtr = 0;\naI = read();\n")) = true := by
  decide +kernel

end Locomotive
