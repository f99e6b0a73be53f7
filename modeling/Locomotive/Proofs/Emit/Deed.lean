import Locomotive.Emit.Stmt
import Locomotive.Proofs.Emit.Code
import Locomotive.Proofs.Stmt.Nesting

/-!
# The code of statements and what it does to the tables

What generating the code of a statement gives and does to the tables is a function of the tables
before it (`Stmt.code`, `Stmt.deeds`). A proper statement has code unless its blocks are not nested, and then
that is why it has none.

* `Deed`, `Tables.perform`: what generating code does to the tables.
* `Stmt.references`: the references to subroutines that a statement makes.
* `Failure.IsNesting`: the failures that are about the nesting of blocks.
* `Emit.stmts_does`: the code of a list of statements.
-/

namespace Locomotive

/-! ## References -/

/-- A reference to subroutines, as a statement makes it. -/
inductive Reference where
  /-- `GOSUB`. -/
  | call (label : String)
  /-- `ON … GOSUB`. -/
  | select (labels : List String)
  /-- `AFTER` and `EVERY`, which do not call the subroutine themselves. -/
  | schedule (label : String)
  deriving DecidableEq, Repr

namespace Reference

/-- The kind and the labels in the tables. -/
def shape : Reference → CallKind × List String
  | call label => (.direct, [label])
  | select labels => (.indexed, labels)
  | schedule label => (.reference, [label])

/-- The subroutines that are called. -/
def calls : Reference → List String
  | call label => [label]
  | select labels => labels
  | schedule _ => []

end Reference

namespace Stmt

mutual

/-- The references to subroutines that a statement makes, in order. -/
def references : Stmt → List Reference
  | gosub label => [.call label]
  | onGosub _ labels => [.select labels]
  | timer _ _ _ label => [.schedule label]
  | branch _ yes no => referencesOf yes ++ referencesOfElse no
  | _ => []

/-- The references that the statements of a list make. -/
def referencesOf : List Stmt → List Reference
  | [] => []
  | s :: ss => s.references ++ referencesOf ss

/-- The references that the statements of an `ELSE` make. -/
def referencesOfElse : Option (List Stmt) → List Reference
  | none => []
  | some ss => referencesOf ss

end

/-- Induction over lists of statements: what holds of one statement before others holds of all. -/
theorem induct {P : List Stmt → Prop} (nil : P []) (cons : ∀ s ss, P [s] → P ss → P (s :: ss))
    (branch : ∀ cond yes no, P yes → P (no.getD []) → P [branch cond yes no])
    (simple : ∀ s : Stmt, s.isBranch = false → P [s]) (ss : List Stmt) : P ss := by
  refine Hereditary.all (P := fun s => P [s]) ⟨simple, fun cond yes no hyes hno => branch cond yes no hyes ?_, nil, cons⟩ ss
  cases no with
  | none => exact nil
  | some ss => exact hno ss rfl

end Stmt

/-! ## Deeds -/

/-- What generating the code of a statement does to the tables. -/
inductive Deed where
  | effect (e : Effect)
  | refer (r : Reference) (selector : String)
  /-- Blocks are opened or closed. -/
  | indent (delta : Int)
  | data (literals : List String)
  | deg (on : Bool)
  | tag (on : Bool)
  /-- A function is defined, and its body has the given effects. -/
  | define (name : String) (params : List String) (body : List Effect)

/-- The tables after a deed. Whether the body of a function waits does not matter to its line. -/
def Deed.run (t : Tables) : Deed → Tables
  | effect e => e.run t
  | refer r selector => (t.addSite r.shape.1 r.shape.2 selector).2
  | indent delta => { t with indent := t.indent + delta }
  | data literals => t.addData literals
  | deg on => { t with deg := on }
  | tag on => { t with tag := on }
  | define name params body =>
    let after := ({ t with binding := .body (params.map Js.identifier), waits := false } : Tables).undergo body
    { after with
      binding := .outside, waits := t.waits,
      asyncFns := after.asyncFns ++ if body.any Effect.isWait then [Js.identifier name] else [] }

namespace Tables

/-- The tables after a list of deeds. -/
def perform (t : Tables) (ds : List Deed) : Tables := ds.foldl Deed.run t

@[simp] theorem perform_nil (t : Tables) : t.perform [] = t := rfl

@[simp] theorem perform_cons (t : Tables) (d : Deed) (ds : List Deed) :
    t.perform (d :: ds) = (d.run t).perform ds := rfl

@[simp] theorem perform_append (t : Tables) (ds ds' : List Deed) :
    t.perform (ds ++ ds') = (t.perform ds).perform ds' := List.foldl_append

@[simp] theorem indent_undergo (t : Tables) (es : List Effect) : (t.undergo es).indent = t.indent := by
  obtain ⟨_, _, _, _, _, h⟩ := (t.undergone es).keeps
  rw [h]

@[simp] theorem callSites_undergo (t : Tables) (es : List Effect) : (t.undergo es).callSites = t.callSites := by
  obtain ⟨_, _, _, _, _, h⟩ := (t.undergone es).keeps
  rw [h]

@[simp] theorem perform_effects (t : Tables) (es : List Effect) : t.perform (es.map .effect) = t.undergo es :=
  List.foldl_map

end Tables

/-! ## Code -/

/-- The code of an element of a `PRINT` list. -/
def PrintItem.code (μ : Mode) : PrintItem → List Js.Expr
  | value e => [e.code μ]
  | comma => [.directive "commaTab" []]
  | tab e => [.directive "tab" [e.code μ]]
  | spc e => [.directive "spc" [e.code μ]]
  | formatted f v => [.call "dec$" [v.code μ, f.code μ]]
  | semicolon => []
  | nothing => []

/-- The effects of an element of a `PRINT` list. -/
def PrintItem.effects (μ : Mode) : PrintItem → List Effect
  | value e => e.effects μ
  | tab e => e.effects μ
  | spc e => e.effects μ
  | formatted f v => .helper "dec$" :: (v.effects μ ++ f.effects μ)
  | _ => []

/-- The literal of an item. -/
def DataItem.literal : DataItem → String
  | .text value => Js.quote value
  | .number radix written => Js.numberLiteral radix written

/-- The effects of an item. -/
def DataItem.effects : DataItem → List Effect
  | .text _ => []
  | .number radix written => numberEffects radix written

namespace Command

/-- The code of a command from that of its arguments. -/
def code (c : Command) (xs : List Js.Expr) : List Js.Stmt :=
  match c with
  | stopEnd => [.retCall (.call "end" [])]
  | stop => [.retCall (.call "stop" [])]
  | frame => [.expr (.unary .await (.call "frame" []))]
  | tag => [.expr (.call "tag" [.atom "true"])]
  | tagOff => [.expr (.call "tag" [.atom "false"])]
  | c =>
    match c.helper? with
    | some name => [.expr (.call name xs)]
    | none => []

/-- The effects of a command, given those of its arguments. -/
def effects (c : Command) (es : List Effect) : List Effect :=
  match c with
  | stopEnd => [.helper "end"]
  | stop => [.helper "stop"]
  | frame => [.helper "frame", .wait]
  | deg => []
  | rad => []
  | tag => [.helper "tag"]
  | tagOff => [.helper "tag"]
  | c =>
    match c.helper? with
    | some name => .helper name :: es
    | none => []

end Command

namespace Emit

/-- The step of a loop. -/
def stepCode (μ : Mode) : Option Expr → Js.Step
  | none => .one
  | some (.unary .neg (.number radix text _)) => .down (.atom (Js.numberLiteral radix text))
  | some e => if e.isNumber then .up (e.code μ) else .signed (e.code μ)

/-- The helper that prints. -/
def printer (tag : Bool) : String := if tag then "printTag" else "print"

/-- A stream other than the screen is warned about. -/
def streamEffects : Option Expr → List Effect
  | some e => if e.isScreen then [] else [.warn (.ignoredStream e.text)]
  | none => []

/-- The end of the line that is printed. -/
def newline (items : List PrintItem) : List Js.Expr :=
  if items.getLast?.any PrintItem.continues then [] else [.atom "\"\\n\""]

/-- The code that makes an array. -/
def dimCode (μ : Mode) : Expr → Js.Stmt
  | .index name sizes => .assign (.atom (Js.identifier name)) (.call "dim" (.array (sizes.map (Expr.code μ)) ::
      if Ty.ofName name = .string then [Js.Expr.atom "\"\""] else []))
  | _ => .ret

/-- The effects of the code that makes an array. -/
def dimEffects (μ : Mode) : Expr → List Effect
  | .index name sizes => sizes.flatMap (Expr.effects μ) ++ [.mention name .array]
  | _ => []

/-- The code that asks for a value. -/
def inputCode (μ : Mode) (prompt : String) (e : Expr) : Js.Stmt :=
  .assign (e.code μ) (.unary .await (.call "input"
    [.atom (Js.quote prompt), .atom (if e.type = .string then "false" else "true")]))

/-- The code that asks for the value of each target. -/
def inputCodes (μ : Mode) (prompt : String) : List Expr → List Js.Stmt
  | [] => []
  | e :: es => inputCode μ prompt e :: es.map (inputCode μ "? ")

/-- The code of an external command. -/
def rsxCode (μ : Mode) (name : String) (args : List RsxArg) : Js.Stmt :=
  let code := fun a : RsxArg => a.expr.code μ
  let outs := (args.filter RsxArg.out).map code
  let call := Js.Expr.unary .await
    (.call "rsx" [.atom (Js.quote name), .array ((args.filter fun a => !a.out).map code)])
  if outs.isEmpty then .expr call else .assign (.array outs) call

end Emit

namespace Stmt

open Emit

/-- The effects of the code of a statement, those of its branches left out. -/
def effects (t : Tables) : Stmt → List Effect
  | assign place value => place.effects t.mode ++ value.effects t.mode
  | print stream items =>
    .helper (printer t.tag) :: (streamEffects stream ++ items.flatMap (PrintItem.effects t.mode))
  | write _ args => .helper "write" :: args.flatMap (Expr.effects t.mode)
  | command c args => c.effects (args.flatMap (Expr.effects t.mode))
  | graphics name x y pen => .helper (Text.lower name) :: (x :: y :: pen.toList).flatMap (Expr.effects t.mode)
  | forLoop var start stop stride => .mention var .number :: (start.effects t.mode ++ (stop.effects t.mode ++
      stride.toList.flatMap (Expr.effects t.mode)))
  | next vars => vars.map fun v => .mention v .number
  | whileLoop cond => cond.effects t.mode
  | branch cond _ _ => cond.effects t.mode
  | ret => if t.openSub.isNone ∧ t.indent = 0 then [.warn .strayReturn] else []
  | onGosub selector _ => selector.effects t.mode
  | data items => items.flatMap DataItem.effects
  | read targets => .helper "read" :: targets.flatMap (Expr.effects t.mode)
  | restore _ => [.helper "restore"]
  | dim arrays => .helper "dim" :: arrays.flatMap (dimEffects t.mode)
  | erase names => names.map fun a => .mention a .array
  | input _ _ targets => .helper "input" :: .wait :: targets.flatMap (Expr.effects t.mode)
  | timer name interval which _ => .helper (Text.lower name) :: .wait ::
      (interval.effects t.mode ++ which.toList.flatMap (Expr.effects t.mode))
  | rsx _ args => .helper "rsx" :: .wait :: args.flatMap fun a => a.expr.effects t.mode
  | unsupported _ text _ => [.warn (.unsupported text)]
  | _ => []

/-- What else is done for a statement, again without its branches. -/
def acts (t : Tables) : Stmt → List Deed
  | command .deg _ => [.deg true]
  | command .rad _ => [.deg false]
  | command .tag _ => [.tag true]
  | command .tagOff _ => [.tag false]
  | forLoop _ _ _ _ => [.indent 1]
  | next vars => List.replicate (max 1 vars.length) (.indent (-1))
  | whileLoop _ => [.indent 1]
  | wend => [.indent (-1)]
  | gosub label => [.refer (.call label) ""]
  | onGosub selector labels => [.refer (.select labels) (compared (selector.code t.mode)).text]
  | data items => [.data (items.map DataItem.literal)]
  | defFn name params body => [.define name params (body.effects t.mode)]
  | timer _ _ _ label => [.refer (.schedule label) ""]
  | _ => []

mutual

/-- **What generating the code of a statement does** to the tables `t`. -/
def deeds (t : Tables) : Stmt → List Deed
  | branch cond yes no =>
    let first := (cond.effects t.mode).map .effect
    let inner := .indent 1 :: (deedsOf ((t.perform first).perform [.indent 1]) yes ++ [.indent (-1)])
    first ++ (inner ++ deedsOfElse ((t.perform first).perform inner) no)
  | s => (s.effects t).map .effect ++ s.acts t

/-- What generating the code of a list of statements does. -/
def deedsOf (t : Tables) : List Stmt → List Deed
  | [] => []
  | s :: ss => s.deeds t ++ deedsOf (t.perform (s.deeds t)) ss

/-- What generating the code of an `ELSE` does. -/
def deedsOfElse (t : Tables) : Option (List Stmt) → List Deed
  | none => []
  | some ss => .indent 1 :: (deedsOf (t.perform [.indent 1]) ss ++ [.indent (-1)])

end

mutual

/-- **The code of a statement**, generated with the tables `t`. -/
def code (t : Tables) : Stmt → List Js.Stmt
  | assign place value => [.assign (place.code t.mode)
      (if place.isInteger then math "round" [value.code t.mode] else value.code t.mode)]
  | print _ items => [.expr (.call (printer t.tag) (items.flatMap (PrintItem.code t.mode) ++ newline items))]
  | write _ args => [.expr (.call "write" (args.map (Expr.code t.mode)))]
  | command c args => c.code (args.map (Expr.code t.mode))
  | graphics name x y pen =>
    [.expr (.call (Text.lower name) ((x :: y :: pen.toList).map (Expr.code t.mode)))]
  | forLoop var start stop stride => [.forLoop (Js.identifier var) (start.code t.mode)
      (compared (stop.code t.mode)) (stepCode t.mode stride)]
  | next vars => List.replicate (max 1 vars.length) .close
  | whileLoop cond => [.whileLoop (cond.conditionCode t.mode)]
  | wend => [.close]
  | branch cond yes no =>
    let first := (cond.effects t.mode).map .effect
    let inner := .indent 1 :: (deedsOf ((t.perform first).perform [.indent 1]) yes ++ [.indent (-1)])
    [.branch (cond.conditionCode t.mode) (codeOf ((t.perform first).perform [.indent 1]) yes)
      (codeOfElse ((t.perform first).perform inner) no)]
  | gosub _ => [.expr (.site t.callSites.length)]
  | ret => [.ret]
  | onGosub selector _ => [.expr (.selected t.callSites.length (compared (selector.code t.mode)))]
  | data _ => []
  | read targets => targets.map fun e => .assign (e.code t.mode) (.call "read" [])
  | restore label => [.expr (.call "restore" (label.toList.map .atom))]
  | dim arrays => arrays.map (dimCode t.mode)
  | erase names => (names.map Js.identifier).map fun a => .assign (.atom a) (.array [])
  | defFn name params body => [.arrow (Js.identifier name)
      ((body.effects t.mode).any Effect.isWait) (params.map Js.identifier) (body.code t.mode)]
  | input prompt question targets => inputCodes t.mode (if question then prompt ++ "? " else prompt) targets
  | timer name interval which _ => [.expr (.unary .await (.call (Text.lower name)
      [interval.code t.mode, (which.map (Expr.code t.mode)).getD (.atom "0"), .site t.callSites.length]))]
  | rsx name args => [rsxCode t.mode name args]
  | comment text => [.comment (Js.stripMarks (Text.trim text))]
  | unsupported _ text _ => [.note (Js.unsupportedNote text)]
  | missing => []

/-- The code of a list of statements. -/
def codeOf (t : Tables) : List Stmt → List Js.Stmt
  | [] => []
  | s :: ss => s.code t ++ codeOf (t.perform (s.deeds t)) ss

/-- The code of an `ELSE`. -/
def codeOfElse (t : Tables) : Option (List Stmt) → Option (List Js.Stmt)
  | none => none
  | some ss => some (codeOf (t.perform [.indent 1]) ss)

end

end Stmt

/-- **Failures of nesting.** Too many loops are closed, or not enough. -/
inductive Failure.IsNesting : Failure → Prop
  | mismatch (line indent : Int) : IsNesting (.broken (.nesting line indent))
  | openInBranch (line : Option Int) : IsNesting (.refused line .openInBranch)
  | unclosed (line : Option Int) (count : Int) : IsNesting (.refused line (.unclosed count))

theorem Failure.IsNesting.atLine {f : Failure} (h : f.IsNesting) (line : Int) : (f.atLine line).IsNesting := by
  cases h with
  | mismatch => exact .mismatch ..
  | openInBranch => exact .openInBranch _
  | unclosed => exact .unclosed ..

namespace Emit

variable {α : Type} {t : Tables} {code : List Js.Stmt} {ds : List Deed} {proper : Prop}
  {depth? : Nat → Option Nat}

/-! ## Generating code -/

/-- The action gives the code and does the deeds, and from `n` open blocks it leads to `depth? n`. If all
is proper, it fails only for the nesting. -/
def Does (m : Emit α) (t : Tables) (code : α) (ds : List Deed) (proper : Prop) (depth? : Nat → Option Nat) : Prop :=
  Ends m t (fun c t' => c = code ∧ t' = t.perform ds ∧
      ∀ n : Nat, t.indent = n → ∃ k : Nat, depth? n = some k ∧ t'.indent = k)
    fun f => proper → ∀ n : Nat, t.indent = n → f.IsNesting ∧ depth? n = none

/-- What opens and closes no blocks. -/
theorem Does.of_level {m : Emit α} {a : α} (hindent : (t.perform ds).indent = t.indent)
    (h : Ends m t (fun c t' => c = a ∧ t' = t.perform ds) fun _ => ¬ proper) : Does m t a ds proper some := by
  refine Ends.mono h ?_ fun f hn hp => absurd hp hn
  rintro _ _ ⟨rfl, rfl⟩
  exact ⟨rfl, rfl, fun n hn => ⟨n, rfl, hindent.trans hn⟩⟩

/-- What has only effects opens and closes no blocks. -/
theorem Runs.does {m : Emit α} {a : α} {μ : Mode} {es : List Effect} (h : Runs m μ a es (¬ proper)) (ht : t.mode = μ) :
    Does m t a (es.map .effect ++ []) proper some := by
  refine .of_level ?_ ?_ <;> rw [List.append_nil, Tables.perform_effects]
  · exact t.indent_undergo es
  · exact h t ht

/-- Effects come first. -/
theorem Runs.thenDoes {m : Emit α} {β : Type} {a : α} {f : α → Emit β} {b : β} {μ : Mode} {es : List Effect}
    (h : Runs m μ a es (¬ proper)) (ht : t.mode = μ)
    (hf : (t.undergo es).mode = μ → Does (f a) (t.undergo es) b ds proper depth?) :
    Does (m >>= f) t b (es.map .effect ++ ds) proper depth? := by
  refine ((h t ht).mono (fun _ _ => id) fun f hn hp => absurd hp hn).bind ?_
  rintro _ _ ⟨rfl, rfl⟩
  have hrest := hf ((t.mode_undergo es).trans ht)
  unfold Does at hrest
  rw [Tables.indent_undergo] at hrest
  rwa [Tables.perform_append, Tables.perform_effects]

namespace Does

variable {β : Type} {m : Emit α} {a : α} {b : β}

/-- One after the other. -/
theorem bind {f : α → Emit β} {ds' : List Deed} {depth?' : Nat → Option Nat} (h : Does m t a ds proper depth?)
    (hf : Does (f a) (t.perform ds) b ds' proper depth?') :
    Does (m >>= f) t b (ds ++ ds') proper fun n => (depth? n).bind depth?' := by
  refine (Ends.mono h (fun _ _ => id) ?_).bind ?_
  · intro f hf hp n hn
    obtain ⟨hnest, hnone⟩ := hf hp n hn
    exact ⟨hnest, by simp only [hnone, Option.bind_none]⟩
  · rintro _ _ ⟨rfl, rfl, hdepth⟩
    rw [Tables.perform_append]
    refine Ends.mono hf ?_ ?_
    · rintro _ _ ⟨rfl, rfl, hdepth'⟩
      refine ⟨rfl, rfl, fun n hn => ?_⟩
      obtain ⟨k, hk, hindent⟩ := hdepth n hn
      simp only [hk, Option.bind_some]
      exact hdepth' k hindent
    · intro f hf hp n hn
      obtain ⟨k, hk, hindent⟩ := hdepth n hn
      simp only [hk, Option.bind_some]
      exact hf hp k hindent

theorem map (f : α → β) (h : Does m t a ds proper depth?) : Does (do pure (f (← m))) t (f a) ds proper depth? := by
  refine Ends.bind h ?_
  rintro _ _ ⟨rfl, rfl, hdepth⟩
  exact ⟨rfl, rfl, hdepth⟩

theorem mono {proper' : Prop} (h : Does m t a ds proper depth?) (hp : proper' → proper) : Does m t a ds proper' depth? :=
  Ends.mono h (fun _ _ => id) fun _ hf hp' => hf (hp hp')

end Does

/-- A block is opened. -/
theorem open_does (code : List Js.Stmt) :
    Does (do let _ ← indentBy 1; pure code) t code [.indent 1] proper fun n => some (n + 1) := by
  rw [Does, ends_bind, ends_indentBy]
  split
  · exact fun _ n hn => absurd hn (by omega)
  · exact ⟨rfl, rfl, fun n hn => ⟨n + 1, rfl, by rw [hn]; rfl⟩⟩

theorem closeLoops_does (count : Nat) : Does (closeLoops count) t (List.replicate count .close)
    (List.replicate count (.indent (-1))) proper (closeBlocks count) := by
  induction count generalizing t with
  | zero => exact ⟨rfl, rfl, fun n hn => ⟨n, rfl, hn⟩⟩
  | succ count ih =>
    rw [closeLoops, Does, ends_bind, ends_indentBy]
    -- with no block open there is none to close
    split
    · rename_i hlt
      intro _ n hn
      obtain rfl : n = 0 := by omega
      exact ⟨.mismatch .., rfl⟩
    · rename_i hge
      have hpred : ∀ n : Nat, t.indent = n → ∃ k, n = k + 1 ∧ ({ t with indent := t.indent + -1 } : Tables).indent = k := by
        intro n hn
        exact ⟨n - 1, by omega, by show t.indent + -1 = _; omega⟩
      refine (Ends.mono (ih (t := { t with indent := t.indent + -1 })) (fun _ _ => id) ?_).bind ?_
      · intro f hf hp n hn
        obtain ⟨k, rfl, hk⟩ := hpred n hn
        rw [closeBlocks_succ_succ]
        exact hf hp k hk
      · rintro _ _ ⟨rfl, rfl, hdepth⟩
        refine ⟨rfl, rfl, fun n hn => ?_⟩
        obtain ⟨k, rfl, hk⟩ := hpred n hn
        rw [closeBlocks_succ_succ]
        exact hdepth k hk

/-- A branch leaves as many blocks open as it has found, or that is why there is no code. -/
theorem inBranch_does {m : Emit (List Js.Stmt)} (h : Does m (t.perform [.indent 1]) code ds proper depth?) :
    Does (inBranch m) t code (.indent 1 :: (ds ++ [.indent (-1)])) proper
      fun n => if depth? (n + 1) = some (n + 1) then some n else none := by
  have hinner : ∀ n : Nat, t.indent = n → (t.perform [.indent 1]).indent = (n + 1 : Nat) := by
    intro n hn
    show t.indent + 1 = (n + 1 : Nat)
    omega
  rw [inBranch, Does, ends_bind, ends_indentBy]
  split
  · exact fun _ n hn => absurd hn (by omega)
  refine (Ends.mono h (fun _ _ => id) ?_).bind ?_
  · intro f hf hp n hn
    obtain ⟨hnest, hnone⟩ := hf hp (n + 1) (hinner n hn)
    exact ⟨hnest, by rw [hnone]; rfl⟩
  rintro _ t₂ ⟨rfl, ht₂, hdepth⟩
  rw [ends_bind, ends_get]
  split
  · rename_i hne
    refine fun _ n hn => ⟨.openInBranch none, if_neg fun hsame => hne ?_⟩
    obtain ⟨k, hk, hindent⟩ := hdepth (n + 1) (hinner n hn)
    rw [hk, Option.some.injEq] at hsame
    rw [hindent]
    omega
  · rename_i heq
    have heq : t₂.indent = t.indent + 1 := Decidable.not_not.1 heq
    rw [ends_bind, ends_indentBy]
    split
    · exact fun _ n hn => absurd hn (by omega)
    refine ⟨rfl, by rw [Tables.perform_cons, Tables.perform_append, ht₂]; rfl, fun n hn => ⟨n, ?_, ?_⟩⟩
    · obtain ⟨k, hk, hindent⟩ := hdepth (n + 1) (hinner n hn)
      obtain rfl : k = n + 1 := by omega
      exact if_pos hk
    · show t₂.indent + -1 = n
      omega

/-! ## Parts of statements -/

section

variable {μ : Mode} {E : Prop}

theorem mentionAll_runs (storage : Storage) (names : List String) : Runs (mentionAll storage names) μ
    (names.map Js.identifier) (names.map fun n => .mention n storage) E := by
  induction names with
  | nil => exact .pure _
  | cons n ns ih => exact (Runs.mention n storage).bind (ih.map _)

theorem dataItems_runs (items : List DataItem) : Runs (dataItems items) μ
    (items.map DataItem.literal) (items.flatMap DataItem.effects) E := by
  induction items with
  | nil => exact .pure _
  | cons i is ih =>
    have hone : Runs (dataItem i) μ i.literal i.effects E := by
      cases i with
      | text value => exact .pure _
      | number radix written => exact number_runs radix written
    exact hone.bind (ih.map _)

theorem printItem_runs (i : PrintItem) : Runs (printItem i) μ (i.code μ) (i.effects μ) (¬ i.Proper) := by
  cases i with
  | value e => exact ((expr_runs e).mono fun hn hp => hn hp.wellFormed).map _
  | tab e => exact ((expr_runs e).mono fun hn hp => hn hp.wellFormed).map _
  | spc e => exact ((expr_runs e).mono fun hn hp => hn hp.wellFormed).map _
  | formatted f v =>
    exact (Runs.helper "dec$").bind (((expr_runs v).mono fun hn hp => hn hp.2.wellFormed).bind
      (((expr_runs f).mono fun hn hp => hn hp.1.wellFormed).map _))
  | comma | semicolon | nothing => exact .pure _

theorem printItems_runs (items : List PrintItem) : Runs (printItems items) μ
    (items.flatMap (PrintItem.code μ)) (items.flatMap (PrintItem.effects μ)) (¬ ∀ i ∈ items, i.Proper) := by
  induction items with
  | nil => exact .pure _
  | cons i is ih =>
    simp only [List.forall_mem_cons]
    exact ((printItem_runs i).mono fun hn h => hn h.1).bind ((ih.mono fun hn h => hn h.2).map _)

theorem step_runs (stride : Option Expr) : Runs (step stride) μ (stepCode μ stride)
    (stride.toList.flatMap (Expr.effects μ)) (¬ ∀ e ∈ stride, e.Proper) := by
  cases stride with
  | none => exact .pure _
  | some e =>
    rw [Option.toList_some, List.flatMap_singleton]
    by_cases hnumber : ∃ radix text line, e = .unary .neg (.number radix text line)
    · obtain ⟨radix, text, line, rfl⟩ := hnumber
      exact (number_runs radix text).map _
    · have hother : ∀ radix text line, e ≠ .unary .neg (.number radix text line) := fun radix text line he =>
        hnumber ⟨radix, text, line, he⟩
      rw [step.eq_3 _ hother, stepCode.eq_3 _ _ hother]
      exact ((expr_runs e).mono fun hn h => hn (h e rfl).wellFormed).map _

theorem reads_runs (targets : List Expr) : Runs (reads targets) μ
    (targets.map fun e => .assign (e.code μ) (.call "read" [])) (targets.flatMap (Expr.effects μ))
    (¬ ∀ e ∈ targets, e.Target) := by
  induction targets with
  | nil => exact .pure _
  | cons e es ih =>
    simp only [List.forall_mem_cons]
    exact ((target_runs e).mono fun hn h => hn ⟨h.1.isPlace, h.1.proper.wellFormed⟩).bind
      ((ih.mono fun hn h => hn h.2).map _)

theorem dims_runs (arrays : List Expr) : Runs (dims arrays) μ (arrays.map (dimCode μ))
    (arrays.flatMap (dimEffects μ)) (¬ ∀ e ∈ arrays, e.IsArray) := by
  induction arrays with
  | nil => exact .pure _
  | cons e es ih =>
    simp only [List.forall_mem_cons]
    cases e with
    | index name sizes =>
      rw [dims, List.flatMap_cons, dimEffects, List.append_assoc]
      exact (exprs_runs fun e he => (expr_runs e).mono fun hn h => hn (h.1 e he).wellFormed).bind
        ((Runs.mention name .array).bind ((ih.mono fun hn h => hn h.2).map _))
    | _ => exact .broken _ fun h => h.1

theorem inputs_runs (prompt : String) (targets : List Expr) : Runs (inputs prompt targets) μ
    (inputCodes μ prompt targets) (targets.flatMap (Expr.effects μ)) (¬ ∀ e ∈ targets, e.Target) := by
  have hrest : ∀ es : List Expr, inputCodes μ "? " es = es.map (inputCode μ "? ") := fun es => by cases es <;> rfl
  induction targets generalizing prompt with
  | nil => exact .pure _
  | cons e es ih =>
    simp only [List.forall_mem_cons]
    rw [inputCodes, ← hrest]
    exact ((target_runs e).mono fun hn h => hn ⟨h.1.isPlace, h.1.proper.wellFormed⟩).bind
      (((ih "? ").mono fun hn h => hn h.2).map _)

theorem rsxArgs_runs (args : List RsxArg) : Runs (rsxArgs args) μ
    ((args.filter fun a => !a.out).map (fun a => a.expr.code μ), (args.filter RsxArg.out).map fun a => a.expr.code μ)
    (args.flatMap fun a => a.expr.effects μ) (¬ ∀ a ∈ args, a.Fits) := by
  induction args with
  | nil => exact .pure _
  | cons a as ih =>
    simp only [List.forall_mem_cons, List.filter_cons]
    rw [rsxArgs]
    cases hout : a.out with
    | true =>
      exact ((target_runs a.expr).mono fun hn h => hn ⟨h.1.place hout, h.1.proper.wellFormed⟩).bind
        ((ih.mono fun hn h => hn h.2).map _)
    | false =>
      exact ((expr_runs a.expr).mono fun hn h => hn h.1.proper.wellFormed).bind
        ((ih.mono fun hn h => hn h.2).map _)

theorem helperCall_runs (name : String) (args : List Expr) : Runs (helperCall name args) μ
    [.expr (.call name (args.map (Expr.code μ)))] (.helper name :: args.flatMap (Expr.effects μ))
    (¬ ∀ e ∈ args, e.Proper) :=
  (Runs.helper name).bind ((exprs_runs fun e he => (expr_runs e).mono fun hn h => hn (h e he).wellFormed).map _)

end

/-! ## Statements -/

/-- The parameters of a definition are collected. -/
theorem undergo_collecting (t : Tables) (ps params : List String) :
    ({ t with binding := .collecting ps } : Tables).undergo (params.map fun p => .mention p .number) =
      { t with binding := .collecting (ps ++ params.map Js.identifier) } := by
  induction params generalizing ps with
  | nil => rw [List.map_nil, List.map_nil, List.append_nil]; rfl
  | cons p params ih => rw [List.map_cons, List.map_cons, List.append_cons]; exact ih _

/-- The body of a function, and whether it waits. -/
theorem fnBody_ends (body : Expr) (t : Tables) {after : Tables}
    (ha : ({ t with binding := .body t.binding.params, waits := false } : Tables).undergo (body.effects t.mode) = after) :
    Ends (fnBody body) t
      (fun r t' => r = (body.code t.mode, (body.effects t.mode).any Effect.isWait) ∧
        t' = { after with binding := .outside, waits := t.waits })
      fun _ => ¬ body.WellFormed := by
  -- the mark of the line is set aside while the body is compiled, so it says whether the body waits
  have hwaits : after.waits = (body.effects t.mode).any Effect.isWait := by
    rw [← ha, (Tables.undergone _ _).waits, Bool.false_or]
  have hbody : (fnBody body).apply t = (fun r : Except Failure Js.Expr × Tables =>
      (r.1.map fun x => (x, r.2.waits), { r.2.endDefinition with waits := t.waits }))
        ((expr body).apply { t.beginBody with waits := false }) := rfl
  have hexpr := expr_runs (μ := t.mode) body { t.beginBody with waits := false } rfl
  unfold Ends at hexpr ⊢
  rw [hbody]
  generalize (expr body).apply { t.beginBody with waits := false } = r at hexpr
  rcases r with ⟨f | x, t'⟩
  · exact hexpr
  · obtain ⟨rfl, rfl⟩ := hexpr
    rw [← hwaits, ← ha]
    exact ⟨rfl, rfl⟩

theorem defFn_does (name : String) (params : List String) (body : Expr) :
    Does (defFn name params body) t ((Stmt.defFn name params body).code t) ((Stmt.defFn name params body).deeds t)
      body.Proper some := by
  refine .of_level (Tables.indent_undergo _ _) ?_
  rw [defFn, ends_bind, ends_update]
  refine (mentionAll_runs .number params _ rfl).andThen ?_
  rintro _ t₁ ⟨rfl, ht₁⟩
  obtain rfl : t₁ = { t with binding := .collecting (params.map Js.identifier) } :=
    ht₁.trans (undergo_collecting t [] params)
  refine ((fnBody_ends body _ rfl).mono (fun _ _ => id) fun f hn hp => hn hp.wellFormed).bind ?_
  rintro _ _ ⟨rfl, rfl⟩
  have hmode : Tables.mode { t with binding := .collecting (params.map Js.identifier) } = t.mode := rfl
  simp only [Stmt.code, Stmt.deeds, Stmt.effects, Stmt.acts, List.map_nil, List.nil_append, Tables.perform,
    List.foldl_cons, List.foldl_nil, Deed.run, hmode]
  cases (body.effects t.mode).any Effect.isWait with
  | true => exact ⟨rfl, rfl⟩
  | false => exact ⟨rfl, by simp [Binding.params]⟩

theorem command_does (c : Command) (args : List Expr) :
    Does (command c args) t ((Stmt.command c args).code t) ((Stmt.command c args).deeds t)
      (c ∈ Command.all ∧ ∀ e ∈ args, e.Proper) some := by
  have hcall : ∀ name, Does (helperCall name args) t [.expr (.call name (args.map (Expr.code t.mode)))]
      ((.helper name :: args.flatMap (Expr.effects t.mode)).map .effect ++ [])
      (c ∈ Command.all ∧ ∀ e ∈ args, e.Proper) some :=
    fun name => ((helperCall_runs name args).mono fun hn h => hn h.2).does rfl
  cases c with
  | other name => exact fun h => absurd h.1 (by simp [Command.all])
  | stopEnd | stop | frame | deg | rad | tag | tagOff => exact ⟨rfl, rfl, fun n hn => ⟨n, rfl, hn⟩⟩
  | _ => exact hcall _

theorem print_does (stream : Option Expr) (items : List PrintItem) :
    Does (print stream items) t ((Stmt.print stream items).code t) ((Stmt.print stream items).deeds t)
      (∀ i ∈ items, i.Proper) some := by
  have hlist : Runs (do let xs ← printItems items; pure [Js.Stmt.expr (.call (printer t.tag) (xs ++ newline items))])
      t.mode ((Stmt.print stream items).code t) (items.flatMap (PrintItem.effects t.mode)) (¬ ∀ i ∈ items, i.Proper) := by
    rw [Stmt.code]
    exact (printItems_runs items).map _
  -- the list is the same with and without a warning before it
  have hrest : ∀ name, Runs (do
      helper name
      match stream with
      | some e => if e.isScreen then pure () else warn (.ignoredStream e.text)
      | none => pure ()
      let xs ← printItems items
      pure [Js.Stmt.expr (.call (printer t.tag) (xs ++ newline items))]) t.mode ((Stmt.print stream items).code t)
        (.helper name :: (streamEffects stream ++ items.flatMap (PrintItem.effects t.mode)))
        (¬ ∀ i ∈ items, i.Proper) := by
    intro name
    refine (Runs.helper name).bind ?_
    cases stream with
    | none => exact hlist
    | some e =>
      unfold streamEffects
      dsimp only
      split
      · exact hlist
      · exact (Runs.warn _ rfl).bind hlist
  exact (hrest (printer t.tag)).does rfl

/-- A reference is the last thing that the code of a statement adds. -/
theorem refer_does (r : Reference) (selector : String) (code : Nat → List Js.Stmt) {n : Nat}
    (hn : t.callSites.length = n) : Does (do pure (code (← site r.shape.1 r.shape.2 selector))) t (code n)
      [.refer r selector] proper some := by
  subst hn
  exact .of_level rfl ⟨rfl, rfl⟩

theorem timer_does (name : String) (interval : Expr) (which : Option Expr) (label : String) :
    Does (timer name interval which label) t ((Stmt.timer name interval which label).code t)
      ((Stmt.timer name interval which label).deeds t) (interval.Proper ∧ ∀ e ∈ which, e.Proper) some := by
  have hinterval : Runs (expr interval) t.mode (interval.code t.mode) (interval.effects t.mode)
      (¬ (interval.Proper ∧ ∀ e ∈ which, e.Proper)) := (expr_runs interval).mono fun hn h => hn h.1.wellFormed
  simp only [timer, Stmt.code, Stmt.deeds, Stmt.effects, Stmt.acts, List.map_cons, List.map_append, List.cons_append,
    List.append_assoc]
  refine (Runs.helper (Text.lower name)).thenDoes rfl fun ht => ?_
  refine Runs.wait.thenDoes ht fun ht => ?_
  refine hinterval.thenDoes ht fun ht => ?_
  cases which with
  | none =>
    refine Runs.thenDoes (.pure _) ht fun _ => ?_
    exact refer_does (n := t.callSites.length) (.schedule label) "" _ (by simp only [Tables.callSites_undergo])
  | some e =>
    rw [Option.toList_some, List.flatMap_singleton]
    refine ((expr_runs e).mono fun hn h => hn (h.2 e rfl).wellFormed).thenDoes ht fun _ => ?_
    exact refer_does (n := t.callSites.length) (.schedule label) "" _ (by simp only [Tables.callSites_undergo])

theorem forLoop_does (var : String) (start stop : Expr) (stride : Option Expr) :
    Does (forLoop var start stop stride) t ((Stmt.forLoop var start stop stride).code t)
      ((Stmt.forLoop var start stop stride).deeds t) (start.Proper ∧ stop.Proper ∧ ∀ e ∈ stride, e.Proper)
      fun n => some (n + 1) := by
  simp only [forLoop, Stmt.code, Stmt.deeds, Stmt.effects, Stmt.acts, List.map_cons, List.map_append, List.cons_append,
    List.append_assoc]
  refine (Runs.mention var .number).thenDoes rfl fun ht => ?_
  refine ((expr_runs start).mono fun hn h => hn h.1.wellFormed).thenDoes ht fun ht => ?_
  refine ((expr_runs stop).mono fun hn h => hn h.2.1.wellFormed).thenDoes ht fun ht => ?_
  refine ((step_runs stride).mono fun hn h => hn h.2.2).thenDoes ht fun _ => ?_
  exact open_does _

/-- The code of an `ELSE`, and of the statement around it. -/
theorem branch_does {cond : Expr} {yes : List Stmt} {no : Option (List Stmt)}
    (hyes : ∀ t, Does (stmts yes) t (Stmt.codeOf t yes) (Stmt.deedsOf t yes) (Stmt.AllProper yes) (Stmt.depthOf? yes))
    (hno : ∀ t, Does (alternative no) t (Stmt.codeOfElse t no) (Stmt.deedsOfElse t no) (Stmt.ElseProper no)
      fun n => if Stmt.depthOfElse? no (n + 1) = some (n + 1) then some n else none) :
    Does (stmt (.branch cond yes no)) t ((Stmt.branch cond yes no).code t) ((Stmt.branch cond yes no).deeds t)
      (Stmt.branch cond yes no).Proper (Stmt.branch cond yes no).depth? := by
  have hcond : Runs (condition cond) t.mode (cond.conditionCode t.mode) (cond.effects t.mode)
      (¬ (Stmt.branch cond yes no).Proper) := (condition_runs cond).mono fun hn h => hn h.1.wellFormed
  have hdepth : (Stmt.branch cond yes no).depth? = fun n =>
      (if Stmt.depthOf? yes (n + 1) = some (n + 1) then some n else none).bind
        fun n => if Stmt.depthOfElse? no (n + 1) = some (n + 1) then some n else none := by
    funext n
    rw [Stmt.depth?]
    by_cases h : Stmt.depthOf? yes (n + 1) = some (n + 1) <;> simp [h]
  rw [stmt, hdepth, Stmt.code, Stmt.deeds]
  refine hcond.thenDoes rfl fun _ => ?_
  rw [Tables.perform_effects]
  have hyes := (inBranch_does (t := t.undergo (cond.effects t.mode)) (hyes _)).mono
    fun h : (Stmt.branch cond yes no).Proper => h.2.1
  exact hyes.bind (((hno _).mono fun h => h.2.2).map _)

mutual

/-- **The code of a statement.** -/
theorem stmt_does : ∀ (s : Stmt) (t : Tables), Does (stmt s) t (s.code t) (s.deeds t) s.Proper s.depth?
  | .assign place value, t => by
    rw [stmt, Stmt.code]
    exact (((target_runs place).mono fun hn h => hn ⟨h.1.isPlace, h.1.proper.wellFormed⟩).bind
      (((expr_runs value).mono fun hn h => hn h.2.wellFormed).map _)).does rfl
  | .print stream items, _ => print_does stream items
  | .write _ args, _ => by
    rw [stmt, Stmt.code]
    exact (helperCall_runs "write" args).does rfl
  | .command c args, _ => command_does c args
  | .graphics name x y pen, _ => by
    rw [stmt, Stmt.code]
    refine ((helperCall_runs _ (x :: y :: pen.toList)).mono fun hn h => hn ?_).does rfl
    exact List.forall_mem_cons.2 ⟨h.2.1, List.forall_mem_cons.2 ⟨h.2.2.1, fun e he => h.2.2.2 e (Option.mem_toList.1 he)⟩⟩
  | .forLoop var start stop stride, _ => forLoop_does var start stop stride
  | .next vars, t => by
    rw [stmt, Stmt.code]
    exact (mentionAll_runs .number vars).thenDoes rfl fun _ => closeLoops_does _
  | .whileLoop cond, t => by
    rw [stmt, Stmt.code]
    exact ((condition_runs cond).mono fun hn h => hn h.wellFormed).thenDoes rfl fun _ => open_does _
  | .wend, _ => closeLoops_does 1
  | .branch cond yes no, t => branch_does (stmts_does yes) (alternative_does no)
  | .gosub label, t => .of_level rfl ⟨rfl, rfl⟩
  | .ret, t => by
    simp only [stmt, Stmt.code, Stmt.deeds, Stmt.effects, Stmt.acts]
    rw [Does, ends_bind, ends_get]
    split <;> exact ⟨rfl, rfl, fun n hn => ⟨n, rfl, hn⟩⟩
  | .onGosub selector labels, t => by
    rw [stmt, Stmt.code]
    refine ((expr_runs selector).mono fun hn h => hn h.1.wellFormed).thenDoes rfl fun _ => ?_
    exact refer_does (.select labels) _ (fun i => [.expr (.selected i (compared (selector.code t.mode)))]) (by simp)
  | .data items, t => by
    rw [stmt, Stmt.code]
    exact (dataItems_runs items).thenDoes rfl fun _ => .of_level rfl ⟨rfl, rfl⟩
  | .read targets, t => by
    rw [stmt, Stmt.code]
    exact ((Runs.helper "read").bind ((reads_runs targets).mono fun hn h => hn h.2)).does rfl
  | .restore label, t => .of_level rfl ⟨rfl, rfl⟩
  | .dim arrays, t => by
    rw [stmt, Stmt.code]
    exact ((Runs.helper "dim").bind ((dims_runs arrays).mono fun hn h => hn h.2)).does rfl
  | .erase names, t => by
    rw [stmt, Stmt.code]
    exact ((mentionAll_runs .array names).map _).does rfl
  | .defFn name params body, _ => defFn_does name params body
  | .input prompt question targets, t => by
    rw [stmt, Stmt.code]
    exact ((Runs.helper "input").bind (Runs.wait.bind ((inputs_runs _ targets).mono fun hn h => hn h.2))).does rfl
  | .timer name interval which label, _ => (timer_does name interval which label).mono fun h => ⟨h.2.1, h.2.2.1⟩
  | .rsx name args, t => by
    rw [stmt, Stmt.code]
    exact ((Runs.helper "rsx").bind (Runs.wait.bind ((rsxArgs_runs args).map _))).does rfl
  | .comment text, t => .of_level rfl ⟨rfl, rfl⟩
  | .unsupported _ text _, t => .of_level rfl ⟨rfl, rfl⟩
  | .missing, t => fun h => h.elim

theorem stmts_does : ∀ (ss : List Stmt) (t : Tables),
    Does (stmts ss) t (Stmt.codeOf t ss) (Stmt.deedsOf t ss) (Stmt.AllProper ss) (Stmt.depthOf? ss)
  | [], _ => .of_level rfl ⟨rfl, rfl⟩
  | s :: ss, t => ((stmt_does s t).mono fun h => h.1).bind (((stmts_does ss _).mono fun h => h.2).map _)

theorem alternative_does : ∀ (no : Option (List Stmt)) (t : Tables),
    Does (alternative no) t (Stmt.codeOfElse t no) (Stmt.deedsOfElse t no) (Stmt.ElseProper no)
      fun n => if Stmt.depthOfElse? no (n + 1) = some (n + 1) then some n else none
  | none, t => by
    simp only [Stmt.depthOfElse?, if_true]
    exact .of_level rfl ⟨rfl, rfl⟩
  | some ss, t => (inBranch_does (stmts_does ss _)).map _

end

end Emit

end Locomotive
