import Locomotive.Proofs.Emit.Stmt
import Locomotive.Proofs.Js.Await
import Locomotive.Proofs.Name
import Locomotive.Proofs.Stmt.Reads

/-!
# What code leaves in the tables

While code is generated the tables note the helpers that it calls and the items of the `DATA`
statements. The helpers are noted apart from the code that calls them, at many places; both agree.

The tables also know the functions that an asynchronous arrow has defined so far. The code of an expression
awaits the calls of these and of asynchronous helpers, and no others; an arrow is asynchronous if its body does
so, and is known from there on.

* `Tells`: the calls in code agree with its effects.
* `Accounted`, `Stmt.accounted`: the helpers and the functions of statements.
* `Stmt.blocks_deeds`: the data of statements.
-/

namespace Locomotive

/-! ## Warnings and functions -/

/-- The label that a warning about a missing target of a `RESTORE` names. -/
def Remark.restoreTarget? : Remark → Option String
  | noRestoreTarget label => some label
  | _ => none

/-- The labels that the warnings about missing targets name. -/
def Tables.missingTargets (t : Tables) : List String := t.warnings.filterMap fun w => w.remark.restoreTarget?

/-- No target is said to be missing by other warnings. -/
theorem Tables.missingTargets_append {t t' : Tables} {new : List Warning} (hnew : t'.warnings = t.warnings ++ new)
    (hplain : ∀ w ∈ new, w.remark.isPlain = true) : t'.missingTargets = t.missingTargets := by
  have hnone : new.filterMap (fun w => w.remark.restoreTarget?) = [] := by
    refine List.filterMap_eq_nil_iff.2 fun w hw => ?_
    have hw := hplain w hw
    cases hr : w.remark <;> rw [hr] at hw <;> first | rfl | cases hw
  rw [missingTargets, hnew, List.filterMap_append, hnone, List.append_nil]
  rfl

namespace Stmt

mutual

/-- The functions that a statement defines, in order. -/
def functions : Stmt → List String
  | defFn name _ _ => [name]
  | branch _ yes no => functionsOf yes ++ functionsElse no
  | _ => []

/-- The functions that the statements of a list define. -/
def functionsOf : List Stmt → List String
  | [] => []
  | s :: ss => s.functions ++ functionsOf ss

/-- The functions that the statements of an `ELSE` define. -/
def functionsElse : Option (List Stmt) → List String
  | none => []
  | some ss => functionsOf ss

end

end Stmt

namespace Emit

open Js (Agrees Event Matched InOrder)

variable {known : List String}

/-! ## Calls and effects -/

/-- **The calls agree with the effects**: the helpers that are noted are those among the calls, each call is awaited
if its function is asynchronous, and the line waits if there is such a call. -/
def Tells (known : List String) (events : List Event) (called : List String) (es : List Effect) : Prop :=
  Matched known events called (es.filterMap Effect.helper?) (es.any Effect.isWait)

namespace Tells

variable {events events' : List Event} {called called' : List String} {es es' : List Effect}

theorem nil : Tells known [] [] [] := Matched.nil

theorem append (h : Tells known events called es) (h' : Tells known events' called' es') :
    Tells known (events ++ events') (called ++ called') (es ++ es') := by
  unfold Tells
  rw [List.filterMap_append, List.any_append]
  exact Matched.append h h'

/-- Only which effects there are matters, not how often and in which order. -/
theorem congr (h : Tells known events called es) (hes : ∀ x, x ∈ es' ↔ x ∈ es) : Tells known events called es' := by
  have hwaits : es'.any Effect.isWait = es.any Effect.isWait := Bool.eq_iff_iff.2 (by simp [List.any_eq_true, hes])
  unfold Tells
  rw [hwaits]
  exact Matched.reorder h fun f => by simp [List.mem_filterMap, hes]

/-- Effects that are neither calls nor waiting do not matter. -/
theorem drop (h : Tells known events called es) (es' : List Effect)
    (hes : es'.filterMap Effect.helper? = [] ∧ es'.any Effect.isWait = false) : Tells known events called (es' ++ es) := by
  unfold Tells
  rw [List.filterMap_append, List.any_append, hes.1, hes.2]
  exact h

/-- A call of a helper with arguments. -/
theorem helper (h : Tells known events called es) (name : String)
    (hname : Js.isHelper name = true ∧ Js.asyncHelpers.contains name = false) :
    Tells known (.call name false :: events) (name :: called) (.helper name :: es) := Matched.helper hname h

/-- The same for a helper that waits. -/
theorem await (h : Tells known events called es) (name : String)
    (hname : Js.isHelper name = true ∧ Js.asyncHelpers.contains name = true) :
    Tells known (.call name true :: events) (name :: called) (.helper name :: .wait :: es) := Matched.await hname h

end Tells

theorem tells_mentions (names : List String) (storage : Storage) :
    Tells known [] [] (names.map fun v => Effect.mention v storage) := by
  have h := (Tells.nil : Tells known [] [] []).drop (names.map fun v => .mention v storage)
    ⟨by simp [List.filterMap_map, Effect.helper?], by simp [Effect.isWait]⟩
  rwa [List.append_nil] at h

theorem tells_number (radix : Radix) (text : String) : Tells known [] [] (numberEffects radix text) := by
  unfold numberEffects
  split <;> exact Tells.nil

end Emit

open Emit (Tells math receiver before operation compared angleCode)
open Js.Expr (events eventsOf calls callsOf)

/-! ## Expressions -/

attribute [local simp] events eventsOf calls callsOf math receiver before operation compared

namespace Builtin

variable {known : List String} {f : Builtin} {tys : List Ty}

/-- The one built-in function that waits is `INKEY$`. -/
theorem isHelper_helper {name : String} (h : f.helper? = some name) (hf : f ≠ .inkey) :
    Js.isHelper name = true ∧ Js.asyncHelpers.contains name = false := by
  cases f <;> cases h <;> first | exact absurd rfl hf | decide

/-- **A call of a built-in function**, whose helper and arguments are noted first. -/
theorem tells_code (ht : f.Takes tys) {xs : List Js.Expr} (hl : xs.length = f.taken tys.length) {es : List Effect}
    (h : Tells known (eventsOf xs) (callsOf xs) es) (deg : Bool) :
    Tells known ((f.code deg xs).events false) (f.code deg xs).calls
      (f.helper?.toList.map .helper ++ es ++ f.effects deg) := by
  -- most functions add no call, or leave out no argument
  have hsame : ∀ y : Js.Expr, y.events false = eventsOf xs ∧ y.calls = callsOf xs →
      Tells known (y.events false) y.calls ([] ++ es ++ []) := by
    rintro y ⟨hevents, hcalls⟩
    rw [hevents, hcalls, List.append_nil]
    exact h
  -- a function of the code of an argument: the helper is called around it
  have hangle : ∀ name, Js.isHelper name = true ∧ Js.asyncHelpers.contains name = false →
      Tells known (.call name false :: eventsOf xs) (name :: callsOf xs) ([] ++ es ++ [.helper name]) := fun name hname =>
    (h.helper name hname).congr (by simp [or_comm])
  unfold code
  split
  case h_1 =>
    obtain rfl : xs = [] := List.length_eq_zero_iff.1 hl
    exact (h.await "inkey$" (by decide)).congr (by simp [effects, helper?, or_comm])
  case h_2 | h_3 =>
    obtain rfl : xs = [] := List.length_eq_zero_iff.1 hl
    exact hsame _ (by simp)
  case h_4 | h_5 | h_6 =>
    cases deg with
    | true => simpa [angleCode, helper?, effects] using hangle "toRad" (by decide)
    | false => exact hsame _ (by simp [angleCode])
  case h_7 =>
    cases deg with
    | true => simpa [helper?, effects] using hangle "toDeg" (by decide)
    | false => exact hsame _ (by simp)
  case h_16 hinkey _ _ hsin hcos htan hatn _ _ _ _ _ _ _ _ =>
    have hone : f.taken tys.length = 1 → ∃ x, xs = [x] := fun h => List.length_eq_one_iff.1 (hl.trans h)
    have heffects : f.effects deg = [] := by
      cases f with
      | inkey => exact (hinkey rfl).elim
      | sin => obtain ⟨x, hx⟩ := hone rfl; exact (hsin x rfl hx).elim
      | cos => obtain ⟨x, hx⟩ := hone rfl; exact (hcos x rfl hx).elim
      | tan => obtain ⟨x, hx⟩ := hone rfl; exact (htan x rfl hx).elim
      | atn => obtain ⟨x, hx⟩ := hone rfl; exact (hatn x rfl hx).elim
      | _ => rfl
    rw [heffects]
    split
    · rename_i hdirect
      have hnone : f.helper? = none := by cases f <;> cases hdirect <;> rfl
      rw [hnone]
      exact hsame _ (by simp)
    · rename_i name _ hname
      rw [hname, List.append_nil]
      exact h.helper name (isHelper_helper hname fun hf => hinkey hf)
    · rename_i hnone
      rw [hnone]
      exact hsame _ (by simp)
  all_goals exact hsame _ (by simp)

end Builtin

theorem BinaryOp.told_code (op : BinaryOp) (x y : Js.Expr) :
    (op.code x y).events false = x.events false ++ y.events false ∧ (op.code x y).calls = x.calls ++ y.calls := by
  cases op <;> simp [code, comparison?, direct?]

namespace Expr

variable {μ : Mode}

theorem tells_flatMap {known : List String} {es : List Expr}
    (h : ∀ e ∈ es, Tells known ((e.code μ).events false) (e.code μ).calls (e.effects μ)) :
    Tells known (eventsOf (es.map (code μ))) (callsOf (es.map (code μ))) (es.flatMap (effects μ)) := by
  induction es with
  | nil => exact .nil
  | cons e es ih =>
    obtain ⟨he, hes⟩ := List.forall_mem_cons.1 h
    exact he.append (ih hes)

/-- **The calls in the code of an expression** are noted, and awaited exactly if their function is known to be
asynchronous. -/
theorem tells_code {e : Expr} (h : e.WellFormed) :
    Tells μ.asyncFns ((e.code μ).events false) (e.code μ).calls (e.effects μ) := by
  induction e using Expr.induct with
  | number radix text line => exact Emit.tells_number radix text
  | string value => exact .nil
  | var name => exact .nil
  | index name is ih =>
    rw [code_index, effects_index]
    exact tells_flatMap fun e he => ih e he (h.child he)
  | paren e ih => simpa [code, effects] using ih (h.child (by simp [children]))
  | unary op e ih =>
    have he := ih (h.child (by simp [children]))
    cases op <;> simpa [code, effects, UnaryOp.code] using he
  | binary op l r hl hr =>
    rw [code, effects, (op.told_code _ _).1, (op.told_code _ _).2]
    exact (hl (h.child (by simp [children]))).append (hr (h.child (by simp [children])))
  | call f args ih =>
    have ht : f.Takes (args.map type) := h.types _ .self
    have hle := Builtin.taken_le ht
    rw [List.length_map] at hle
    rw [code_call, effects_call]
    exact Builtin.tells_code ht (by simp [hle])
      (tells_flatMap fun e he => ih e (List.mem_of_mem_take he) (h.child (List.mem_of_mem_take he))) μ.deg
  | fn name args ih =>
    have hname : Js.isHelper (Js.identifier name) = false := by
      have htaken := Js.isTaken_identifier name
      unfold Js.isTaken at htaken
      exact (Bool.or_eq_false_iff.1 htaken).2
    have hargs := tells_flatMap fun e he => ih e he (h.child he)
    have hcall := Js.Matched.other hname hargs
    rw [code_fn, effects_fn]
    unfold Tells
    split
    · rename_i hknown
      rw [hknown, Bool.true_or] at hcall
      simpa [List.filterMap_cons, Effect.helper?, Effect.isWait] using hcall
    · rename_i hknown
      rw [Bool.eq_false_iff.2 hknown, Bool.false_or] at hcall
      simpa using hcall
  | missing => exact .nil

theorem tells_conditionCode {e : Expr} (h : e.WellFormed) :
    Tells μ.asyncFns ((e.conditionCode μ).events false) (e.conditionCode μ).calls (e.effects μ) := by
  rw [of_conditionCode (events false) (fun _ _ _ => rfl) (fun x rank => x.events_atLeast rank false) e,
    of_conditionCode calls (fun _ _ _ => rfl) (fun x rank => x.calls_atLeast rank) e]
  exact tells_code h

theorem tells_codes {es : List Expr} (h : ∀ e ∈ es, e.Proper) :
    Tells μ.asyncFns (eventsOf (es.map (code μ))) (callsOf (es.map (code μ))) (es.flatMap (effects μ)) :=
  tells_flatMap fun e he => tells_code (h e he).wellFormed

end Expr

/-! ## Statements -/

open Emit

/-- The calls of the code of statements agree with the effects. -/
abbrev Emit.TellsCode (known : List String) (code : List Js.Stmt) (es : List Effect) : Prop :=
  Tells known (Js.Stmt.eventsOf code) (Js.Stmt.callsOf code) es

namespace Stmt

theorem isHelper_graphics {name : String} (h : name ∈ graphicsWords) :
    Js.isHelper (Text.lower name) = true ∧ Js.asyncHelpers.contains (Text.lower name) = false := by
  revert name
  decide

theorem isHelper_timer {name : String} (h : name ∈ timerWords) :
    Js.isHelper (Text.lower name) = true ∧ Js.asyncHelpers.contains (Text.lower name) = true := by
  revert name
  decide

theorem helper_command {c : Command} {name : String} (h : c.helper? = some name) :
    Js.isHelper name = true ∧ Js.asyncHelpers.contains name = false := by
  cases c <;> cases h <;> decide

variable {known : List String} {es : List Effect}

theorem tells_one {s : Js.Stmt} (h : Tells known s.events s.calls es) : TellsCode known [s] es := by
  simpa [TellsCode, Js.Stmt.eventsOf, Js.Stmt.callsOf] using h

/-- A call of a helper with arguments. -/
theorem tells_call {name : String} (hname : Js.isHelper name = true ∧ Js.asyncHelpers.contains name = false)
    {xs : List Js.Expr} (h : Tells known (eventsOf xs) (callsOf xs) es) :
    TellsCode known [.expr (.call name xs)] (.helper name :: es) := tells_one (h.helper name hname)

/-- The same for a helper that waits. -/
theorem tells_await {name : String} (hname : Js.isHelper name = true ∧ Js.asyncHelpers.contains name = true)
    {xs : List Js.Expr} (h : Tells known (eventsOf xs) (callsOf xs) es) :
    TellsCode known [.expr (.unary .await (.call name xs))] (.helper name :: .wait :: es) := tells_one (h.await name hname)

/-- A list of targets or arrays calls a helper for each member, which is noted once for all. -/
theorem tells_each {f : Expr → Js.Stmt} {g : Expr → List Effect} (pre : List Effect) {xs : List Expr}
    (h : ∀ e ∈ xs, Tells known (f e).events (f e).calls (pre ++ g e)) :
    TellsCode known (xs.map f) (xs.flatMap fun e => pre ++ g e) := by
  induction xs with
  | nil => exact .nil
  | cons e es ih =>
    obtain ⟨he, hes⟩ := List.forall_mem_cons.1 h
    exact he.append (ih hes)

theorem mem_each {g : Expr → List Effect} {pre : List Effect} {xs : List Expr} (hne : xs ≠ []) (x : Effect) :
    x ∈ pre ++ xs.flatMap g ↔ x ∈ xs.flatMap fun e => pre ++ g e := by
  obtain ⟨e, he⟩ := List.exists_mem_of_ne_nil xs hne
  simp only [List.mem_append, List.mem_flatMap]
  constructor
  · rintro (hx | ⟨e, he, hx⟩)
    · exact ⟨e, he, .inl hx⟩
    · exact ⟨e, he, .inr hx⟩
  · rintro ⟨e, he, hx | hx⟩
    · exact .inl hx
    · exact .inr ⟨e, he, hx⟩

theorem tells_print (μ : Mode) {items : List PrintItem} (h : ∀ i ∈ items, i.Proper) :
    Tells μ.asyncFns (eventsOf (items.flatMap (PrintItem.code μ))) (callsOf (items.flatMap (PrintItem.code μ)))
      (items.flatMap (PrintItem.effects μ)) := by
  induction items with
  | nil => exact .nil
  | cons i is ih =>
    obtain ⟨hi, his⟩ := List.forall_mem_cons.1 h
    rw [List.flatMap_cons, List.flatMap_cons, Js.Expr.eventsOf_append, Js.Expr.callsOf_append]
    refine .append ?_ (ih his)
    cases i with
    | value e | tab e | spc e => simpa [PrintItem.code, PrintItem.effects] using Expr.tells_code hi.wellFormed
    | formatted f v =>
      have hboth := (Expr.tells_code (μ := μ) hi.2.wellFormed).append (Expr.tells_code hi.1.wellFormed)
      simpa [PrintItem.code, PrintItem.effects] using hboth.helper "dec$" (by decide)
    | _ => exact .nil

theorem tells_step (μ : Mode) {stride : Option Expr} (h : ∀ e ∈ stride, e.Proper) :
    Tells μ.asyncFns (stepCode μ stride).events (stepCode μ stride).calls (stride.toList.flatMap (Expr.effects μ)) := by
  unfold stepCode
  split
  · exact .nil
  · rename_i radix text line
    simpa [Expr.effects, Js.Step.events, Js.Step.calls] using tells_number radix text
  · rename_i e _
    have he := Expr.tells_code (μ := μ) (h e rfl).wellFormed
    split <;> simpa [Js.Step.events, Js.Step.calls] using he

/-- The calls in the code of a statement that defines no function. -/
theorem tells_simple {s : Stmt} (hs : s.isBranch = false) (hd : s.functions = [])
    (h : s.Proper) (t : Tables) : TellsCode t.asyncFns (s.code t) (s.effects t) := by
  have hone : ∀ {e : Expr}, e.Proper → Tells t.asyncFns ((e.code t.mode).events false) (e.code t.mode).calls
      (e.effects t.mode) := fun he => Expr.tells_code (μ := t.mode) he.wellFormed
  have hall : ∀ {es : List Expr}, (∀ e ∈ es, e.Proper) → Tells t.asyncFns (eventsOf (es.map (Expr.code t.mode)))
      (callsOf (es.map (Expr.code t.mode))) (es.flatMap (Expr.effects t.mode)) := fun hes => Expr.tells_codes (μ := t.mode) hes
  cases s with
  | branch => cases hs
  | defFn name params body => cases hd
  | assign place value =>
    have hboth := (hone h.1.proper).append (hone h.2)
    rw [code]
    split <;> exact tells_one (by simpa [Js.Stmt.events, Js.Stmt.calls, effects] using hboth)
  | print stream items =>
    have hname : Js.isHelper (printer t.tag) = true ∧ Js.asyncHelpers.contains (printer t.tag) = false := by
      unfold printer
      split <;> decide
    have hstream : (streamEffects stream).filterMap Effect.helper? = [] ∧ (streamEffects stream).any Effect.isWait = false := by
      cases stream with
      | none => exact ⟨rfl, rfl⟩
      | some e => unfold streamEffects; dsimp only; split <;> exact ⟨rfl, rfl⟩
    refine tells_call hname (Tells.drop ?_ _ hstream)
    have hitems : Tells t.asyncFns _ _ _ := tells_print t.mode h
    unfold newline
    split <;> simpa [Js.Expr.eventsOf_append, Js.Expr.callsOf_append] using hitems
  | write _ args => exact tells_call (by decide) (hall h)
  | command c args =>
    have hargs : ∀ name, c.helper? = some name → TellsCode t.asyncFns [.expr (.call name (args.map (Expr.code t.mode)))]
        (.helper name :: args.flatMap (Expr.effects t.mode)) := fun name hname => tells_call (helper_command hname) (hall h.2)
    cases c with
    | stopEnd | stop => exact tells_one (Tells.nil.helper _ (by decide))
    | frame => exact tells_await (by decide) .nil
    | deg | rad | other name => exact .nil
    | tag | tagOff => exact tells_call (by decide) .nil
    | _ => exact hargs _ rfl
  | graphics name x y pen =>
    have hargs : ∀ e ∈ x :: y :: pen.toList, e.Proper := by simpa using ⟨h.2.1, h.2.2.1, h.2.2.2⟩
    exact tells_call (isHelper_graphics h.1) (hall hargs)
  | forLoop var start stop stride =>
    refine tells_one ?_
    have hparts := ((hone h.1).append (hone h.2.1)).append (tells_step t.mode h.2.2)
    simpa [Js.Stmt.events, Js.Stmt.calls, effects] using hparts.drop [.mention var .number] ⟨rfl, rfl⟩
  | next vars =>
    have hclose : ∀ n, TellsCode t.asyncFns (List.replicate n .close) [] := fun n => by
      induction n with
      | zero => exact .nil
      | succ n ih => exact ih
    have hvars := (hclose (max 1 vars.length)).append (tells_mentions vars .number)
    simpa [code, effects] using hvars
  | whileLoop cond => exact tells_one (Expr.tells_conditionCode (μ := t.mode) h.wellFormed)
  | ret =>
    rw [effects]
    split <;> exact .nil
  | onGosub selector labels =>
    refine tells_one ?_
    simpa [Js.Stmt.events, Js.Stmt.calls, effects] using hone h.1
  | data items =>
    have hitems : Tells t.asyncFns [] [] (items.flatMap DataItem.effects) := by
      clear hs hd h
      induction items with
      | nil => exact .nil
      | cons i is ih =>
        cases i with
        | text value => exact ih
        | number radix written => exact (tells_number radix written).append ih
    exact hitems
  | read targets =>
    show TellsCode _ _ ([.helper "read"] ++ targets.flatMap (Expr.effects t.mode))
    refine (tells_each _ fun e he => ?_).congr (mem_each h.1)
    exact ((hone (h.2 e he).proper).append (Tells.nil.helper "read" (by decide))).congr fun _ => List.perm_append_comm.mem_iff
  | restore label => cases label <;> exact tells_call (by decide) .nil
  | dim arrays =>
    show TellsCode _ _ ([.helper "dim"] ++ arrays.flatMap (dimEffects t.mode))
    refine (tells_each _ fun e he => ?_).congr (mem_each h.1)
    obtain ⟨name, sizes, rfl, hproper⟩ := (h.2 e he).parts
    have hcall := ((hall hproper).helper "dim" (by decide)).append ((Tells.nil).drop [.mention name .array] ⟨rfl, rfl⟩)
    simp only [dimCode, dimEffects]
    split <;> simpa [Js.Stmt.events, Js.Stmt.calls] using hcall
  | erase names =>
    have hnames : ∀ as : List String, TellsCode t.asyncFns (as.map fun a => .assign (.atom a) (.array [])) [] := fun as => by
      induction as with
      | nil => exact .nil
      | cons a as ih => exact ih
    simpa [code, effects] using (hnames (names.map Js.identifier)).append (tells_mentions names .array)
  | input prompt question targets =>
    have hinput : ∀ (text : String), ∀ e ∈ targets, Tells t.asyncFns (inputCode t.mode text e).events
        (inputCode t.mode text e).calls ([.helper "input", .wait] ++ e.effects t.mode) := fun text e he => by
      have hcall := (hone (h.2 e he).proper).append (Tells.nil.await "input" (by decide))
      exact hcall.congr fun _ => List.perm_append_comm.mem_iff
    show TellsCode _ _ ([.helper "input", .wait] ++ targets.flatMap (Expr.effects t.mode))
    refine Tells.congr ?_ (mem_each h.1)
    cases targets with
    | nil => exact .nil
    | cons e es => exact (hinput _ e (by simp)).append (tells_each _ fun c hc => hinput _ c (by simp [hc]))
  | timer name interval which label =>
    refine tells_await (isHelper_timer h.1) ?_
    cases which with
    | none => simpa using hone h.2.1
    | some e => simpa using (hone h.2.1).append (hone (h.2.2.1 e rfl))
  | rsx name args =>
    have hsome : ∀ keep : RsxArg → Bool, Tells t.asyncFns (eventsOf ((args.filter keep).map fun a => a.expr.code t.mode))
        (callsOf ((args.filter keep).map fun a => a.expr.code t.mode))
        ((args.filter keep).flatMap fun a => a.expr.effects t.mode) := fun keep => by
      have hproper : ∀ e ∈ (args.filter keep).map RsxArg.expr, e.Proper :=
        List.forall_mem_map.2 fun a ha => (h a (List.mem_filter.1 ha).1).proper
      have hargs := hall hproper
      rwa [List.map_map, List.flatMap_map] at hargs
    have hcall := (hsome fun a => !a.out).await "rsx" (by decide)
    -- each argument is written to or not
    have hmem : ∀ x, x ∈ .helper "rsx" :: .wait :: args.flatMap (fun a => a.expr.effects t.mode) ↔
        x ∈ (args.filter RsxArg.out).flatMap (fun a => a.expr.effects t.mode) ++
          .helper "rsx" :: .wait :: (args.filter fun a => !a.out).flatMap fun a => a.expr.effects t.mode := by
      intro x
      simp only [List.mem_cons, List.mem_append, List.mem_flatMap, List.mem_filter]
      grind
    refine Tells.congr ?_ hmem
    simp only [code, rsxCode]
    split
    · rename_i hempty
      have hnone : args.filter RsxArg.out = [] := by simpa using hempty
      rw [hnone]
      exact tells_one (by simpa [Js.Stmt.events, Js.Stmt.calls] using hcall)
    · exact tells_one (by simpa [Js.Stmt.events, Js.Stmt.calls] using (hsome RsxArg.out).append hcall)
  | _ => exact .nil

end Stmt

/-! ## Lists of statements -/

namespace Emit

open Js (Agrees Event InOrder)

/-- The literals of the `DATA` statements, one list for each. -/
def literals (lists : List (List DataItem)) : List (List String) := lists.map fun items => items.map DataItem.literal

/-- **Code and the tables**: the helpers that are noted are those that the code calls, and the references
hold the text of the numbers that select. -/
structure Called (code : List Js.Stmt) (names : List String) (sites : List CallSite) : Prop where
  agrees : Agrees names (Js.Stmt.callsOf code)
  selects : ∀ x ∈ Js.Stmt.selectionsOf code, ∃ s, sites[x.1]? = some s ∧ s.kind = .indexed ∧ s.selector = x.2.text

namespace Called

variable {code code' : List Js.Stmt} {names names' : List String} {sites sites' : List CallSite}

theorem mono (h : Called code names sites) (hs : sites <+: sites') : Called code names sites' where
  agrees := h.agrees
  selects x hx := by
    obtain ⟨s, hget, hsel⟩ := h.selects x hx
    obtain ⟨more, rfl⟩ := hs
    exact ⟨s, by rw [List.getElem?_append_left (List.getElem?_eq_some_iff.1 hget).1, hget], hsel⟩

theorem append (h : Called code names sites) (h' : Called code' names' sites) :
    Called (code ++ code') (names ++ names') sites where
  agrees := by
    rw [Js.Stmt.callsOf_append]
    exact h.agrees.append h'.agrees
  selects := by
    rw [Js.Stmt.selectionsOf_append]
    exact List.forall_mem_append.2 ⟨h.selects, h'.selects⟩

end Called

/-- **Calls and definitions in order**, where `fns` are the functions of the source that are defined, and
`known'` those that are known to be asynchronous afterwards. -/
structure Sequenced (known known' fns : List String) (es : List Event) : Prop where
  inOrder : InOrder known es
  after : known' = known ++ es.filterMap Event.async?
  defined : es.filterMap Event.defined? = fns.map Js.identifier

namespace Sequenced

variable {known known' known'' fns fns' : List String} {es es' : List Event}

theorem append (h : Sequenced known known' fns es) (h' : Sequenced known' known'' fns' es') :
    Sequenced known known'' (fns ++ fns') (es ++ es') where
  inOrder := Js.InOrder.append_iff.2 ⟨h.inOrder, h.after ▸ h'.inOrder⟩
  after := by rw [h'.after, h.after, List.filterMap_append, List.append_assoc]
  defined := by rw [List.filterMap_append, h.defined, h'.defined, List.map_append]

/-- Calls as they should be define nothing. -/
theorem of_calls (called : List String) : Sequenced known known [] (called.map (Event.of known)) where
  inOrder := .of_calls called
  after := by
    have hnone : (called.map (Event.of known)).filterMap Event.async? = [] := by
      rw [List.filterMap_map]
      exact List.filterMap_eq_nil_iff.2 fun _ _ => rfl
    rw [hnone, List.append_nil]
  defined := by
    rw [List.filterMap_map]
    exact List.filterMap_eq_nil_iff.2 fun _ _ => rfl

end Sequenced

/-- **What code leaves in the tables** with the deeds `ds`: its helpers and the functions `fns`. -/
structure Accounted (t : Tables) (ds : List Deed) (code : List Js.Stmt) (fns : List String) : Prop where
  called : Called code (ds.flatMap Deed.helpers) (t.perform ds).callSites
  sequenced : Sequenced t.asyncFns (t.perform ds).asyncFns fns (Js.Stmt.eventsOf code)

theorem Accounted.append {t : Tables} {ds ds' : List Deed} {code code' : List Js.Stmt} {fns fns' : List String}
    (h : Accounted t ds code fns) (h' : Accounted (t.perform ds) ds' code' fns') :
    Accounted t (ds ++ ds') (code ++ code') (fns ++ fns') := by
  refine ⟨?_, ?_⟩
  · rw [List.flatMap_append, Tables.perform_append]
    exact (h.called.mono ⟨_, ((t.perform ds).performed ds').sites.symm⟩).append h'.called
  · rw [Tables.perform_append, Js.Stmt.eventsOf_append]
    exact h.sequenced.append h'.sequenced

end Emit

theorem Deed.helpers_effects (es : List Effect) : (es.map effect).flatMap helpers = es.filterMap Effect.helper? := by
  induction es with
  | nil => rfl
  | cons e es ih =>
    rw [List.map_cons, List.flatMap_cons, ih]
    cases e <;> rfl

namespace Stmt

theorem blocks_deeds (ss : List Stmt) (t : Tables) : (deedsOf t ss).filterMap Deed.block? = literals (dataListsOf ss) := by
  refine filterMap_deeds (g := fun ss => literals (dataListsOf ss)) (fun _ => rfl) (fun _ => rfl) rfl (fun s ss => ?_)
    (fun cond yes no => ?_) (fun s t hs => ?_) ss t
  · simp [dataListsOf, literals]
  · cases no <;> simp [dataListsOf, dataLists, dataListsElse, literals]
  · cases s with
    | branch => cases hs
    | next vars => simp [acts, List.filterMap_replicate, Deed.block?, dataListsOf, dataLists, literals]
    | command c args => cases c <;> rfl
    | _ => rfl

/-- What else is done for a statement than its effects notes no helper and defines no function. -/
theorem quiet_acts {s : Stmt} (hd : s.functions = []) (t : Tables) :
    (s.acts t).flatMap Deed.helpers = [] ∧ (s.acts t).flatMap Deed.asyncs = [] := by
  cases s with
  | defFn name params body => cases hd
  | next vars => simp [acts, List.flatMap_eq_nil_iff, List.mem_replicate, Deed.helpers, Deed.asyncs]
  | command c args => cases c <;> exact ⟨rfl, rfl⟩
  | _ => exact ⟨rfl, rfl⟩

/-- Only the code of `ON … GOSUB` calls one of several subroutines. -/
theorem selections_code {s : Stmt} (hs : s.isBranch = false)
    (hg : ∀ selector labels, s ≠ onGosub selector labels) (t : Tables) : ∀ c ∈ s.code t, c.selections = [] := by
  cases s with
  | branch => cases hs
  | onGosub selector labels => exact absurd rfl (hg selector labels)
  | command c args => cases c <;> simp [code, Command.code, Command.helper?, Js.Stmt.selections]
  | dim arrays => exact List.forall_mem_map.2 fun e _ => by cases e <;> rfl
  | input prompt question targets => cases targets <;> simp [code, inputCodes, inputCode, Js.Stmt.selections]
  | rsx name args =>
    simp only [code, rsxCode]
    split <;> simp [Js.Stmt.selections]
  | _ => simp [code, Js.Stmt.selections]

theorem accounted_simple {s : Stmt} (hs : s.isBranch = false) (h : s.Proper)
    (t : Tables) : Accounted t (s.deeds t) (s.code t) s.functions := by
  have hasyncs : ∀ es : List Effect, (es.map Deed.effect).flatMap Deed.asyncs = [] := fun es =>
    List.flatMap_eq_nil_iff.2 (List.forall_mem_map.2 fun _ _ => rfl)
  -- what defines no function, apart from the numbers that select
  have hquiet : s.functions = [] → (∀ x ∈ Js.Stmt.selectionsOf (s.code t), ∃ site,
      (t.perform (s.deeds t)).callSites[x.1]? = some site ∧ site.kind = .indexed ∧ site.selector = x.2.text) →
      Accounted t (s.deeds t) (s.code t) s.functions := by
    intro hd hselects
    have htells := tells_simple hs hd h t
    obtain ⟨hhelpers, hdefined⟩ := quiet_acts hd t
    refine ⟨⟨?_, hselects⟩, ?_⟩
    · rw [deeds_simple hs, List.flatMap_append, Deed.helpers_effects, hhelpers, List.append_nil]
      exact htells.agrees
    · rw [hd, htells.told.events_eq, (t.performed (s.deeds t)).known, deeds_simple hs, List.flatMap_append, hasyncs, hdefined,
        List.append_nil, List.append_nil]
      exact .of_calls _
  have hnone : (∀ selector labels, s ≠ onGosub selector labels) → ∀ x ∈ Js.Stmt.selectionsOf (s.code t), ∃ site,
      (t.perform (s.deeds t)).callSites[x.1]? = some site ∧ site.kind = .indexed ∧ site.selector = x.2.text := by
    intro hg
    have hcode := selections_code hs hg t
    generalize s.code t = code at hcode
    induction code with
    | nil => simp [Js.Stmt.selectionsOf]
    | cons c cs ih =>
      rw [Js.Stmt.selectionsOf, (List.forall_mem_cons.1 hcode).1]
      exact ih (List.forall_mem_cons.1 hcode).2
  cases s with
  | onGosub selector labels =>
    refine hquiet rfl fun x hx => ?_
    obtain rfl := List.mem_singleton.1 hx
    have heffects : ((selector.effects t.mode).map Deed.effect).filterMap (Deed.site? t.lineIndex t.lineNumber) = [] := by
      rw [List.filterMap_map]
      exact List.filterMap_eq_nil_iff.2 fun _ _ => rfl
    rw [(t.performed _).sites, deeds_simple hs, List.filterMap_append, effects, heffects]
    exact ⟨_, List.getElem?_concat_length, rfl, rfl⟩
  | defFn name params body =>
    have hbody := Expr.tells_code (μ := t.mode) h.wellFormed
    -- the calls of the body come first, and then the definition
    have hcalls : Sequenced t.asyncFns t.asyncFns [] ((body.code t.mode).events false) := hbody.told.events_eq ▸ .of_calls _
    have hdefine : Sequenced t.asyncFns (t.perform ((defFn name params body).deeds t)).asyncFns [name]
        [.define (Js.identifier name) ((body.effects t.mode).any Effect.isWait) (body.code t.mode)] := by
      refine ⟨⟨hbody.told.waits_eq, trivial⟩, ?_, rfl⟩
      rw [(t.performed _).known]
      simp only [deeds, effects, acts, List.map_nil, List.nil_append, List.flatMap_singleton, Deed.asyncs]
      cases (body.effects t.mode).any Effect.isWait <;> rfl
    refine ⟨⟨?_, hnone fun _ _ h => by cases h⟩, ?_⟩
    · simpa [deeds, effects, acts, Deed.helpers, code, Js.Stmt.callsOf, Js.Stmt.calls] using hbody.agrees
    · simpa [code, Js.Stmt.eventsOf, Js.Stmt.events, functions] using hcalls.append hdefine
  | branch => cases hs
  | _ => exact hquiet rfl (hnone fun _ _ h => by cases h)

/-- **The code of statements** calls the helpers that are noted with it, and its calls and definitions are in order. -/
theorem accounted {ss : List Stmt} (h : AllProper ss) : ∀ t,
    Accounted t (deedsOf t ss) (codeOf t ss) (functionsOf ss) := by
  induction ss using Stmt.induct with
  | nil => exact fun t => ⟨⟨.nil, by simp [codeOf, Js.Stmt.selectionsOf]⟩, .of_calls []⟩
  | cons s ss hs hss =>
    intro t
    have hone := hs ⟨h.1, trivial⟩ t
    have hrest := hss h.2 (t.perform (s.deeds t))
    rw [deedsOf_one, codeOf_one, functionsOf, functionsOf, List.append_nil] at hone
    rw [deedsOf, codeOf, functionsOf]
    exact hone.append hrest
  | branch cond yes no hyes hno =>
    intro t
    obtain ⟨t₁, t₂, h₁, h₂, heq, hcode⟩ := branch_eq t cond yes no
    have hcond := Expr.tells_conditionCode (μ := t.mode) h.1.1.wellFormed
    have hy := hyes h.1.2.1 t₁
    have hn := hno (allProper_getD h.1.2.2) t₂
    have hblocks : ∀ (n : Nat) (k : Int), (List.replicate n (Deed.indent k)).flatMap Deed.helpers = [] := by
      simp [List.flatMap_eq_nil_iff, List.mem_replicate, Deed.helpers]
    have hsites : (t₁.perform (deedsOf t₁ yes)).callSites <+: (t₂.perform (deedsOf t₂ (no.getD []))).callSites := by
      rw [← h₂.1]
      exact ⟨_, (t₂.performed _).sites.symm⟩
    have hbranches := (hy.called.mono hsites).append hn.called
    rw [← h₂.2.2.1] at hbranches
    have hfns : functionsOf [branch cond yes no] = functionsOf yes ++ functionsOf (no.getD []) := by
      cases no <;> simp [functionsOf, functions, functionsElse]
    refine ⟨⟨?_, ?_⟩, ?_⟩
    · have hall := hcond.agrees.append hbranches.agrees
      rw [heq, hcode]
      cases no <;> simpa [Deed.helpers_effects, Deed.helpers, hblocks, Js.Stmt.callsOf, Js.Stmt.calls, Js.Stmt.callsOfElse,
        Js.Stmt.callsOf_append, codeOf] using hall
    · rw [hcode]
      cases no <;> simpa [Js.Stmt.selectionsOf, Js.Stmt.selections, Js.Stmt.selectionsOfElse, Js.Stmt.selectionsOf_append,
        codeOf] using hbranches.selects
    · have hfirst : Sequenced t.asyncFns t₁.asyncFns [] ((cond.conditionCode t.mode).events false) := by
        rw [h₁.2, hcond.told.events_eq]
        exact .of_calls _
      have hall := hfirst.append (hy.sequenced.append (h₂.2.1 ▸ hn.sequenced))
      rw [hcode, hfns, h₂.2.2.2]
      cases no <;> simpa [Js.Stmt.eventsOf, Js.Stmt.events, Js.Stmt.eventsOfElse, codeOf] using hall
  | simple s hs =>
    intro t
    rw [deedsOf_one, codeOf_one, functionsOf, functionsOf, List.append_nil]
    exact accounted_simple hs h.1 t

end Stmt

end Locomotive
