import Locomotive.Proofs.Emit.Stmt
import Locomotive.Proofs.Js.Variable
import Locomotive.Proofs.Tables.Count
import Mathlib.Data.List.Perm.Basic

/-!
# References to variables

Generating the code of a statement counts a use of a variable for each of its references, under
the label of the subroutine that is open. The parameters of a `DEF FN` are not counted in its body. The code is made
of the variables that are counted.

* `Expr.mentions`, `Stmt.mentions`: the variables that an expression or a statement refers to.
* `Refers`, `Stmt.refers_deeds`: what such references do to the tables.
* `Written`, `Stmt.written_code`: what the code of statements is made of.
-/

namespace Locomotive

/-! ## References in the source -/

namespace Expr

mutual

/-- The identifiers of the variables that the code of an expression refers to. A function that
does not look at an argument has no code for it. -/
def mentions : Expr → List String
  | number _ _ _ => []
  | string _ => []
  | var name => [Js.identifier name]
  | index name indices => Js.identifier name :: mentionsOf indices
  | binary _ left right => left.mentions ++ right.mentions
  | unary _ operand => operand.mentions
  | paren inner => inner.mentions
  | call f args => mentionsOfFirsts (f.taken args.length) args
  | fn _ args => mentionsOf args
  | missing => []

/-- The references of the members of a list. -/
def mentionsOf : List Expr → List String
  | [] => []
  | e :: es => e.mentions ++ mentionsOf es

/-- The references of the first members of a list. -/
def mentionsOfFirsts : Nat → List Expr → List String
  | 0, _ => []
  | _ + 1, [] => []
  | n + 1, e :: es => e.mentions ++ mentionsOfFirsts n es

end

theorem mentionsOf_eq (es : List Expr) : mentionsOf es = es.flatMap mentions := by
  induction es with
  | nil => rfl
  | cons e es ih => rw [mentionsOf, ih, List.flatMap_cons]

theorem mentionsOfFirsts_eq (n : Nat) (es : List Expr) : mentionsOfFirsts n es = (es.take n).flatMap mentions := by
  induction es generalizing n with
  | nil => cases n <;> rfl
  | cons e es ih =>
    cases n with
    | zero => rfl
    | succ n => rw [mentionsOfFirsts, ih, List.take_succ_cons, List.flatMap_cons]

end Expr

/-- The references of an element of a `PRINT` list. -/
def PrintItem.mentions : PrintItem → List String
  | value e => e.mentions
  | tab e => e.mentions
  | spc e => e.mentions
  | formatted f v => f.mentions ++ v.mentions
  | _ => []

namespace Stmt

mutual

/-- The identifiers of the variables that the code of a statement refers to. The stream of a `PRINT`
or `WRITE` has no code. The parameters of a `DEF FN` are no references, and in its body they
are not references to variables. -/
def mentions : Stmt → List String
  | assign place value => place.mentions ++ value.mentions
  | print _ items => items.flatMap PrintItem.mentions
  | write _ args => Expr.mentionsOf args
  | command c args => if c.helper?.isSome then Expr.mentionsOf args else []
  | graphics _ x y pen => Expr.mentionsOf (x :: y :: pen.toList)
  | forLoop var start stop stride => Js.identifier var :: Expr.mentionsOf (start :: stop :: stride.toList)
  | next vars => vars.map Js.identifier
  | whileLoop cond => cond.mentions
  | branch cond yes no => cond.mentions ++ mentionsOf yes ++ mentionsOfElse no
  | onGosub selector _ => selector.mentions
  | read targets => Expr.mentionsOf targets
  | dim arrays => Expr.mentionsOf arrays
  | erase names => names.map Js.identifier
  | defFn _ params body => body.mentions.filter fun x => !(params.map Js.identifier).contains x
  | input _ _ targets => Expr.mentionsOf targets
  | timer _ interval which _ => Expr.mentionsOf (interval :: which.toList)
  | rsx _ args => Expr.mentionsOf (args.map RsxArg.expr)
  | _ => []

/-- The references of the statements of a list. -/
def mentionsOf : List Stmt → List String
  | [] => []
  | s :: ss => s.mentions ++ mentionsOf ss

/-- The references of the statements of an `ELSE`. -/
def mentionsOfElse : Option (List Stmt) → List String
  | none => []
  | some ss => mentionsOf ss

end

end Stmt

/-! ## What references do to the tables -/

/-- **References to variables.** Each of `ids` that is no parameter is counted once under the
label of the open subroutine. -/
structure Refers (t t' : Tables) (ids : List String) : Prop where
  openSub : t'.openSub = t.openSub
  binding : t'.binding = t.binding
  counted : t.Counted → t'.Counted
  uses : ∀ id label, t'.uses id label =
    t.uses id label + if label = t.scope then (ids.filter fun x => !t.binding.params.contains x).count id else 0

namespace Refers

variable {t t' t'' : Tables} {ids ids' : List String}

theorem scope (h : Refers t t' ids) : t'.scope = t.scope := by
  unfold Tables.scope
  rw [h.openSub]

theorem trans (h : Refers t t' ids) (h' : Refers t' t'' ids') : Refers t t'' (ids ++ ids') := by
  refine ⟨h'.openSub.trans h.openSub, h'.binding.trans h.binding, fun hc => h'.counted (h.counted hc), fun id label => ?_⟩
  rw [h'.uses, h.uses, h.scope, h.binding, List.filter_append, List.count_append]
  split <;> omega

/-- The variables stay. -/
theorem of_vars (hv : t'.vars = t.vars) (ho : t'.openSub = t.openSub) (hb : t'.binding = t.binding)
    (hids : ids.filter (fun x => !t.binding.params.contains x) = []) : Refers t t' ids := by
  refine ⟨ho, hb, fun hc => ⟨hv ▸ hc.nodup, hv ▸ hc.valid, hv ▸ hc.used⟩, fun id label => ?_⟩
  unfold Tables.uses
  rw [hv, hids]
  simp

/-- The order of the references plays no part. -/
theorem perm (h : Refers t t' ids) (hp : ids.Perm ids') : Refers t t' ids' :=
  ⟨h.openSub, h.binding, h.counted, fun id label => by rw [h.uses, (hp.filter _).count_eq]⟩

/-- A variable is used that is no parameter. -/
theorem mention (t : Tables) {id : String} (hid : id ∉ t.binding.params) (storage : Storage) :
    Refers t (t.mention id storage) [id] := by
  obtain ⟨vars, new, heq, -, -⟩ := t.mention_eq id storage
  refine ⟨by rw [heq], by rw [heq], fun hc => hc.mention id storage, fun n label => ?_⟩
  have hkept : [id].filter (fun x => !t.binding.params.contains x) = [id] := by simp [hid]
  rw [Tables.uses_mention, hkept, List.count_singleton]
  by_cases hn : n = id
  · simp [hn]
  · simp [hn, Ne.symm hn]

end Refers

/-- The effect counts a name that it uses, unless parameters are collected. -/
theorem Effect.refers (e : Effect) {t : Tables} (hb : ∀ ps, t.binding ≠ .collecting ps) :
    Refers t (e.run t) e.id?.toList := by
  cases e with
  | mention name storage =>
    show Refers t (t.reference name storage).2 [Js.identifier name]
    unfold Tables.reference
    generalize Js.identifier name = id
    cases hbinding : t.binding with
    | collecting ps => exact absurd hbinding (hb ps)
    | outside => exact .mention t (by simp [hbinding, Binding.params]) storage
    | body ps =>
      dsimp only
      split
      · rename_i hparam
        exact .of_vars rfl rfl rfl (by simpa [hbinding, Binding.params] using hparam)
      · rename_i hfree
        exact .mention t (by simpa [hbinding, Binding.params] using hfree) storage
  | _ => exact .of_vars rfl rfl rfl rfl

theorem Tables.refers_undergo (t : Tables) (hb : ∀ ps, t.binding ≠ .collecting ps) (es : List Effect) :
    Refers t (t.undergo es) (es.filterMap Effect.id?) := by
  induction es generalizing t with
  | nil => exact .of_vars rfl rfl rfl rfl
  | cons e es ih =>
    have he := e.refers hb
    have hrest := he.trans (ih _ fun ps => he.binding ▸ hb ps)
    cases e <;> exact hrest

/-- The variables that a deed refers to. Parameters of a definition are none. -/
def Deed.uses : Deed → List String
  | effect e => e.id?.toList
  | define _ params body => (body.filterMap Effect.id?).filter fun x => !(params.map Js.identifier).contains x
  | _ => []

theorem Deed.refers (d : Deed) {t : Tables} (hb : t.binding = .outside) : Refers t (d.run t) d.uses := by
  cases d with
  | effect e => exact e.refers fun ps h => by rw [hb] at h; cases h
  | define name params body =>
    have h := Tables.refers_undergo { t with binding := .body (params.map Js.identifier), waits := false }
      (fun ps h => by cases h) body
    refine ⟨h.openSub, hb.symm, fun hc => ?_, fun id label => ?_⟩
    · have hc' := h.counted ⟨hc.nodup, hc.valid, hc.used⟩
      exact ⟨hc'.nodup, hc'.valid, hc'.used⟩
    · -- outside of the body nothing is a parameter
      have hparams : t.binding.params = [] := by rw [hb]; rfl
      rw [hparams]
      simp only [List.contains_nil, Bool.not_false, List.filter_true]
      exact h.uses id label
  | _ => exact .of_vars rfl rfl rfl rfl

theorem Tables.refers_perform (t : Tables) (hb : t.binding = .outside) (ds : List Deed) :
    Refers t (t.perform ds) (ds.flatMap Deed.uses) := by
  induction ds generalizing t with
  | nil => exact .of_vars rfl rfl rfl rfl
  | cons d ds ih =>
    have hd := d.refers hb
    exact hd.trans (ih _ (hd.binding.trans hb))

/-! ## References of effects -/

theorem ids_numberEffects (radix : Radix) (text : String) : (numberEffects radix text).filterMap Effect.id? = [] := by
  unfold numberEffects
  split <;> rfl

namespace Expr

variable {μ : Mode}

theorem ids_flatMap {es : List Expr} (h : ∀ e ∈ es, (e.effects μ).filterMap Effect.id? = e.mentions) :
    (es.flatMap (effects μ)).filterMap Effect.id? = es.flatMap mentions := by
  rw [List.filterMap_flatMap]
  exact List.flatMap_congr h

/-- **The references of an expression** are those of its effects. -/
theorem ids_effects (e : Expr) : (e.effects μ).filterMap Effect.id? = e.mentions := by
  induction e using Expr.induct with
  | number radix text line => exact ids_numberEffects radix text
  | index name is ih =>
    rw [effects_index, mentions, mentionsOf_eq, ← ids_flatMap ih]
    rfl
  | binary op l r hl hr => rw [effects, List.filterMap_append, hl, hr, mentions]
  | unary op e ih => exact ih
  | paren e ih => exact ih
  | call f args ih =>
    have hhelper : (f.helper?.toList.map Effect.helper).filterMap Effect.id? = [] := by cases f.helper? <;> rfl
    have hrest : (f.effects μ.deg).filterMap Effect.id? = [] := by cases f <;> cases μ.deg <;> rfl
    rw [effects_call, mentions, mentionsOfFirsts_eq, ← ids_flatMap fun e he => ih e (List.mem_of_mem_take he)]
    simp only [List.filterMap_append, hhelper, hrest, List.nil_append, List.append_nil]
  | fn name args ih =>
    rw [effects_fn, mentions, mentionsOf_eq, ← ids_flatMap ih, List.filterMap_append]
    split <;> simp [Effect.id?]
  | _ => rfl

@[simp] theorem ids_all (es : List Expr) : (es.flatMap (effects μ)).filterMap Effect.id? = mentionsOf es := by
  rw [mentionsOf_eq]
  exact ids_flatMap fun e _ => e.ids_effects

end Expr

/-! ## The variables of code -/

open Js.Expr (vars varsOf)

theorem append_subset {α : Type} {xs ys xs' ys' : List α} (h : xs ⊆ xs') (h' : ys ⊆ ys') : xs ++ ys ⊆ xs' ++ ys' :=
  List.append_subset.2 ⟨List.subset_append_of_subset_left _ h, List.subset_append_of_subset_right _ h'⟩

/-- The objects of the target that functions belong to are no variables. -/
theorem Builtin.isVariable_direct {f : Builtin} {object name : String} (h : f.direct? = some (object, name)) :
    Js.isVariable object = false := by
  cases f <;> cases h <;> decide

/-- Words of the code that are no variables. -/
theorem Js.isVariable_word : isVariable "Math" = false ∧ isVariable "0" = false ∧ isVariable "1" = false ∧
    isVariable "\" \"" = false := by decide

open Emit (math receiver before angleCode operation compared)

theorem Builtin.vars_code (f : Builtin) (deg : Bool) (xs : List Js.Expr) : (f.code deg xs).vars ⊆ varsOf xs := by
  unfold code
  split
  case h_16 =>
    split
    · rename_i hdirect
      simp [vars, isVariable_direct hdirect]
    all_goals simp [vars]
  all_goals cases deg <;> simp [vars, varsOf, math, receiver, before, angleCode, Js.isVariable_word]

theorem BinaryOp.vars_code (op : BinaryOp) (x y : Js.Expr) : (op.code x y).vars = x.vars ++ y.vars := by
  cases op <;> simp [code, math, operation, compared, comparison?, direct?, vars, varsOf, Js.isVariable_word]

theorem UnaryOp.vars_code (op : UnaryOp) (e : Expr) (x : Js.Expr) : (op.code e x).vars = x.vars := by
  cases op <;> simp [code, vars, varsOf]

namespace Expr

variable {μ : Mode}

theorem vars_flatMap {es : List Expr} (h : ∀ e ∈ es, (e.code μ).vars ⊆ e.mentions) :
    varsOf (es.map (code μ)) ⊆ es.flatMap mentions := by
  induction es with
  | nil => exact List.nil_subset _
  | cons e es ih =>
    obtain ⟨he, hes⟩ := List.forall_mem_cons.1 h
    rw [List.map_cons, varsOf, List.flatMap_cons]
    exact append_subset he (ih hes)

/-- **The code of an expression** is made of the variables that it refers to. -/
theorem vars_code {e : Expr} (h : e.Numeric) : (e.code μ).vars ⊆ e.mentions := by
  induction e using Expr.induct with
  | number radix text line =>
    have hliteral : Js.isVariable (Js.numberLiteral radix text) = false := by
      refine Js.isVariable_numberLiteral radix ?_
      rintro rfl
      exact h _ .self
    simp [code, vars, hliteral]
  | string value => simp [code, vars, Js.isVariable_quote]
  | var name =>
    rw [code, vars, mentions]
    split <;> simp
  | index name is ih =>
    rw [code_index, vars, mentions, mentionsOf_eq]
    exact List.cons_subset_cons _ (vars_flatMap fun e he => ih e he (h.child he))
  | binary op l r hl hr =>
    rw [code, op.vars_code, mentions]
    exact append_subset (hl (h.child (by simp [children]))) (hr (h.child (by simp [children])))
  | unary op e ih =>
    rw [code, op.vars_code, mentions]
    exact ih (h.child (by simp [children]))
  | paren e ih =>
    rw [code, Js.Expr.vars_atLeast, mentions]
    exact ih (h.child (by simp [children]))
  | call f args ih =>
    rw [code_call, mentions, mentionsOfFirsts_eq]
    exact List.Subset.trans (f.vars_code _ _) (vars_flatMap fun e he =>
      ih e (List.mem_of_mem_take he) (h.child (List.mem_of_mem_take he)))
  | fn name args ih =>
    rw [code_fn, mentions, mentionsOf_eq]
    split <;> exact vars_flatMap fun e he => ih e he (h.child he)
  | missing => simp [code, vars, Js.isVariable]

theorem vars_conditionCode {e : Expr} (h : e.Numeric) : (e.conditionCode μ).vars ⊆ e.mentions := by
  rw [of_conditionCode vars (fun _ _ _ => rfl) (fun x rank => x.vars_atLeast rank) e]
  exact e.vars_code h

theorem vars_all {es : List Expr} (h : ∀ e ∈ es, e.Proper) : varsOf (es.map (code μ)) ⊆ mentionsOf es := by
  rw [mentionsOf_eq]
  exact vars_flatMap fun e he => e.vars_code (h e he).numeric

end Expr

/-! ## Statements -/

theorem Deed.uses_effects (es : List Effect) : (es.map effect).flatMap uses = es.filterMap Effect.id? := by
  induction es with
  | nil => rfl
  | cons e es ih =>
    rw [List.map_cons, List.flatMap_cons, ih]
    cases e <;> rfl

/-- **What the code of statements is made of**: the given variables, and marks where they are
written once. -/
structure Written (ids : List String) (code : List Js.Stmt) : Prop where
  vars : ∀ v ∈ Js.Stmt.varsOf code, v ∈ ids
  sited : Js.Stmt.AllSited code

namespace Stmt

open Emit

theorem ids_print (μ : Mode) (items : List PrintItem) :
    ((items.flatMap (PrintItem.effects μ)).filterMap Effect.id?).Perm (items.flatMap PrintItem.mentions) := by
  rw [List.filterMap_flatMap]
  refine List.Perm.flatMap_left _ fun i _ => ?_
  cases i with
  | formatted f v =>
    -- the value comes before its format in the code
    rw [PrintItem.effects, List.filterMap_cons, List.filterMap_append, v.ids_effects, f.ids_effects]
    exact List.perm_append_comm
  | value e | tab e | spc e => rw [PrintItem.effects, e.ids_effects]; exact .refl _
  | _ => exact .refl _

theorem ids_stream (stream : Option Expr) : (streamEffects stream).filterMap Effect.id? = [] := by
  cases stream with
  | none => rfl
  | some e => unfold streamEffects; dsimp only; split <;> rfl

theorem ids_names (names : List String) (storage : Storage) :
    (names.map fun v => Effect.mention v storage).filterMap Effect.id? = names.map Js.identifier := by
  rw [List.filterMap_map]
  exact congrFun (List.filterMap_eq_map (f := Js.identifier)) names

/-- The references of a statement are those of its deeds. -/
theorem uses_simple {s : Stmt} (hs : s.isBranch = false) (h : s.Proper) (t : Tables) :
    ((s.deeds t).flatMap Deed.uses).Perm s.mentions := by
  rw [deeds_simple hs, List.flatMap_append, Deed.uses_effects]
  cases s with
  | branch => cases hs
  | print stream items =>
    simp only [effects, acts, List.filterMap_cons, Effect.id?, List.filterMap_append, ids_stream, List.flatMap_nil, List.append_nil,
      List.nil_append]
    exact ids_print t.mode items
  | command c args => cases c <;> simp [effects, acts, Command.effects, Command.helper?, List.filterMap_cons, Effect.id?, mentions, Deed.uses]
  | next vars =>
    have hblocks : (List.replicate (max 1 vars.length) (Deed.indent (-1))).flatMap Deed.uses = [] := by
      simp [List.flatMap_eq_nil_iff, List.mem_replicate, Deed.uses]
    rw [effects, acts, ids_names, hblocks, List.append_nil, mentions]
  | ret =>
    rw [effects]
    split <;> exact .refl _
  | data items =>
    have hitems : (items.flatMap DataItem.effects).filterMap Effect.id? = [] := by
      rw [List.filterMap_flatMap, List.flatMap_eq_nil_iff]
      intro i _
      cases i with
      | text value => rfl
      | number radix written => exact ids_numberEffects radix written
    rw [effects, hitems]
    exact .refl _
  | dim arrays =>
    have harrays : ((arrays.flatMap (dimEffects t.mode)).filterMap Effect.id?).Perm (Expr.mentionsOf arrays) := by
      rw [List.filterMap_flatMap, Expr.mentionsOf_eq]
      refine List.Perm.flatMap_left _ fun e he => ?_
      obtain ⟨name, sizes, rfl, -⟩ := (h.2 e he).parts
      rw [dimEffects, List.filterMap_append, Expr.ids_all, Expr.mentions]
      exact List.perm_append_comm
    simpa [effects, acts, List.filterMap_cons, Effect.id?, mentions] using harrays
  | erase names =>
    rw [effects, ids_names]
    exact .of_eq (List.append_nil _)
  | defFn name params body => simp [effects, acts, Deed.uses, Expr.ids_effects, mentions]
  | rsx name args =>
    have hargs := Expr.ids_all (μ := t.mode) (args.map RsxArg.expr)
    rw [List.flatMap_map] at hargs
    simp [effects, acts, List.filterMap_cons, Effect.id?, mentions, hargs]
  | _ => simp [effects, acts, List.filterMap_cons, Effect.id?, mentions, Expr.ids_effects, Expr.mentionsOf, Deed.uses]

theorem uses_deeds {ss : List Stmt} (h : AllProper ss) : ∀ t, ((deedsOf t ss).flatMap Deed.uses).Perm (mentionsOf ss) := by
  have hblocks : ∀ (n : Nat) (k : Int), (List.replicate n (Deed.indent k)).flatMap Deed.uses = [] := by
    simp [List.flatMap_eq_nil_iff, List.mem_replicate, Deed.uses]
  induction ss using Stmt.induct with
  | nil => exact fun t => .refl _
  | cons s ss hs hss =>
    intro t
    have hs := hs ⟨h.1, trivial⟩ t
    rw [deedsOf_one, mentionsOf, mentionsOf, List.append_nil] at hs
    rw [deedsOf, List.flatMap_append, mentionsOf]
    exact hs.append (hss h.2 _)
  | branch cond yes no hyes hno =>
    intro t
    obtain ⟨t₁, t₂, -, -, heq, -⟩ := branch_eq t cond yes no
    have helse : mentionsOf (no.getD []) = mentionsOfElse no := by cases no <;> rfl
    have hno := hno (allProper_getD h.1.2.2) t₂
    rw [helse] at hno
    rw [heq, mentionsOf, mentionsOf, mentions, List.append_nil]
    simp only [List.flatMap_append, List.flatMap_cons, Deed.uses_effects, cond.ids_effects, Deed.uses, List.nil_append, hblocks,
      List.append_nil]
    exact ((List.Perm.refl _).append (hyes h.1.2.1 t₁)).append hno
  | simple s hs =>
    intro t
    rw [deedsOf_one, mentionsOf, mentionsOf, List.append_nil]
    exact uses_simple hs h.1 t

/-- **The references of statements.** -/
theorem refers_deeds {ss : List Stmt} (h : AllProper ss) {t : Tables} (hb : t.binding = .outside) :
    Refers t (t.perform (deedsOf t ss)) (mentionsOf ss) :=
  (t.refers_perform hb _).perm (uses_deeds h t)

/-! ## The variables of the code of statements -/

theorem vars_print (μ : Mode) {items : List PrintItem} (h : ∀ i ∈ items, i.Proper) :
    varsOf (items.flatMap (PrintItem.code μ)) ⊆ items.flatMap PrintItem.mentions := by
  induction items with
  | nil => exact List.nil_subset _
  | cons i is ih =>
    obtain ⟨hi, his⟩ := List.forall_mem_cons.1 h
    rw [List.flatMap_cons, List.flatMap_cons, Js.Expr.varsOf_append]
    refine append_subset ?_ (ih his)
    cases i with
    | value e | tab e | spc e => simpa [PrintItem.code, varsOf, vars, PrintItem.mentions] using e.vars_code hi.numeric
    | formatted f v =>
      have hv := v.vars_code (μ := μ) hi.2.numeric
      have hf := f.vars_code (μ := μ) hi.1.numeric
      simpa [PrintItem.code, varsOf, vars, PrintItem.mentions] using
        ⟨List.subset_append_of_subset_right _ hv, List.subset_append_of_subset_left _ hf⟩
    | _ => simp [PrintItem.code, varsOf, vars]

theorem vars_step (μ : Mode) {stride : Option Expr} (h : ∀ e ∈ stride, e.Proper) :
    ((stepCode μ stride).amount?.map vars).getD [] ⊆ Expr.mentionsOf stride.toList := by
  have hone : ∀ e ∈ stride, (e.code μ).vars ⊆ Expr.mentionsOf stride.toList := fun e he => by
    have hv := e.vars_code (μ := μ) (h e he).numeric
    obtain rfl := Option.mem_def.1 he
    simpa [Expr.mentionsOf] using hv
  unfold stepCode
  split
  · exact List.nil_subset _
  · rename_i radix text line
    have hnumber : (Expr.number radix text line).Numeric :=
      (h _ rfl).numeric.child (by simp [Expr.children])
    exact (Expr.number radix text line).vars_code (μ := μ) hnumber
  · split <;> exact hone _ rfl

/-- The code of each member of a list, one after the other. -/
theorem vars_map {f : Expr → Js.Stmt} {es : List Expr} (h : ∀ e ∈ es, (f e).vars ⊆ e.mentions) :
    Js.Stmt.varsOf (es.map f) ⊆ Expr.mentionsOf es := by
  induction es with
  | nil => exact List.nil_subset _
  | cons e es ih =>
    obtain ⟨he, hes⟩ := List.forall_mem_cons.1 h
    exact append_subset he (ih hes)

theorem vars_input (μ : Mode) (prompt : String) {e : Expr} (h : e.Target) : (inputCode μ prompt e).vars ⊆ e.mentions := by
  have hword : Js.isVariable (if e.type = .string then "false" else "true") = false := by split <;> decide
  simpa [inputCode, Js.Stmt.vars, vars, varsOf, hword, Js.isVariable_quote] using e.vars_code h.proper.numeric

theorem vars_simple {s : Stmt} (hs : s.isBranch = false) (h : s.Proper) (t : Tables) :
    Js.Stmt.varsOf (s.code t) ⊆ s.mentions := by
  have hcall : ∀ {name : String} {xs : List Js.Expr} {ids : List String}, varsOf xs ⊆ ids →
      Js.Stmt.varsOf [.expr (.call name xs)] ⊆ ids := fun hxs => by simpa [Js.Stmt.varsOf, Js.Stmt.vars, vars] using hxs
  cases s with
  | branch => cases hs
  | assign place value =>
    have hboth := append_subset (place.vars_code (μ := t.mode) h.1.proper.numeric) (value.vars_code (μ := t.mode) h.2.numeric)
    rw [code]
    split <;> simpa [Js.Stmt.varsOf, Js.Stmt.vars, math, vars, varsOf, Js.isVariable_word, mentions] using hboth
  | print stream items =>
    refine hcall ?_
    have hend : varsOf (newline items) = [] := by unfold newline; split <;> decide
    rw [Js.Expr.varsOf_append, hend, List.append_nil]
    exact vars_print t.mode h
  | write _ args => exact hcall (Expr.vars_all h)
  | graphics name x y pen =>
    have hargs : ∀ e ∈ x :: y :: pen.toList, e.Proper := by simpa using ⟨h.2.1, h.2.2.1, h.2.2.2⟩
    exact hcall (Expr.vars_all hargs)
  | command c args =>
    have hargs := Expr.vars_all (μ := t.mode) h.2
    have hword : Js.isVariable "true" = false ∧ Js.isVariable "false" = false := by decide
    cases c <;> first | exact hcall hargs |
      simp [code, Command.code, Command.helper?, Js.Stmt.varsOf, Js.Stmt.vars, vars, varsOf, hword]
  | forLoop var start stop stride =>
    have hrest := append_subset (append_subset (start.vars_code (μ := t.mode) h.1.numeric)
      (stop.vars_code (μ := t.mode) h.2.1.numeric)) (vars_step t.mode h.2.2)
    simpa [code, Js.Stmt.varsOf, Js.Stmt.vars, compared, mentions, Expr.mentionsOf] using
      List.cons_subset_cons (Js.identifier var) hrest
  | next vars =>
    have hclose : ∀ n, Js.Stmt.varsOf (List.replicate n .close) = [] := fun n => by
      induction n with
      | zero => rfl
      | succ n ih => exact ih
    rw [code, hclose]
    exact List.nil_subset _
  | whileLoop cond => simpa [code, Js.Stmt.varsOf, Js.Stmt.vars, mentions] using Expr.vars_conditionCode h.numeric
  | onGosub selector labels =>
    simpa [code, Js.Stmt.varsOf, Js.Stmt.vars, vars, compared, mentions] using selector.vars_code h.1.numeric
  | read targets =>
    refine vars_map fun e he => ?_
    simpa [Js.Stmt.vars, vars, varsOf] using e.vars_code (h.2 e he).proper.numeric
  | restore label =>
    refine hcall ?_
    cases label with
    | none => exact List.nil_subset _
    | some l =>
      obtain ⟨n, rfl⟩ := h l rfl
      simp only [Option.toList_some, List.map_cons, List.map_nil, varsOf, vars, Js.isVariable_toString, Bool.false_eq_true, if_false]
      exact List.nil_subset _
  | dim arrays =>
    refine vars_map fun e he => ?_
    obtain ⟨name, sizes, rfl, hproper⟩ := (h.2 e he).parts
    have hsizes := Expr.vars_all (μ := t.mode) hproper
    have hempty : Js.isVariable "\"\"" = false := by decide
    rw [Expr.mentions, dimCode, Js.Stmt.vars]
    refine List.append_subset.2 ⟨?_, List.subset_cons_of_subset _ ?_⟩
    · rw [vars]
      split <;> simp
    · split <;> simpa [vars, varsOf, hempty] using hsizes
  | erase names =>
    have hnames : ∀ as : List String, Js.Stmt.varsOf (as.map fun a => .assign (.atom a) (.array [])) ⊆ as := by
      intro as
      induction as with
      | nil => exact List.nil_subset _
      | cons a as ih =>
        refine List.append_subset.2 ⟨?_, List.subset_cons_of_subset _ ih⟩
        simp only [Js.Stmt.vars, vars, varsOf, List.append_nil]
        split <;> simp
    exact hnames _
  | defFn name params body =>
    have hbody := body.vars_code (μ := t.mode) h.numeric
    rw [code, Js.Stmt.varsOf, Js.Stmt.varsOf, List.append_nil, mentions, Js.Stmt.vars]
    -- both sides leave out the parameters
    intro v hv
    obtain ⟨hv, hfree⟩ := List.mem_filter.1 hv
    exact List.mem_filter.2 ⟨hbody hv, hfree⟩
  | input prompt question targets =>
    cases targets with
    | nil => exact List.nil_subset _
    | cons e es =>
      obtain ⟨he, hes⟩ := List.forall_mem_cons.1 h.2
      exact append_subset (vars_input _ _ he) (vars_map fun e h => vars_input _ _ (hes e h))
  | timer name interval which label =>
    have hi := interval.vars_code (μ := t.mode) h.2.1.numeric
    cases which with
    | none => simpa [code, Js.Stmt.varsOf, Js.Stmt.vars, vars, varsOf, Js.isVariable_word, mentions, Expr.mentionsOf] using hi
    | some e =>
      simpa [code, Js.Stmt.varsOf, Js.Stmt.vars, vars, varsOf, mentions, Expr.mentionsOf] using
        append_subset hi (e.vars_code (μ := t.mode) (h.2.2.1 e rfl).numeric)
  | rsx name args =>
    have hsome : ∀ keep : RsxArg → Bool, varsOf ((args.filter keep).map fun a => a.expr.code t.mode) ⊆ mentions (rsx name args) := by
      intro keep
      have hargs : varsOf (((args.filter keep).map RsxArg.expr).map (Expr.code t.mode)) ⊆ _ := Expr.vars_flatMap
        (List.forall_mem_map.2 fun a ha => a.expr.vars_code (h a (List.mem_filter.1 ha).1).proper.numeric)
      rw [List.map_map, List.flatMap_map] at hargs
      refine List.Subset.trans hargs ?_
      rw [mentions, Expr.mentionsOf_eq, List.flatMap_map]
      exact fun v hv => by
        obtain ⟨a, ha, hmem⟩ := List.mem_flatMap.1 hv
        exact List.mem_flatMap.2 ⟨a, (List.mem_filter.1 ha).1, hmem⟩
    simp only [code, rsxCode]
    split
    · simpa [Js.Stmt.varsOf, Js.Stmt.vars, vars, varsOf, Js.isVariable_quote] using hsome _
    · simpa [Js.Stmt.varsOf, Js.Stmt.vars, vars, varsOf, Js.isVariable_quote] using ⟨hsome _, hsome _⟩
  | _ => simp [code, Js.Stmt.varsOf, Js.Stmt.vars, vars]

theorem vars_codeOf {ss : List Stmt} (h : AllProper ss) : ∀ t, Js.Stmt.varsOf (codeOf t ss) ⊆ mentionsOf ss := by
  induction ss using Stmt.induct with
  | nil => exact fun t => List.nil_subset _
  | cons s ss hs hss =>
    intro t
    have hs := hs ⟨h.1, trivial⟩ t
    rw [codeOf_one, mentionsOf, mentionsOf, List.append_nil] at hs
    rw [codeOf, Js.Stmt.varsOf_append, mentionsOf]
    exact append_subset hs (hss h.2 _)
  | branch cond yes no hyes hno =>
    intro t
    obtain ⟨t₁, t₂, -, -, -, heq⟩ := branch_eq t cond yes no
    have helse : Js.Stmt.varsOfElse (no.map (codeOf t₂)) ⊆ mentionsOfElse no := by
      cases no with
      | none => exact List.nil_subset _
      | some ss => exact hno h.1.2.2 t₂
    rw [heq, Js.Stmt.varsOf, Js.Stmt.varsOf, Js.Stmt.vars, mentionsOf, mentionsOf, mentions, List.append_nil, List.append_nil]
    exact append_subset (append_subset (Expr.vars_conditionCode h.1.1.numeric) (hyes h.1.2.1 t₁)) helse
  | simple s hs =>
    intro t
    rw [codeOf_one, mentionsOf, mentionsOf, List.append_nil]
    exact vars_simple hs h.1 t

/-- **The code of statements** is made of the variables that they refer to. -/
theorem written_code {ss : List Stmt} (h : AllProper ss) (t : Tables) : Written (mentionsOf ss) (codeOf t ss) :=
  ⟨vars_codeOf h t, (emitted_code ss t).sited⟩

end Stmt

end Locomotive
