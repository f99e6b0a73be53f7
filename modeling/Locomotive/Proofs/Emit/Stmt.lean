import Locomotive.Proofs.Emit.Compose
import Locomotive.Proofs.Js.Sited

/-!
# The code of statements

The references in the code of statements are those that are added to the tables, in order, and their marks stand where
they are written once. An arrow is asynchronous exactly if an `await` stands in its body. If the statements are proper,
their code is tidy, and an `await` stands in it exactly if it makes the line wait.

* `Emitted`, `Stmt.emitted_code`: the references and the arrows in the code of statements.
* `Stmt.tidy_code`, `Stmt.anyAwaits_code`: the code of proper statements.
-/

namespace Locomotive

open Js (Unmarked)
open Emit

/-! ## References and arrows -/

/-- **Code of statements** that make the references `refs`. -/
structure Emitted (t : Tables) (refs : List Reference) (code : List Js.Stmt) : Prop where
  refs : Js.Stmt.refsOf code = List.range' t.callSites.length refs.length
  sited : Js.Stmt.AllSited code
  arrows : Js.Stmt.AllArrowsAgree code

namespace Stmt

open Js.Stmt (refsOf AllSited AllArrowsAgree)

@[simp] theorem refsOf_codes (μ : Mode) (es : List Expr) : Js.Expr.refsOf (es.map (Expr.code μ)) = [] :=
  Expr.refsOf_map fun e _ => e.refs_code

/-- A statement that makes no reference shows none. -/
theorem marks_code {s : Stmt} (hs : s.isBranch = false) (hr : s.references = []) (t : Tables) :
    ∀ c ∈ s.code t, c.Sited ∧ c.refs = [] ∧ c.ArrowsAgree := by
  -- a call of a helper with arguments that hold no reference
  have hcall : ∀ {name : String} {xs : List Js.Expr}, Js.Expr.refsOf xs = [] →
      ∀ c ∈ [Js.Stmt.expr (.call name xs)], c.Sited ∧ c.refs = [] ∧ c.ArrowsAgree := by
    intro name xs hxs
    simp [Js.Stmt.Sited, Js.Expr.Sited.plain, Js.Stmt.refs, Js.Expr.refs, Js.Stmt.ArrowsAgree, hxs]
  cases s with
  | branch => cases hs
  | gosub label | onGosub selector labels | timer name interval which label => cases hr
  | assign place value =>
    rw [code]
    split <;> simp [Js.Stmt.Sited, Js.Stmt.marks, Js.Stmt.refs, math, Js.Expr.refs, Js.Expr.refsOf, Js.Stmt.ArrowsAgree]
  | print stream items =>
    have hitems : ∀ is : List PrintItem, Js.Expr.refsOf (is.flatMap (PrintItem.code t.mode)) = [] := by
      intro is
      induction is with
      | nil => rfl
      | cons i is ih =>
        rw [List.flatMap_cons, Js.Expr.refsOf_append, ih]
        cases i <;> simp [PrintItem.code, Js.Expr.refsOf, Js.Expr.refs]
    refine hcall ?_
    rw [Js.Expr.refsOf_append, hitems]
    unfold newline
    split <;> rfl
  | write _ args => exact hcall (refsOf_codes _ _)
  | graphics name x y pen => exact hcall (refsOf_codes _ (x :: y :: pen.toList))
  | command c args =>
    show ∀ x ∈ c.code _, _
    unfold Command.code
    split
    case h_3 => exact List.forall_mem_singleton.2 ⟨.plain rfl, rfl, trivial⟩
    case h_4 | h_5 => exact hcall rfl
    case h_6 =>
      split
      · exact hcall (refsOf_codes _ _)
      · simp
    all_goals simp [Js.Stmt.Sited, Js.Stmt.marks, Js.Stmt.refs, Js.Expr.refs, Js.Expr.refsOf, Js.Stmt.ArrowsAgree]
  | forLoop var start stop stride =>
    have hstep : ((stepCode t.mode stride).amount?.map Js.Expr.refs).getD [] = [] := by
      unfold stepCode
      repeat' split
      all_goals simp [Js.Step.amount?, Js.Expr.refs]
    simp [code, Js.Stmt.Sited, Js.Stmt.marks, Js.Stmt.refs, Js.Stmt.ArrowsAgree, compared, hstep]
  | restore label => cases label <;> exact hcall rfl
  | dim arrays =>
    refine List.forall_mem_map.2 fun e _ => ?_
    cases e with
    | index name sizes =>
      simp only [dimCode]
      split <;> simp [Js.Stmt.Sited, Js.Stmt.marks, Js.Stmt.refs, Js.Expr.refs, Js.Expr.refsOf, Js.Stmt.ArrowsAgree]
    | _ => exact ⟨rfl, rfl, trivial⟩
  | input prompt question targets =>
    cases targets <;> simp [code, inputCodes, inputCode, Js.Stmt.Sited, Js.Stmt.marks, Js.Stmt.refs, Js.Expr.refs, Js.Expr.refsOf,
      Js.Stmt.ArrowsAgree]
  | rsx name args =>
    have hsome : ∀ keep : RsxArg → Bool, Js.Expr.refsOf ((args.filter keep).map fun a => a.expr.code t.mode) = [] := by
      intro keep
      have := refsOf_codes t.mode ((args.filter keep).map RsxArg.expr)
      rwa [List.map_map] at this
    simp only [code, rsxCode]
    split <;> simp [Js.Stmt.Sited, Js.Expr.Sited.plain, Js.Stmt.marks, Js.Stmt.refs, Js.Expr.refs, Js.Expr.refsOf, Js.Stmt.ArrowsAgree, hsome]
  | _ => simp [code, Js.Stmt.Sited, Js.Stmt.marks, Js.Stmt.refs, Js.Expr.refs, Js.Expr.refsOf, Js.Stmt.ArrowsAgree]

/-- The number of references in the tables. -/
theorem length_sites (t : Tables) (ss : List Stmt) :
    (t.perform (deedsOf t ss)).callSites.length = t.callSites.length + (referencesOf ss).length := by
  have hshapes := congrArg List.length (Deed.shapes (deedsOf t ss) t.lineIndex t.lineNumber)
  rw [List.length_map, List.length_map, references_deeds] at hshapes
  rw [(t.performed (deedsOf t ss)).sites, List.length_append, hshapes]

theorem emitted_simple {s : Stmt} (hs : s.isBranch = false) (t : Tables) :
    Emitted t s.references (s.code t) := by
  have hplain : s.references = [] → Emitted t s.references (s.code t) := by
    intro hr
    have hmarks := marks_code hs hr t
    generalize s.code t = code at hmarks
    rw [hr]
    induction code with
    | nil => exact ⟨rfl, trivial, trivial⟩
    | cons c cs ih =>
      obtain ⟨⟨hs, hr, ha⟩, hcs⟩ := List.forall_mem_cons.1 hmarks
      exact ⟨by rw [refsOf, hr]; exact (ih hcs).refs, ⟨hs, (ih hcs).sited⟩, ha, (ih hcs).arrows⟩
  cases s with
  | gosub label => exact ⟨rfl, ⟨.site _, trivial⟩, trivial, trivial⟩
  | onGosub selector labels =>
    refine ⟨?_, ⟨.selected _ (by simp [compared]), trivial⟩, trivial, trivial⟩
    simp [code, refsOf, Js.Stmt.refs, Js.Expr.refs, compared, references]
  | timer name interval which label =>
    have hwhich : ((which.map (Expr.code t.mode)).getD (.atom "0")).refs = [] := by
      cases which with
      | none => rfl
      | some e => exact e.refs_code
    have hargs : Js.Expr.refsOf [interval.code t.mode, (which.map (Expr.code t.mode)).getD (.atom "0")] = [] := by
      simp [Js.Expr.refsOf, hwhich]
    refine ⟨?_, ⟨.scheduled _ _ hargs, trivial⟩, trivial, trivial⟩
    simp [code, refsOf, Js.Stmt.refs, Js.Expr.refs, Js.Expr.refsOf, references, hwhich]
  | branch => cases hs
  | _ => exact hplain rfl

/-- **The references and the arrows** in the code of statements. -/
theorem emitted_code (ss : List Stmt) : ∀ t, Emitted t (referencesOf ss) (codeOf t ss) := by
  induction ss using Stmt.induct with
  | nil => exact fun t => ⟨rfl, trivial, trivial⟩
  | cons s ss hs hss =>
    intro t
    have hone := hs t
    have hrest := hss (t.perform (s.deeds t))
    have hlength := length_sites t [s]
    rw [deedsOf_one] at hlength
    rw [codeOf_one] at hone
    rw [referencesOf, referencesOf, List.append_nil] at hone hlength
    refine ⟨?_, Js.Stmt.allSited_append.2 ⟨hone.sited, hrest.sited⟩, Js.Stmt.allArrowsAgree_append hone.arrows hrest.arrows⟩
    -- the second part numbers its references on from those of the first
    rw [codeOf, Js.Stmt.refsOf_append, hone.refs, hrest.refs, hlength, referencesOf, List.length_append]
    exact List.range'_append_1
  | branch cond yes no hyes hno =>
    intro t
    obtain ⟨t₁, t₂, h₁, h₂, -, heq⟩ := branch_eq t cond yes no
    have hyes := hyes t₁
    have hno := hno t₂
    have helse : (no.map (codeOf t₂)).getD [] = codeOf t₂ (no.getD []) := by cases no <;> rfl
    have hrefs : referencesOf [branch cond yes no] = referencesOf yes ++ referencesOf (no.getD []) := by
      cases no <;> simp [referencesOf, references, referencesOfElse]
    rw [heq]
    refine ⟨?_, ⟨⟨by simp, hyes.sited, ?_⟩, trivial⟩, ⟨hyes.arrows, ?_⟩, trivial⟩
    · simp only [refsOf, Js.Stmt.refs, Expr.refs_conditionCode, List.nil_append, List.append_nil, Js.Stmt.refsOfElse_getD, helse]
      rw [hyes.refs, hno.refs, h₂.1, length_sites, h₁.1, hrefs, List.length_append]
      exact List.range'_append_1
    · cases no with
      | none => trivial
      | some ss => exact hno.sited
    · rw [Js.Stmt.elseArrowsAgree_iff, helse]
      exact hno.arrows
  | simple s hs =>
    intro t
    rw [codeOf_one, referencesOf, referencesOf, List.append_nil]
    exact emitted_simple hs t

/-! ## Waiting -/

@[simp] theorem anyAwaits_codes (μ : Mode) (es : List Expr) (called : Nat → Bool) :
    Js.Expr.anyAwaits called (es.map (Expr.code μ)) = (es.flatMap (Expr.effects μ)).any Effect.isWait :=
  Expr.anyAwaits_map fun e _ => e.awaits_code called

theorem anyAwaits_print (μ : Mode) (items : List PrintItem) (called : Nat → Bool) :
    Js.Expr.anyAwaits called (items.flatMap (PrintItem.code μ)) = (items.flatMap (PrintItem.effects μ)).any Effect.isWait := by
  induction items with
  | nil => rfl
  | cons i is ih =>
    rw [List.flatMap_cons, Js.Expr.anyAwaits_append, ih, List.flatMap_cons, List.any_append]
    cases i <;> simp [PrintItem.code, PrintItem.effects, Js.Expr.anyAwaits, Js.Expr.awaits, Effect.isWait]

theorem isWait_numberEffects (radix : Radix) (text : String) : (numberEffects radix text).any Effect.isWait = false := by
  unfold numberEffects
  split <;> rfl

/-- One statement for each member of a list. -/
theorem anyAwaits_map {α : Type} {called : Nat → Bool} {f : α → Js.Stmt} {g : α → List Effect} {xs : List α}
    (h : ∀ x ∈ xs, (f x).awaits called = (g x).any Effect.isWait) :
    Js.Stmt.anyAwaits called (xs.map f) = (xs.flatMap g).any Effect.isWait := by
  induction xs with
  | nil => rfl
  | cons x xs ih =>
    obtain ⟨hx, hxs⟩ := List.forall_mem_cons.1 h
    rw [List.map_cons, Js.Stmt.anyAwaits, hx, ih hxs, List.flatMap_cons, List.any_append]

theorem awaits_step (μ : Mode) (stride : Option Expr) (called : Nat → Bool) :
    (stepCode μ stride).amount?.any (Js.Expr.awaits called) = (stride.toList.flatMap (Expr.effects μ)).any Effect.isWait := by
  unfold stepCode
  split
  · rfl
  · rename_i radix text line
    simp [Js.Step.amount?, Js.Expr.awaits, Expr.effects, isWait_numberEffects]
  · split <;> simp [Js.Step.amount?]

theorem awaits_simple {s : Stmt} (hs : s.isBranch = false) (h : s.Proper) (t : Tables) :
    Js.Stmt.anyAwaits (fun _ => false) (s.code t) = (s.effects t).any Effect.isWait := by
  cases s with
  | branch => cases hs
  | assign place value =>
    rw [code, effects, List.any_append]
    split <;> simp [Js.Stmt.anyAwaits, Js.Stmt.awaits, math, Js.Expr.awaits, Js.Expr.anyAwaits]
  | print stream items =>
    have hstream : (streamEffects stream).any Effect.isWait = false := by
      cases stream with
      | none => rfl
      | some e => unfold streamEffects; dsimp only; split <;> rfl
    have hnewline : Js.Expr.anyAwaits (fun _ => false) (newline items) = false := by
      unfold newline
      split <;> rfl
    simp [code, effects, Js.Stmt.anyAwaits, Js.Stmt.awaits, Js.Expr.awaits, Js.Expr.anyAwaits_append, anyAwaits_print,
      hstream, hnewline, Effect.isWait]
  | command c args =>
    cases c <;> simp [code, effects, Command.code, Command.effects, Command.helper?, Js.Stmt.anyAwaits, Js.Stmt.awaits,
      Js.Expr.awaits, Js.Expr.anyAwaits, Effect.isWait]
  | forLoop var start stop stride =>
    simp [code, effects, Js.Stmt.anyAwaits, Js.Stmt.awaits, compared, awaits_step, Effect.isWait, Bool.or_assoc]
  | next vars =>
    have hclose : ∀ n, Js.Stmt.anyAwaits (fun _ => false) (List.replicate n .close) = false := by
      intro n
      induction n with
      | zero => rfl
      | succ n ih => exact ih
    rw [code, hclose]
    simp [effects, Effect.isWait]
  | data items =>
    have hitem : ∀ i : DataItem, i.effects.any Effect.isWait = false := fun i => by
      cases i with
      | text value => rfl
      | number radix written => exact isWait_numberEffects radix written
    simp [code, effects, Js.Stmt.anyAwaits, List.any_flatMap, hitem]
  | read targets => exact anyAwaits_map fun e _ => by simp [Js.Stmt.awaits, Js.Expr.awaits, Js.Expr.anyAwaits]
  | restore label => cases label <;> rfl
  | dim arrays =>
    refine anyAwaits_map fun e he => ?_
    obtain ⟨name, sizes, rfl, -⟩ := (h.2 e he).parts
    simp only [dimCode, dimEffects]
    split <;> simp [Js.Stmt.awaits, Js.Expr.awaits, Js.Expr.anyAwaits, Effect.isWait]
  | erase names =>
    have hmentions : (names.map fun a => Effect.mention a .array) = names.flatMap fun a => [.mention a .array] :=
      List.map_eq_flatMap
    rw [code, effects, hmentions, List.map_map]
    exact anyAwaits_map fun _ _ => rfl
  | input prompt question targets =>
    -- there is a target, and it is waited for
    obtain ⟨e, es, rfl⟩ := List.exists_cons_of_ne_nil h.1
    simp [code, effects, inputCodes, inputCode, Js.Stmt.anyAwaits, Js.Stmt.awaits, Js.Expr.awaits, Effect.isWait]
  | ret =>
    rw [code, effects]
    split <;> rfl
  | rsx name args =>
    simp only [code, rsxCode]
    split <;> simp [effects, Js.Stmt.anyAwaits, Js.Stmt.awaits, Js.Expr.awaits, Effect.isWait]
  | _ => simp [code, effects, Js.Stmt.anyAwaits, Js.Stmt.awaits, Js.Expr.awaits, Js.Expr.anyAwaits, Effect.isWait, compared]

/-- **An `await` stands in the code of proper statements** exactly if it makes the line wait. -/
theorem anyAwaits_code {ss : List Stmt} (h : AllProper ss) : ∀ t,
    Js.Stmt.anyAwaits (fun _ => false) (codeOf t ss) = (deedsOf t ss).any Deed.isWait := by
  have heffects : ∀ es : List Effect, (es.map Deed.effect).any Deed.isWait = es.any Effect.isWait := fun es =>
    List.any_map
  induction ss using Stmt.induct with
  | nil => exact fun t => rfl
  | cons s ss hs hss =>
    intro t
    have hs := hs ⟨h.1, trivial⟩ t
    rw [codeOf_one, deedsOf_one] at hs
    rw [codeOf, Js.Stmt.anyAwaits_append, deedsOf, List.any_append, hs, hss h.2]
  | branch cond yes no hyes hno =>
    intro t
    obtain ⟨t₁, t₂, -, -, hdeeds, hcode⟩ := branch_eq t cond yes no
    have helse : (no.map (codeOf t₂)).getD [] = codeOf t₂ (no.getD []) := by cases no <;> rfl
    rw [hdeeds, hcode]
    simp [Js.Stmt.anyAwaits, Js.Stmt.awaits, Js.Stmt.elseAwaits_getD, helse, hyes h.1.2.1, hno (allProper_getD h.1.2.2),
      heffects, Deed.isWait, Bool.or_assoc]
  | simple s hs =>
    intro t
    have hacts : (s.acts t).any Deed.isWait = false := by
      cases s with
      | command c args => cases c <;> rfl
      | next vars => simp [acts, Deed.isWait]
      | _ => rfl
    rw [codeOf_one, awaits_simple hs h.1, deedsOf_one, deeds_simple hs, List.any_append, heffects, hacts, Bool.or_false]

end Stmt

/-! ## Marks -/

theorem unmarked_stripMarks (s : String) : Unmarked (Js.stripMarks s) := by
  refine Js.unmarked_ofList.2 fun c hc => ?_
  have hkept := (List.mem_filter.1 hc).2
  simp only [Bool.and_eq_true, bne_iff_ne, ne_eq] at hkept
  exact hkept

theorem clean_keepOpen {cs : List Char} (h : ∀ c ∈ cs, Js.Clean c) : ∀ c ∈ Js.keepOpen cs, Js.Clean c := by
  fun_induction Js.keepOpen cs with
  | case1 cs ih =>
    have hcs := ih fun c hc => h c (by simp [hc])
    simp only [List.forall_mem_cons]
    exact ⟨by decide, by decide, by decide, hcs⟩
  | case2 c cs _ ih =>
    obtain ⟨hc, hcs⟩ := List.forall_mem_cons.1 h
    exact List.forall_mem_cons.2 ⟨hc, ih hcs⟩
  | case3 => simp

theorem unmarked_unsupportedNote (text : String) : Unmarked (Js.unsupportedNote text) :=
  Js.unmarked_append.2 ⟨by decide, Js.unmarked_ofList.2 (clean_keepOpen (unmarked_stripMarks text))⟩

/-- **The code of proper statements is tidy.** -/
theorem Stmt.tidy_code {ss : List Stmt} (h : AllSpelled Js.Plain ss) (t : Tables) : Js.Tidy (codeOf t ss) := by
  obtain ⟨hwords, hcomments, hnotes⟩ := composed_code Js.alphabet_plain h t
  refine ⟨fun w hw => (hwords w hw).mono fun _ => Js.Plain.clean, ?_, ?_⟩
  · rw [hnotes]
    exact List.forall_mem_map.2 fun text _ => unmarked_unsupportedNote text
  · rw [hcomments]
    exact List.forall_mem_map.2 fun text _ => unmarked_stripMarks (Text.trim text)

end Locomotive
