import Locomotive.Proofs.Emit.Deed
import Locomotive.Proofs.Js.Mark
import Locomotive.Proofs.Tables.Count

/-!
# What emitting code does to the tables

`Performed` says once what generating the code of statements does to the tables: part of them is left alone, and the rest
follows from the deeds.

* `Frame`, `Stock`: what is left alone, and the data with the labels that have a place in it.
* `Performed`, `Tables.performed`: the tables after deeds.
* `Stmt.references_deeds`, `Stmt.clear_deeds`: the deeds of statements.
-/

namespace Locomotive

open Js (Unmarked)

/-! ## Parts of the tables -/

/-- The kind and the labels of a reference in the tables. -/
def CallSite.shape (s : CallSite) : CallKind × List String := (s.kind, s.labels)

/-- The name and the lines of a label. -/
structure Span where
  name : String
  first : Int
  last : Option Int

/-- A label without the place of its data. -/
def Label.span (l : Label) : Span := ⟨l.name, l.first, l.last⟩

/-- The part of the tables that the code of a line leaves alone. -/
structure Frame where
  spans : List Span
  gosubs : Tally
  restores : Tally
  openSub : Option OpenSub
  restoreMap : List (String × Nat)
  lineIndex : Int

/-- The labels with their places in the data, and the data. -/
structure Stock where
  places : List (String × Option Nat)
  data : List String

/-- Some literals are added. The last label gets its place in the data if it has none. -/
def Stock.add (s : Stock) (literals : List String) : Stock :=
  ⟨s.places.modify (s.places.length - 1) fun e => (e.1, e.2.or (some s.data.length)), s.data ++ literals⟩

theorem Stock.data_foldl (s : Stock) (blocks : List (List String)) :
    (blocks.foldl Stock.add s).data = s.data ++ blocks.flatten := by
  induction blocks generalizing s with
  | nil => simp
  | cons b bs ih => rw [List.foldl_cons, ih, List.flatten_cons, ← List.append_assoc]; rfl

namespace Tables

/-- The part of the tables that the code of a line leaves alone. -/
def frame (t : Tables) : Frame :=
  ⟨t.labels.map Label.span, t.gosubs, t.restores, t.openSub, t.restoreMap, t.lineIndex⟩

/-- The labels with their places in the data, and the data. -/
def stock (t : Tables) : Stock := ⟨t.labels.map fun l => (l.name, l.dataIndex), t.data⟩

/-- Data items give an index to the last label, which is no part of its span. -/
theorem frame_addData (t : Tables) (literals : List String) : (t.addData literals).frame = t.frame := by
  have hspans := map_modify Label.span (fun l => { l with dataIndex := l.dataIndex.or (some t.data.length) }) id
    (fun _ => rfl) t.labels (t.labels.length - 1)
  unfold frame addData
  rw [hspans, List.modify_id]

theorem stock_addData (t : Tables) (literals : List String) : (t.addData literals).stock = t.stock.add literals := by
  have hplaces := map_modify (fun l => (l.name, l.dataIndex)) (fun l => { l with dataIndex := l.dataIndex.or (some t.data.length) })
    (fun e => (e.1, e.2.or (some t.data.length))) (fun _ => rfl) t.labels (t.labels.length - 1)
  unfold stock addData Stock.add
  rw [hplaces, List.length_map]

theorem Keeps.rest {t t' : Tables} (h : t.Keeps t') : t'.frame = t.frame ∧ t'.lineNumber = t.lineNumber ∧
    t'.callSites = t.callSites ∧ t'.stock = t.stock ∧ t'.asyncFns = t.asyncFns := by
  obtain ⟨_, _, _, _, _, rfl⟩ := h
  exact ⟨rfl, rfl, rfl, rfl, rfl⟩

/-- The names of the variables hold no marks. -/
def VarsUnmarked (t : Tables) : Prop := ∀ v ∈ t.vars, Unmarked v.name

/-- The names of variables and the data hold no marks. -/
structure NoMarks (t : Tables) : Prop where
  vars : t.VarsUnmarked
  data : ∀ d ∈ t.data, Unmarked d

end Tables

/-! ## Deeds -/

namespace Deed

/-- The deed is that the line waits. -/
def isWait : Deed → Bool
  | effect e => e.isWait
  | _ => false

/-- The reference that is made. -/
def reference? : Deed → Option Reference
  | refer r _ => some r
  | _ => none

/-- The entry of the reference in the tables. -/
def site? (line number : Int) : Deed → Option CallSite
  | refer r selector => some ⟨r.shape.1, r.shape.2, selector, line, number⟩
  | _ => none

/-- The literals that are added to the data. -/
def block? : Deed → Option (List String)
  | data literals => some literals
  | _ => none

/-- The helpers that are noted. -/
def helpers : Deed → List String
  | effect e => e.helper?.toList
  | define _ _ body => body.filterMap Effect.helper?
  | _ => []

/-- The identifiers of the variables that are used. -/
def ids : Deed → List String
  | effect e => e.id?.toList
  | define _ _ body => body.filterMap Effect.id?
  | _ => []

/-- The functions that are known to be asynchronous from there on. -/
def asyncs : Deed → List String
  | define name _ body => if body.any Effect.isWait then [Js.identifier name] else []
  | _ => []

end Deed

theorem Deed.shapes (ds : List Deed) (line number : Int) :
    (ds.filterMap (site? line number)).map CallSite.shape = (ds.filterMap reference?).map Reference.shape := by
  rw [List.map_filterMap, List.map_filterMap]
  congr 1
  funext d
  cases d <;> rfl

/-- The name of a variable needs no escape. -/
def Effect.Clear : Effect → Prop
  | mention name _ => Text.Within Js.Plain name
  | _ => True

/-- No mark stands in the name of a variable or in the data. -/
def Deed.Clear : Deed → Prop
  | effect e => e.Clear
  | data literals => ∀ d ∈ literals, Unmarked d
  | define _ _ body => ∀ e ∈ body, e.Clear
  | _ => True

/-- **What deeds do to the tables.** Only names that are used become variables, and no label is said to be missing. -/
structure Performed (t : Tables) (ds : List Deed) (t' : Tables) : Prop where
  frame : t'.frame = t.frame
  lineNumber : t'.lineNumber = t.lineNumber
  sites : t'.callSites = t.callSites ++ ds.filterMap (Deed.site? t.lineIndex t.lineNumber)
  stock : t'.stock = (ds.filterMap Deed.block?).foldl Stock.add t.stock
  waits : t'.waits = (t.waits || ds.any Deed.isWait)
  helpers : t'.helpers = (ds.flatMap Deed.helpers).foldl Tally.add t.helpers
  known : t'.asyncFns = t.asyncFns ++ ds.flatMap Deed.asyncs
  warnings : ∃ new, t'.warnings = t.warnings ++ new ∧ ∀ w ∈ new, w.remark.isPlain = true
  vars : ∀ v ∈ t'.vars, (∃ u ∈ t.vars, v.name = u.name) ∨ v.name ∈ ds.flatMap Deed.ids

namespace Performed

variable {t t' t'' : Tables} {ds ds' : List Deed}

theorem lineIndex (h : Performed t ds t') : t'.lineIndex = t.lineIndex := congrArg Frame.lineIndex h.frame

theorem trans (h : Performed t ds t') (h' : Performed t' ds' t'') : Performed t (ds ++ ds') t'' := by
  obtain ⟨new, hnew, hplain⟩ := h.warnings
  obtain ⟨new', hnew', hplain'⟩ := h'.warnings
  refine ⟨h'.frame.trans h.frame, h'.lineNumber.trans h.lineNumber, ?_, ?_, ?_, ?_, ?_,
    ⟨new ++ new', ?_, List.forall_mem_append.2 ⟨hplain, hplain'⟩⟩, fun v hv => ?_⟩
  · rw [h'.sites, h.sites, h.lineIndex, h.lineNumber, List.filterMap_append, List.append_assoc]
  · rw [h'.stock, h.stock, List.filterMap_append, List.foldl_append]
  · rw [h'.waits, h.waits, List.any_append, Bool.or_assoc]
  · rw [h'.helpers, h.helpers, List.flatMap_append, List.foldl_append]
  · rw [h'.known, h.known, List.flatMap_append, List.append_assoc]
  · rw [hnew', hnew, List.append_assoc]
  · rw [List.flatMap_append, List.mem_append]
    rcases h'.vars v hv with ⟨u, hu, hname⟩ | hid
    · rw [hname]
      exact (h.vars u hu).imp_right .inl
    · exact .inr (.inr hid)

/-- A deed that is neither an effect nor a definition leaves most of the tables as they are. -/
theorem of_eq {d : Deed} (hf : t'.frame = t.frame) (hl : t'.lineNumber = t.lineNumber)
    (hs : t'.callSites = t.callSites ++ [d].filterMap (Deed.site? t.lineIndex t.lineNumber))
    (hst : t'.stock = ([d].filterMap Deed.block?).foldl Stock.add t.stock)
    (hrest : (t'.waits, t'.helpers, t'.asyncFns, t'.warnings, t'.vars) = (t.waits, t.helpers, t.asyncFns, t.warnings, t.vars))
    (hd : (d.isWait, d.helpers, d.asyncs) = (false, [], [])) : Performed t [d] t' := by
  simp only [Prod.mk.injEq] at hrest hd
  obtain ⟨hw, hh, hk, hws, hv⟩ := hrest
  obtain ⟨hdw, hdh, hdk⟩ := hd
  exact ⟨hf, hl, hs, hst, by simp [hw, hdw], by simp [hh, hdh], by simp [hk, hdk], ⟨[], by simp [hws], by simp⟩,
    fun v hmem => .inl ⟨v, hv ▸ hmem, rfl⟩⟩

/-- Marks come neither from variables nor from the data. -/
theorem noMarks (h : Performed t ds t') (hc : ∀ d ∈ ds, d.Clear) (hm : t.NoMarks) : t'.NoMarks := by
  have hid : ∀ {e : Effect} {id : String}, e.Clear → e.id? = some id → Unmarked id := by
    intro e id he hid
    cases e with
    | mention name storage => cases hid; exact Js.unmarked_identifier (Js.unmarked_of_plain he)
    | _ => cases hid
  refine ⟨fun v hv => ?_, ?_⟩
  · rcases h.vars v hv with ⟨u, hu, hname⟩ | hids
    · rw [hname]
      exact hm.vars u hu
    · obtain ⟨d, hd, hmem⟩ := List.mem_flatMap.1 hids
      have hd := hc d hd
      cases d with
      | effect e => exact hid hd (Option.mem_toList.1 hmem)
      | define name params body =>
        obtain ⟨e, he, hname⟩ := List.mem_filterMap.1 hmem
        exact hid (hd e he) hname
      | _ => cases hmem
  · have hstock : t'.data = t.data ++ (ds.filterMap Deed.block?).flatten :=
      (congrArg Stock.data h.stock).trans (Stock.data_foldl _ _)
    rw [hstock]
    refine List.forall_mem_append.2 ⟨hm.data, fun x hx => ?_⟩
    obtain ⟨block, hblock, hmem⟩ := List.mem_flatten.1 hx
    obtain ⟨d, hd, hdata⟩ := List.mem_filterMap.1 hblock
    have hd := hc d hd
    cases d with
    | data literals => cases hdata; exact hd x hmem
    | _ => cases hdata

end Performed

namespace Tables

theorem performed_run (t : Tables) (d : Deed) : Performed t [d] (d.run t) := by
  cases d with
  | effect e =>
    have h := t.undergone_run e
    obtain ⟨hframe, hline, hsites, hstock, hknown⟩ := h.keeps.rest
    refine ⟨hframe, hline, hsites.trans (List.append_nil _).symm, hstock, h.waits, ?_,
      hknown.trans (List.append_nil _).symm, h.warnings, fun v hv => (h.vars v hv).imp_right fun hid => ?_⟩
    · rw [show (Deed.effect e).run t = e.run t from rfl, h.helpers]
      cases e <;> rfl
    · cases e <;> exact hid
  | refer r selector => exact .of_eq rfl rfl rfl rfl rfl rfl
  | indent delta => exact .of_eq rfl rfl (List.append_nil _).symm rfl rfl rfl
  | data literals => exact .of_eq (t.frame_addData literals) rfl (List.append_nil _).symm (t.stock_addData literals) rfl rfl
  | deg on => exact .of_eq rfl rfl (List.append_nil _).symm rfl rfl rfl
  | tag on => exact .of_eq rfl rfl (List.append_nil _).symm rfl rfl rfl
  | define name params body =>
    have h := undergone { t with binding := .body (params.map Js.identifier), waits := false } body
    obtain ⟨hframe, hline, hsites, hstock, hknown⟩ := h.keeps.rest
    refine ⟨hframe, hline, hsites.trans (List.append_nil _).symm, hstock, (Bool.or_false _).symm, ?_, ?_, h.warnings,
      fun v hv => (h.vars v hv).imp_right fun hid => ?_⟩
    · rw [List.flatMap_singleton]
      exact h.helpers
    · rw [List.flatMap_singleton]
      exact congrArg (· ++ _) hknown
    · rw [List.flatMap_singleton]
      exact hid

theorem performed (t : Tables) (ds : List Deed) : Performed t ds (t.perform ds) := by
  induction ds generalizing t with
  | nil =>
    exact ⟨rfl, rfl, (List.append_nil _).symm, rfl, (Bool.or_false _).symm, rfl, (List.append_nil _).symm,
      ⟨[], (List.append_nil _).symm, by simp⟩, fun v hv => .inl ⟨v, hv, rfl⟩⟩
  | cons d ds ih => exact (t.performed_run d).trans (ih _)

end Tables

/-! ## Deeds of statements -/

open Emit (streamEffects)

theorem clear_numberEffects (radix : Radix) (text : String) : ∀ x ∈ numberEffects radix text, x.Clear := by
  unfold numberEffects
  split <;> simp [Effect.Clear]

theorem Expr.clear_effects {μ : Mode} {e : Expr} (h : e.Spelled Js.Plain) : ∀ x ∈ e.effects μ, x.Clear := by
  induction e using Expr.induct with
  | number radix text line => exact clear_numberEffects radix text
  | string value => simp [effects]
  | var name => exact List.forall_mem_singleton.2 (h _ .self)
  | index name is ih =>
    rw [effects_index]
    exact List.forall_mem_cons.2 ⟨h _ .self, List.forall_mem_flatMap.2 fun e he => ih e he (h.child he)⟩
  | paren e ih => exact ih (h.child (by simp [children]))
  | unary op e ih => exact ih (h.child (by simp [children]))
  | binary op l r hl hr =>
    exact List.forall_mem_append.2 ⟨hl (h.child (by simp [children])), hr (h.child (by simp [children]))⟩
  | call f args ih =>
    rw [effects_call]
    refine List.forall_mem_append.2 ⟨List.forall_mem_append.2 ⟨by simp [Effect.Clear], ?_⟩, ?_⟩
    · exact List.forall_mem_flatMap.2 fun e he => ih e (List.mem_of_mem_take he) (h.child (List.mem_of_mem_take he))
    · cases f <;> cases μ.deg <;> simp [Builtin.effects, Effect.Clear]
  | fn name args ih =>
    rw [effects_fn]
    refine List.forall_mem_append.2 ⟨List.forall_mem_flatMap.2 fun e he => ih e he (h.child he), ?_⟩
    split <;> simp [Effect.Clear]
  | missing => simp [effects]

namespace Stmt

theorem clear_effects {s : Stmt} (h : s.Spelled Js.Plain) (t : Tables) : ∀ x ∈ s.effects t, x.Clear := by
  have hone : ∀ {e : Expr}, e.Spelled Js.Plain → ∀ x ∈ e.effects t.mode, x.Clear := Expr.clear_effects
  have hall : ∀ {es : List Expr}, Spell Js.Plain es → ∀ x ∈ es.flatMap (Expr.effects t.mode), x.Clear :=
    fun hes => List.forall_mem_flatMap.2 fun e he => hone (hes e he)
  -- what a helper is called for
  have hcall : ∀ {name : String} {es : List Effect}, (∀ x ∈ es, x.Clear) → ∀ x ∈ .helper name :: es, x.Clear :=
    fun hes => List.forall_mem_cons.2 ⟨trivial, hes⟩
  cases s with
  | assign place value => exact List.forall_mem_append.2 ⟨hone (h _ (by simp)), hone (h _ (by simp))⟩
  | print stream items =>
    refine hcall (List.forall_mem_append.2 ⟨?_, List.forall_mem_flatMap.2 fun i hi => ?_⟩)
    · cases stream with
      | none => simp [streamEffects]
      | some e => unfold streamEffects; dsimp only; split <;> simp [Effect.Clear]
    · have hi : ∀ e ∈ i.exprs, ∀ x ∈ e.effects t.mode, x.Clear := fun e he => hone (h e (List.mem_flatMap_of_mem hi he))
      cases i with
      | value e | tab e | spc e => exact hi e (by simp [PrintItem.exprs])
      | formatted f v =>
        exact hcall (List.forall_mem_append.2 ⟨hi v (by simp [PrintItem.exprs]), hi f (by simp [PrintItem.exprs])⟩)
      | _ => simp [PrintItem.effects]
  | write _ args => exact hcall (hall h)
  | command c args =>
    show ∀ x ∈ c.effects _, x.Clear
    unfold Command.effects
    split
    case h_8 =>
      split
      · exact hcall (hall h)
      · simp
    all_goals simp [Effect.Clear]
  | graphics name x y pen => exact hcall (hall h.2)
  | forLoop var start stop stride => exact List.forall_mem_cons.2 ⟨h.1, hall h.2⟩
  | next vars => exact List.forall_mem_map.2 h
  | whileLoop cond => exact hone h
  | branch cond yes no => exact hone h.1
  | ret =>
    rw [effects]
    split <;> simp [Effect.Clear]
  | onGosub selector labels => exact hone h.1
  | data items =>
    refine List.forall_mem_flatMap.2 fun i _ => ?_
    cases i with
    | text value => simp [DataItem.effects]
    | number radix written => exact clear_numberEffects radix written
  | read targets => exact hcall (hall h)
  | dim arrays =>
    refine hcall (List.forall_mem_flatMap.2 fun e he => ?_)
    cases e with
    | index name sizes =>
      obtain ⟨hname, hsizes⟩ := Expr.spelled_iff.1 (h _ he)
      exact List.forall_mem_append.2 ⟨hall hsizes, List.forall_mem_singleton.2 hname⟩
    | _ => simp [Emit.dimEffects]
  | erase names => exact List.forall_mem_map.2 h
  | input _ _ targets => exact hcall (List.forall_mem_cons.2 ⟨trivial, hall h⟩)
  | timer name interval which label => exact hcall (List.forall_mem_cons.2 ⟨trivial, hall h.2.1⟩)
  | rsx name args =>
    exact hcall (List.forall_mem_cons.2 ⟨trivial, List.forall_mem_flatMap.2 fun a ha => hone (h _ (List.mem_map_of_mem ha))⟩)
  | _ => simp [effects, Effect.Clear]

theorem clear_acts {s : Stmt} (h : s.Proper) (hw : s.Spelled Js.Plain) (t : Tables) : ∀ d ∈ s.acts t, d.Clear := by
  cases s with
  | command c args => cases c <;> simp [acts, Deed.Clear]
  | next vars => exact fun d hd => List.eq_of_mem_replicate hd ▸ trivial
  | data items =>
    refine List.forall_mem_singleton.2 (List.forall_mem_map.2 fun i hi => ?_)
    have hi := h i hi
    cases i with
    | text value => exact Js.unmarked_quote value
    | number radix written => exact Js.unmarked_numberLiteral radix hi
  | defFn name params body => exact List.forall_mem_singleton.2 (Expr.clear_effects hw.2.2)
  | _ => simp [acts, Deed.Clear]

theorem deedsOf_one (t : Tables) (s : Stmt) : deedsOf t [s] = s.deeds t := List.append_nil _

theorem codeOf_one (t : Tables) (s : Stmt) : codeOf t [s] = s.code t := List.append_nil _

theorem deeds_simple {s : Stmt} (hs : s.isBranch = false) (t : Tables) :
    s.deeds t = (s.effects t).map .effect ++ s.acts t := by
  cases s with
  | branch => cases hs
  | _ => rfl

/-- The deeds and the code of an `IF`, and the tables in which those of its branches start. -/
theorem branch_eq (t : Tables) (cond : Expr) (yes : List Stmt) (no : Option (List Stmt)) : ∃ t₁ t₂ : Tables,
    (t₁.callSites = t.callSites ∧ t₁.asyncFns = t.asyncFns) ∧
    (t₂.callSites = (t₁.perform (deedsOf t₁ yes)).callSites ∧ t₂.asyncFns = (t₁.perform (deedsOf t₁ yes)).asyncFns ∧
      (t.perform (deedsOf t [branch cond yes no])).callSites = (t₂.perform (deedsOf t₂ (no.getD []))).callSites ∧
      (t.perform (deedsOf t [branch cond yes no])).asyncFns = (t₂.perform (deedsOf t₂ (no.getD []))).asyncFns) ∧
    deedsOf t [branch cond yes no] = (cond.effects t.mode).map .effect ++ (.indent 1 :: deedsOf t₁ yes) ++
      (.indent (-1) :: (List.replicate no.toList.length (.indent 1) ++ deedsOf t₂ (no.getD []) ++
        List.replicate no.toList.length (.indent (-1)))) ∧
    codeOf t [branch cond yes no] = [.branch (cond.conditionCode t.mode) (codeOf t₁ yes) (no.map (codeOf t₂))] := by
  obtain ⟨-, -, hsites, -, hasync⟩ := (t.undergone (cond.effects t.mode)).keeps.rest
  rw [← t.perform_effects] at hsites hasync
  cases no with
  | none =>
    refine ⟨(t.perform ((cond.effects t.mode).map .effect)).perform [.indent 1], _, ⟨hsites, hasync⟩, ⟨rfl, rfl, ?_⟩, ?_, rfl⟩
    · simp only [deedsOf_one, deeds, deedsOfElse, Tables.perform_cons, Tables.perform_append, Tables.perform_nil]
      exact ⟨rfl, rfl⟩
    · simp [deedsOf, deeds, deedsOfElse]
  | some ss =>
    refine ⟨(t.perform ((cond.effects t.mode).map .effect)).perform [.indent 1], _, ⟨hsites, hasync⟩, ?_,
      by simp [deedsOf, deeds, deedsOfElse], rfl⟩
    simp only [deedsOf_one, deeds, deedsOfElse, Tables.perform_cons, Tables.perform_append, Tables.perform_nil]
    exact ⟨rfl, rfl, rfl, rfl⟩

/-- What deeds tell of statements, other than by effects and by opening and closing blocks. -/
theorem filterMap_deeds {α : Type} {f : Deed → Option α} (heffect : ∀ e, f (.effect e) = none)
    (hindent : ∀ k, f (.indent k) = none) {g : List Stmt → List α} (hnil : g [] = [])
    (hcons : ∀ s ss, g (s :: ss) = g [s] ++ g ss)
    (hbranch : ∀ cond yes no, g [branch cond yes no] = g yes ++ g (no.getD []))
    (hsimple : ∀ (s : Stmt) (t : Tables), s.isBranch = false → (s.acts t).filterMap f = g [s])
    (ss : List Stmt) : ∀ t, (deedsOf t ss).filterMap f = g ss := by
  have heffects : ∀ es : List Effect, (es.map Deed.effect).filterMap f = [] := fun es => by
    rw [List.filterMap_map]
    exact List.filterMap_eq_nil_iff.2 fun e _ => heffect e
  have hblocks : ∀ (n : Nat) (k : Int), (List.replicate n (Deed.indent k)).filterMap f = [] := by
    simp [hindent]
  induction ss using Stmt.induct with
  | nil => exact fun t => hnil.symm
  | cons s ss hs hss =>
    intro t
    have hs := hs t
    rw [deedsOf_one] at hs
    rw [hcons s ss, deedsOf, List.filterMap_append, hs, hss]
  | branch cond yes no hyes hno =>
    intro t
    obtain ⟨t₁, t₂, -, -, heq, -⟩ := branch_eq t cond yes no
    simp only [heq, List.filterMap_append, List.filterMap_cons, heffects, hblocks, hindent, hyes, hno, hbranch, List.nil_append,
      List.append_nil]
  | simple s hs =>
    intro t
    rw [deedsOf_one, deeds_simple hs, List.filterMap_append, heffects, List.nil_append, hsimple s t hs]

theorem references_deeds (ss : List Stmt) (t : Tables) : (deedsOf t ss).filterMap Deed.reference? = referencesOf ss := by
  refine filterMap_deeds (fun _ => rfl) (fun _ => rfl) rfl (fun s ss => ?_) (fun cond yes no => ?_) (fun s t hs => ?_) ss t
  · simp [referencesOf]
  · cases no <;> simp [referencesOf, references, referencesOfElse]
  · cases s with
    | branch => cases hs
    | next vars => simp [acts, List.filterMap_replicate, Deed.reference?, referencesOf, references]
    | command c args => cases c <;> rfl
    | _ => rfl

theorem allProper_getD {no : Option (List Stmt)} (h : ElseProper no) : AllProper (no.getD []) := by
  cases no with
  | none => trivial
  | some ss => exact h

theorem allSpelled_getD {P : Char → Prop} {no : Option (List Stmt)} (h : ElseSpelled P no) : AllSpelled P (no.getD []) := by
  cases no with
  | none => trivial
  | some ss => exact h

/-- What holds of the deeds of each statement, and of opening and closing blocks, holds of all deeds of a list. -/
theorem forall_deeds {Q : Deed → Prop} {A : List Stmt → Prop} (hindent : ∀ k, Q (.indent k))
    (hcons : ∀ s ss, A (s :: ss) → A [s] ∧ A ss)
    (hbranch : ∀ cond yes no, A [branch cond yes no] →
      (∀ μ, ∀ e ∈ cond.effects μ, Q (.effect e)) ∧ A yes ∧ A (no.getD []))
    (hsimple : ∀ (s : Stmt) (t : Tables), s.isBranch = false → A [s] →
      (∀ e ∈ s.effects t, Q (.effect e)) ∧ ∀ d ∈ s.acts t, Q d)
    (ss : List Stmt) (h : A ss) : ∀ t, ∀ d ∈ deedsOf t ss, Q d := by
  have hblocks : ∀ (n : Nat) (k : Int), ∀ d ∈ List.replicate n (Deed.indent k), Q d := fun n k d hd =>
    List.eq_of_mem_replicate hd ▸ hindent k
  induction ss using Stmt.induct with
  | nil => exact fun t d hd => by cases hd
  | cons s ss hs hss =>
    intro t
    have hs := hs (hcons s ss h).1 t
    rw [deedsOf_one] at hs
    exact List.forall_mem_append.2 ⟨hs, hss (hcons s ss h).2 _⟩
  | branch cond yes no hyes hno =>
    intro t
    obtain ⟨t₁, t₂, -, -, heq, -⟩ := branch_eq t cond yes no
    obtain ⟨hcond, hy, hn⟩ := hbranch cond yes no h
    rw [heq]
    simp only [List.forall_mem_append, List.forall_mem_cons]
    exact ⟨⟨List.forall_mem_map.2 (hcond _), hindent _, hyes hy t₁⟩, hindent _, ⟨hblocks _ _, hno hn t₂⟩, hblocks _ _⟩
  | simple s hs =>
    intro t
    obtain ⟨heffects, hacts⟩ := hsimple s t hs h
    rw [deedsOf_one, deeds_simple hs]
    exact List.forall_mem_append.2 ⟨List.forall_mem_map.2 heffects, hacts⟩

/-- **No mark comes from the names and the data** of proper statements. -/
theorem clear_deeds {ss : List Stmt} (h : AllProper ss) (hw : AllSpelled Js.Plain ss) (t : Tables) :
    ∀ d ∈ deedsOf t ss, d.Clear := by
  refine forall_deeds (A := fun ss => AllProper ss ∧ AllSpelled Js.Plain ss) (fun _ => trivial)
    (fun _ _ h => ⟨⟨⟨h.1.1, trivial⟩, h.2.1, trivial⟩, h.1.2, h.2.2⟩) ?_ ?_ ss ⟨h, hw⟩ t
  · rintro cond yes no ⟨⟨h, -⟩, hw, -⟩
    exact ⟨fun μ => Expr.clear_effects hw.1, ⟨h.2.1, hw.2.1⟩, allProper_getD h.2.2, allSpelled_getD hw.2.2⟩
  · exact fun s t _ h => ⟨clear_effects h.2.1 t, clear_acts h.1.1 h.2.1 t⟩

end Stmt

end Locomotive
